import Tigon.Common.Message

namespace Tigon.Common

structure BufferedReader where
  buffer : Nat → Byte
  bytes_read : Nat
  bytes_total : Nat

namespace BufferedReader

def BUFFER_SIZE : Nat := 1024 * 1024 * 4

def slice (buffer : Nat → Byte) (offset n : Nat) : List Byte :=
  (List.range n).map fun i => buffer (offset + i)

def start (buffer : Nat → Byte) : BufferedReader := ⟨buffer, 0, 0⟩

def has_message (r : BufferedReader) : Bool :=
  if r.bytes_read + Message.get_prefix_size > r.bytes_total then false
  else
    let header := readWord (slice r.buffer r.bytes_read 8)
    decide (r.bytes_read + Message.get_message_length header ≤ r.bytes_total)

-- The bytes that are left, moved to the front of the buffer by memcpy or by the loop.
def memcpyFront (buffer : Nat → Byte) (source n : Nat) : Nat → Byte :=
  fun i => if i < n then buffer (source + i) else buffer i

def moveFront (buffer : Nat → Byte) (source : Nat) : Nat → (Nat → Byte)
  | 0 => buffer
  | n + 1 =>
    let moved := moveFront buffer source n
    Function.update moved n (moved (n + source))

def compact (r : BufferedReader) : BufferedReader :=
  let bytes_left := r.bytes_total - r.bytes_read
  let buffer :=
    if 0 < bytes_left ∧ 0 < r.bytes_read then
      if bytes_left ≤ r.bytes_read then memcpyFront r.buffer r.bytes_read bytes_left
      else moveFront r.buffer r.bytes_read bytes_left
    else r.buffer
  ⟨buffer, 0, bytes_left⟩

-- A read of the socket that returns `chunk`; it cannot return more than it is asked for.
def receive (r : BufferedReader) (chunk : List Byte) : Option BufferedReader :=
  if chunk.length ≤ BUFFER_SIZE - r.bytes_total then
    some { r with
      buffer := fun i => (chunk[i - r.bytes_total]?).elim (r.buffer i)
        fun b => if r.bytes_total ≤ i then b else r.buffer i
      bytes_total := r.bytes_total + chunk.length }
  else none

-- `chunks` is what the next reads of the socket return, and then nothing more.
def fetch_message (r : BufferedReader) (chunks : List (List Byte)) :
    Option (BufferedReader × List (List Byte)) :=
  if r.has_message then some (r, chunks)
  else (r.compact.receive (chunks.headD [])).map (·, chunks.tail)

def next_message (r : BufferedReader) (chunks : List (List Byte)) :
    Option ((BufferedReader × List (List Byte)) × Option Message) :=
  (r.fetch_message chunks).map fun (r, chunks) =>
    if r.has_message then
      let header := readWord (slice r.buffer r.bytes_read 8)
      let length := Message.get_message_length header
      (({ r with bytes_read := r.bytes_read + length }, chunks),
        some ⟨slice r.buffer r.bytes_read length⟩)
    else ((r, chunks), none)

def messages : Nat → BufferedReader → List (List Byte) → Option (List Message)
  | 0, _, _ => some []
  | n + 1, r, chunks =>
    (r.next_message chunks).bind fun ((r, chunks), m) =>
      (messages n r chunks).map (m.toList ++ ·)

end BufferedReader

end Tigon.Common
