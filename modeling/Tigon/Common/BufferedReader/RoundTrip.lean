import Tigon.Common.BufferedReader
import Tigon.Common.Message.Layout

namespace Tigon.Common.BufferedReader

open List Message

variable {buffer : Nat → Byte} {offset n m : Nat}

@[simp]
theorem length_slice : (slice buffer offset n).length = n := by
  simp [slice]

theorem slice_eq_of_getElem {bytes : List Byte} (hlen : bytes.length = n)
    (h : ∀ i (hi : i < bytes.length), buffer (offset + i) = bytes[i]) :
    slice buffer offset n = bytes := by
  apply ext_getElem (by simp [hlen])
  intro i hi hbytes
  simpa [slice] using h i hbytes

theorem take_slice (h : m ≤ n) : (slice buffer offset n).take m = slice buffer offset m := by
  rw [slice, ← map_take, take_range, Nat.min_eq_left h, slice]

theorem drop_slice : (slice buffer offset n).drop m = slice buffer (offset + m) (n - m) := by
  symm
  apply slice_eq_of_getElem (by simp)
  intro i hi
  simp [slice, add_assoc]

theorem readWord_slice (h : 8 ≤ n) :
    readWord (slice buffer offset 8) = readWord (slice buffer offset n) := by
  rw [readWord, readWord, take_slice h, take_slice (Nat.le_refl 8)]

theorem moveFront_apply (source : Nat) (hpos : 0 < source) (i : Nat) :
    moveFront buffer source n i = if i < n then buffer (source + i) else buffer i := by
  induction n generalizing i with
  | zero => simp [moveFront]
  | succ n ih =>
    rw [moveFront]
    by_cases hi : i = n
    · subst hi
      rw [Function.update_self, ih, if_neg (by omega), if_pos (by omega), add_comm]
    · rw [Function.update_of_ne hi, ih]
      by_cases hlt : i < n
      · rw [if_pos hlt, if_pos (by omega)]
      · rw [if_neg hlt, if_neg (by omega)]

def pending (r : BufferedReader) : List Byte :=
  slice r.buffer r.bytes_read (r.bytes_total - r.bytes_read)

def Whole (d : List Byte) : Prop :=
  get_prefix_size ≤ d.length ∧ get_message_length (readWord d) ≤ d.length

theorem length_pending (r : BufferedReader) :
    r.pending.length = r.bytes_total - r.bytes_read := length_slice

theorem readWord_pending {r : BufferedReader} (h : get_prefix_size ≤ r.pending.length) :
    readWord (slice r.buffer r.bytes_read 8) = readWord r.pending := by
  rw [length_pending] at h
  exact readWord_slice (le_trans (by simp [get_prefix_size]) h)

theorem has_message_iff {r : BufferedReader} : r.has_message = true ↔ Whole r.pending := by
  have hlen := r.length_pending
  have hfront : 0 < get_prefix_size := by simp [get_prefix_size]
  by_cases hshort : r.bytes_read + get_prefix_size > r.bytes_total
  · have hnot : ¬ get_prefix_size ≤ r.pending.length := by omega
    simp [has_message, hshort, Whole, hnot]
  · have hlong : get_prefix_size ≤ r.pending.length := by omega
    have hword := readWord_pending hlong
    simp only [has_message, if_neg hshort, hword, decide_eq_true_eq, Whole, hlong, true_and]
    omega

theorem pending_compact (r : BufferedReader) : r.compact.pending = r.pending := by
  unfold pending compact
  simp only [Nat.sub_zero]
  split_ifs with hmove hcopy
  · apply slice_eq_of_getElem (by simp)
    intro i hi
    have hlt : i < r.bytes_total - r.bytes_read := by simpa using hi
    simp [memcpyFront, hlt, slice]
  · apply slice_eq_of_getElem (by simp)
    intro i hi
    have hlt : i < r.bytes_total - r.bytes_read := by simpa using hi
    rw [moveFront_apply _ hmove.2, zero_add, if_pos hlt]
    simp [slice]
  · -- nothing is left or it stands at the front already
    rw [not_and_or, Nat.not_lt, Nat.not_lt] at hmove
    rcases hmove with hnone | hfront
    · rw [Nat.le_zero.mp hnone]
      rfl
    · rw [Nat.le_zero.mp hfront]

theorem bytes_total_compact (r : BufferedReader) :
    r.compact.bytes_total = r.pending.length := by
  rw [length_pending]
  rfl

theorem receive_eq_some {r r' : BufferedReader} {chunk : List Byte}
    (hle : r.bytes_read ≤ r.bytes_total) (h : r.receive chunk = some r') :
    r'.pending = r.pending ++ chunk ∧ r'.bytes_read ≤ r'.bytes_total := by
  obtain ⟨-, rfl⟩ := Option.ite_some_none_eq_some.mp h
  refine ⟨?_, by simp only; omega⟩
  unfold pending
  apply slice_eq_of_getElem
  · simp only [length_append, length_slice]
    omega
  · intro i hi
    by_cases hold : i < r.bytes_total - r.bytes_read
    · rw [getElem_append_left (by simpa using hold)]
      have hnew : ¬ r.bytes_total ≤ r.bytes_read + i := by omega
      cases hget : chunk[r.bytes_read + i - r.bytes_total]? with
      | none => simp [slice, hget]
      | some b => simp [slice, hget, hnew]
    · rw [getElem_append_right (by simpa using not_lt.mp hold)]
      have hlt : r.bytes_read + i - r.bytes_total < chunk.length := by
        simp only [length_append, length_slice] at hi
        omega
      have hpos : r.bytes_total ≤ r.bytes_read + i := by omega
      have hidx : r.bytes_read + i - r.bytes_total = i - (r.bytes_total - r.bytes_read) := by
        omega
      rw [hidx] at hlt
      simp [hpos, hidx, List.getElem?_eq_getElem hlt]

structure Framed (d : List Byte) : Prop where
  prefix_le : get_prefix_size ≤ d.length
  length : get_message_length (readWord d) = d.length
  fits : d.length ≤ BUFFER_SIZE

theorem Framed.readWord_append {d : List Byte} (h : Framed d) (rest : List Byte) :
    readWord (d ++ rest) = readWord d :=
  Common.readWord_append (le_trans (by simp [get_prefix_size]) h.prefix_le) rest

theorem Framed.readWord_eq {d bytes tail rest : List Byte} (hd : Framed d)
    (hbytes : bytes ++ tail = d ++ rest) (hlen : get_prefix_size ≤ bytes.length) :
    readWord bytes = readWord d := by
  rw [← hd.readWord_append rest, ← hbytes,
    Common.readWord_append (le_trans (by simp [get_prefix_size]) hlen)]

theorem Framed.whole_iff {d bytes tail rest : List Byte} (hd : Framed d)
    (hbytes : bytes ++ tail = d ++ rest) : Whole bytes ↔ d.length ≤ bytes.length := by
  constructor
  · rintro ⟨hfront, hlen⟩
    rwa [hd.readWord_eq hbytes hfront, hd.length] at hlen
  · intro hlen
    have hfront := le_trans hd.prefix_le hlen
    exact ⟨hfront, by rwa [hd.readWord_eq hbytes hfront, hd.length]⟩

-- What is received and what is still to be received are the messages not yet returned.
structure Streams (r : BufferedReader) (chunks rest : List (List Byte)) : Prop where
  le : r.bytes_read ≤ r.bytes_total
  bytes : r.pending ++ chunks.flatten = rest.flatten
  framed : ∀ d ∈ rest, Framed d

variable {r r' : BufferedReader} {chunks chunks' rest : List (List Byte)}

theorem Streams.start (hbytes : chunks.flatten = rest.flatten) (hframed : ∀ d ∈ rest, Framed d) :
    Streams (start buffer) chunks rest where
  le := Nat.le_refl 0
  bytes := hbytes
  framed := hframed

theorem Streams.not_whole_nil (h : Streams r chunks []) : ¬ Whole r.pending := by
  intro hwhole
  have hnil := (append_eq_nil_iff.mp h.bytes).1
  have hfront := hwhole.1
  rw [hnil] at hfront
  simp [get_prefix_size] at hfront

theorem Streams.fetch_message (h : Streams r chunks rest)
    (hfetch : r.fetch_message chunks = some (r', chunks')) :
    Streams r' chunks' rest ∧
      (Whole r.pending ∧ r' = r ∧ chunks' = chunks ∨
        ¬ Whole r.pending ∧ r'.pending = r.pending ++ chunks.headD [] ∧ chunks' = chunks.tail) := by
  unfold BufferedReader.fetch_message at hfetch
  split_ifs at hfetch with hhas
  · obtain ⟨rfl, rfl⟩ := Prod.mk.inj (Option.some.inj hfetch)
    exact ⟨h, .inl ⟨has_message_iff.mp hhas, rfl, rfl⟩⟩
  · obtain ⟨received, hreceive, heq⟩ := Option.map_eq_some_iff.mp hfetch
    obtain ⟨rfl, rfl⟩ := Prod.mk.inj heq
    obtain ⟨hpending, hle⟩ := receive_eq_some (Nat.zero_le _) hreceive
    rw [pending_compact] at hpending
    refine ⟨⟨hle, ?_, h.framed⟩, .inr ⟨fun hw => hhas (has_message_iff.mpr hw), hpending, rfl⟩⟩
    rw [← h.bytes, hpending]
    cases chunks <;> simp

theorem Streams.next_message {m : Option Message} (h : Streams r chunks rest)
    (hnext : r.next_message chunks = some ((r', chunks'), m)) :
    (∃ d rest', rest = d :: rest' ∧ m = some ⟨d⟩ ∧ Streams r' chunks' rest' ∧
      chunks'.length ≤ chunks.length) ∨
    (m = none ∧ Streams r' chunks' rest ∧ chunks' = chunks.tail ∧ (chunks = [] → rest = [])) := by
  obtain ⟨⟨fetched, left⟩, hfetch, hreturn⟩ := Option.map_eq_some_iff.mp hnext
  obtain ⟨hstreams, hcase⟩ := h.fetch_message hfetch
  simp only at hreturn
  split_ifs at hreturn with hhas
  · have hwhole := has_message_iff.mp hhas
    simp only [Prod.mk.injEq] at hreturn
    obtain ⟨⟨hr, rfl⟩, hm⟩ := hreturn
    cases rest with
    | nil => exact absurd hwhole hstreams.not_whole_nil
    | cons d rest =>
      have hd := hstreams.framed d mem_cons_self
      have hbytes := hstreams.bytes
      rw [flatten_cons] at hbytes
      have hlen := (hd.whole_iff hbytes).mp hwhole
      rw [readWord_pending hwhole.1, hd.readWord_eq hbytes hwhole.1, hd.length] at hr hm
      have htotal : fetched.bytes_read + d.length ≤ fetched.bytes_total := by
        have hpending := fetched.length_pending
        have hfront := hd.prefix_le
        unfold get_prefix_size at hfront
        omega
      have htake : fetched.pending.take d.length = d := by
        have htake := congrArg (List.take d.length) hbytes
        rwa [take_append_of_le_length hlen, take_left] at htake
      have hdrop : r'.pending = fetched.pending.drop d.length := by
        rw [pending, pending, drop_slice, ← hr, Nat.sub_sub]
      refine .inl ⟨d, rest, rfl, ?_, ⟨?_, ?_, ?_⟩, ?_⟩
      · rw [← hm, ← take_slice (n := fetched.bytes_total - fetched.bytes_read) (by omega)]
        exact congrArg some (congrArg Message.mk htake)
      · rw [← hr]
        exact htotal
      · have hrest := congrArg (List.drop d.length) hbytes
        rwa [drop_append_of_le_length hlen, drop_left, ← hdrop] at hrest
      · exact fun d' hd' => hstreams.framed d' (mem_cons_of_mem d hd')
      · rcases hcase with ⟨-, -, rfl⟩ | ⟨-, -, rfl⟩
        · exact le_rfl
        · simp
  · simp only [Prod.mk.injEq] at hreturn
    obtain ⟨⟨rfl, rfl⟩, rfl⟩ := hreturn
    have hnot : ¬ Whole fetched.pending := fun hw => hhas (has_message_iff.mpr hw)
    rcases hcase with ⟨hwhole, rfl, -⟩ | ⟨-, hpending, rfl⟩
    · exact absurd hwhole hnot
    · refine .inr ⟨rfl, hstreams, rfl, ?_⟩
      rintro rfl
      cases rest with
      | nil => rfl
      | cons d rest =>
        refine absurd ?_ hnot
        have hbytes := hstreams.bytes
        rw [flatten_cons] at hbytes
        refine ((hstreams.framed d mem_cons_self).whole_iff hbytes).mpr ?_
        have hlen := congrArg List.length hbytes
        simp only [tail_nil, flatten_nil, append_nil, length_append] at hlen
        omega

theorem messages_prefix {calls : Nat} {out : List Message} (h : Streams r chunks rest)
    (hout : messages calls r chunks = some out) :
    out <+: rest.map Message.mk ∧
      (chunks.length + rest.length ≤ calls → out = rest.map Message.mk) := by
  induction calls generalizing r chunks rest out with
  | zero =>
    obtain rfl := Option.some.inj hout
    refine ⟨ nil_prefix, ?_⟩
    intro hcalls
    rw [length_eq_zero_iff.mp (show rest.length = 0 by omega)]
    rfl
  | succ calls ih =>
    obtain ⟨⟨⟨r', chunks'⟩, m⟩, hnext, hrest⟩ := Option.bind_eq_some_iff.mp hout
    obtain ⟨out', hout', rfl⟩ := Option.map_eq_some_iff.mp hrest
    rcases h.next_message hnext with
      ⟨d, rest', rfl, rfl, hstreams, hlen⟩ | ⟨rfl, hstreams, rfl, hdone⟩
    · obtain ⟨hfront, hall⟩ := ih hstreams hout'
      refine ⟨?_, ?_⟩
      · exact cons_prefix_cons.mpr ⟨rfl, hfront⟩
      · intro hcalls
        rw [length_cons] at hcalls
        rw [hall (by omega)]
        rfl
    · obtain ⟨hfront, hall⟩ := ih hstreams hout'
      refine ⟨hfront, ?_⟩
      intro hcalls
      cases chunks with
      | nil =>
        rw [hdone rfl] at hfront ⊢
        exact prefix_nil.mp hfront
      | cons chunk chunks =>
        apply hall
        rw [length_cons] at hcalls
        rw [tail_cons]
        omega

theorem messages_isSome (calls : Nat) (h : Streams r chunks rest)
    (hchunks : ∀ c ∈ chunks, ∀ d ∈ rest, c.length + d.length ≤ BUFFER_SIZE + 1) :
    (messages calls r chunks).isSome := by
  induction calls generalizing r chunks rest with
  | zero => rfl
  | succ calls ih =>
    have hreceive : ¬ Whole r.pending →
        (chunks.headD []).length ≤ BUFFER_SIZE - r.compact.bytes_total := by
      intro hnot
      rw [bytes_total_compact]
      cases chunks with
      | nil => simp
      | cons chunk chunks =>
        have hbytes := h.bytes
        cases rest with
        | nil =>
          have hnil := append_eq_nil_iff.mp hbytes
          have hchunk := (append_eq_nil_iff.mp
            ((flatten_cons (L := chunks) (l := chunk)).symm.trans hnil.2)).1
          simp [hchunk]
        | cons d rest =>
          rw [flatten_cons (l := d)] at hbytes
          have hshort := mt ((h.framed d mem_cons_self).whole_iff hbytes).mpr hnot
          have hroom := hchunks chunk mem_cons_self d mem_cons_self
          rw [headD_cons]
          omega
    obtain ⟨fetched, hfetch⟩ : ∃ fetched, r.fetch_message chunks = some fetched := by
      unfold BufferedReader.fetch_message
      split_ifs with hhas
      · exact ⟨_, rfl⟩
      · have hfits := hreceive fun hw => hhas (has_message_iff.mpr hw)
        rw [receive, if_pos hfits]
        exact ⟨_, rfl⟩
    obtain ⟨⟨⟨r', chunks'⟩, m⟩, hnext⟩ : ∃ next, r.next_message chunks = some next := by
      rw [BufferedReader.next_message, hfetch]
      exact ⟨_, rfl⟩
    have hsub : chunks' = chunks ∨ chunks' = chunks.tail := by
      obtain ⟨⟨fetched, left⟩, hfetch, hreturn⟩ := Option.map_eq_some_iff.mp hnext
      have hleft : left = chunks' := by
        simp only at hreturn
        split_ifs at hreturn <;> simp_all
      rcases (h.fetch_message hfetch).2 with ⟨-, -, hl⟩ | ⟨-, -, hl⟩
      · exact .inl (hleft ▸ hl)
      · exact .inr (hleft ▸ hl)
    have hmem : ∀ c ∈ chunks', c ∈ chunks := by
      intro c hc
      rcases hsub with rfl | rfl
      · exact hc
      · exact mem_of_mem_tail hc
    rw [messages, hnext, Option.bind_some, Option.isSome_map]
    rcases h.next_message hnext with
      ⟨d, rest', rfl, -, hstreams, -⟩ | ⟨-, hstreams, -, -⟩
    · exact ih hstreams fun c hc d' hd' =>
        hchunks c (hmem c hc) d' (mem_cons_of_mem d hd')
    · exact ih hstreams fun c hc => hchunks c (hmem c hc)

theorem framed_build {ops : List BuildOp} (hflushed : isFlushed ops = true)
    (hlt : (build ops).data.length < 2 ^ 26)
    (hfits : (build ops).data.length ≤ BUFFER_SIZE) :
    Framed (build ops).data where
  prefix_le := (built_build ops).prefix_le
  length := (built_build ops).length hflushed hlt
  fits := hfits

-- Messages through a connection: whatever the reads of the socket return of their bytes at
-- a time, the calls return the messages and each is made of its pieces.
theorem next_message_round_trip (buffer : Nat → Byte) (msgs : List (List BuildOp))
    (hflushed : ∀ ops ∈ msgs, isFlushed ops = true)
    (hlt : ∀ ops ∈ msgs, (build ops).data.length < 2 ^ 26)
    (hfits : ∀ ops ∈ msgs, (build ops).data.length ≤ BUFFER_SIZE)
    (chunks : List (List Byte))
    (hchunks : chunks.flatten = (msgs.map fun ops => (build ops).data).flatten) :
    (∀ calls out, messages calls (start buffer) chunks = some out →
      out <+: msgs.map build ∧
      (chunks.length + msgs.length ≤ calls → out = msgs.map build)) ∧
    ((∀ c ∈ chunks, ∀ ops ∈ msgs,
        c.length + (build ops).data.length ≤ BUFFER_SIZE + 1) →
      ∀ calls, (messages calls (start buffer) chunks).isSome) ∧
    (∀ ops ∈ msgs, ∀ fuel, (piecesOf ops).length < fuel →
      (build ops).pieces fuel = some ((piecesOf ops).map MessagePiece.bytes)) := by
  have hframed : ∀ d ∈ msgs.map fun ops => (build ops).data, Framed d := by
    intro d hd
    obtain ⟨ops, hops, rfl⟩ := mem_map.mp hd
    exact framed_build (hflushed ops hops) (hlt ops hops) (hfits ops hops)
  have hstreams : Streams (start buffer) chunks (msgs.map fun ops => (build ops).data) :=
    Streams.start hchunks hframed
  refine ⟨?_, ?_, ?_⟩
  · intro calls out hout
    have hfront := messages_prefix hstreams hout
    rw [map_map, length_map] at hfront
    exact hfront
  · intro hroom calls
    apply messages_isSome calls hstreams
    intro c hc d hd
    obtain ⟨ops, hops, rfl⟩ := mem_map.mp hd
    exact hroom c hc ops hops
  · intro ops _ fuel hfuel
    exact pieces_build ops hfuel

-- A message of two pieces and one without any, cut inside the first header.
def pieceOf (body : List Byte) (h : body.length < 100) : MessagePiece :=
  ⟨3, 1, 2, 4, body, by omega, by omega, by omega, by omega, by omega⟩

def twoMessages : List (List BuildOp) :=
  [[.append (pieceOf [1, 2, 3] (by decide)), .append (pieceOf [] (by decide)), .flush,
    .set_dest_node_id 1], [.flush]]

def twoMessagesCut : List (List Byte) :=
  let bytes := (twoMessages.map fun ops => (build ops).data).flatten
  [[], bytes.take 3, bytes.drop 3]

theorem next_message_round_trip_of_two_messages :
    messages 5 (start fun _ => 0) twoMessagesCut = some (twoMessages.map build) := by
  have htrip := next_message_round_trip (fun _ => 0) twoMessages (by decide) (by decide)
    (by decide) twoMessagesCut (by simp [twoMessagesCut])
  obtain ⟨out, hout⟩ := Option.isSome_iff_exists.mp (htrip.2.1 (by decide +kernel) 5)
  rw [hout, (htrip.1 5 out hout).2 (by decide)]

end Tigon.Common.BufferedReader
