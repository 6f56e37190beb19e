import Tigon.TwoPLPasha.RedoLog

namespace Tigon.TwoPLPasha

def decimal (n : Nat) : List UInt8 := (Nat.toDigits 10 n).map fun c => c.toNat.toUInt8

def LogType.code : LogType → Nat
  | update => 0
  | insert => 1
  | delete => 2

-- What is passed to the logger: redo records, by the tables' key and value sizes, and
-- commit records. A delete is logged without a value.
inductive StreamRecord (key_size value_size : Fin 32 → Nat)
  | write (inserted : Bool) (tableId : Fin 32) (partitionId : Fin (2 ^ 20)) (epoch_version : Word)
      (key : Vector UInt8 (key_size tableId)) (value : Vector UInt8 (value_size tableId))
  | delete (tableId : Fin 32) (partitionId : Fin (2 ^ 20)) (epoch_version : Word)
      (key : Vector UInt8 (key_size tableId))
  | commit (commit_tid : Word)

namespace StreamRecord

variable {key_size value_size : Fin 32 → Nat}

def header (log_type : LogType) (tableId : Fin 32) (partitionId : Fin (2 ^ 20))
    (epoch_version : Word) : List UInt8 :=
  decimal log_type.code ++ decimal tableId ++ decimal partitionId ++ decimal epoch_version.toNat

-- `true` is printed as 1.
def output : StreamRecord key_size value_size → List UInt8
  | write inserted tableId partitionId epoch_version key value =>
    header (if inserted then .insert else .update) tableId partitionId epoch_version ++
      key.toList ++ value.toList
  | delete tableId partitionId epoch_version key =>
    header .delete tableId partitionId epoch_version ++ key.toList
  | commit commit_tid => decimal commit_tid.toNat ++ decimal 1

def stream (records : List (StreamRecord key_size value_size)) : List UInt8 :=
  records.flatMap output

end StreamRecord

theorem decimal_append_digit {n d : Nat} (hn : 0 < n) (hd : d < 10) :
    decimal (10 * n + d) = decimal n ++ decimal d := by
  rw [decimal, decimal, decimal, ← List.map_append,
    Nat.toDigits_append_toDigits (by omega) hn hd]

namespace StreamRecord

-- A digit between a partition and a version can be read as the last one of the partition
-- or as the first one of the version.
theorem header_moved_digit (log_type : LogType) (tableId : Fin 32) {p q : Fin (2 ^ 20)}
    {v u : Word} {d e : Nat} (hp : 0 < p.val) (hd : 0 < d) (hd' : d < 10) (he : e < 10)
    (hq : q.val = 10 * p.val + d) (hv : v.toNat = 10 * d + e) (hu : u.toNat = e) :
    header log_type tableId p v = header log_type tableId q u := by
  rw [header, header, hq, hv, hu, decimal_append_digit hd he, decimal_append_digit hp hd']
  simp only [List.append_assoc]

-- Whatever the sizes of keys and values, two records of one table, key and value are
-- printed alike: partition 1 with version 11, and partition 11 with version 1.
theorem redo_stream_is_ambiguous (key_size value_size : Fin 32 → Nat) :
    ¬Function.Injective (stream : List (StreamRecord key_size value_size) → List UInt8) := by
  intro hinj
  let record (p : Fin (2 ^ 20)) (v : Word) : StreamRecord key_size value_size :=
    write false 0 p v (.replicate _ 0) (.replicate _ 0)
  have hheader : header .update 0 1 11 = header .update 0 11 1 :=
    header_moved_digit (d := 1) (e := 1) .update 0 (by decide) (by omega) (by omega) (by omega)
      (by decide) (by decide) (by decide)
  have hstream : stream [record 1 11] = stream [record 11 1] := by
    simp only [stream, List.flatMap_cons, output, record, Bool.false_eq_true, if_false, hheader]
  have hrecords := List.head_eq_of_cons_eq (hinj hstream)
  have hpartition := (write.inj hrecords).2.2.1
  exact absurd hpartition (by decide)

theorem two_records_print_alike :
    stream [(write false 0 1 11 #v[7] #v[8, 9] : StreamRecord (fun _ => 1) (fun _ => 2))] =
        [48, 48, 49, 49, 49, 7, 8, 9] ∧
      stream [(write false 0 11 1 #v[7] #v[8, 9] : StreamRecord (fun _ => 1) (fun _ => 2))] =
        [48, 48, 49, 49, 49, 7, 8, 9] ∧
      (write false 0 1 11 #v[7] #v[8, 9] : StreamRecord (fun _ => 1) (fun _ => 2)) ≠
        write false 0 11 1 #v[7] #v[8, 9] := by
  refine ⟨by decide, by decide, ?_⟩
  intro h
  have hpartition := (write.inj h).2.2.1
  exact absurd hpartition (by decide)

end StreamRecord

end Tigon.TwoPLPasha
