import WowDb.Lib.Framing
import WowDb.Storage.MemTable

/-!
# Row batches and their WAL payload

`storage-node/src/grpc/write.rs`, the first part.
-/
namespace WowDb.Storage
open WowDb.Lib List

structure HashOrder where
  iterate : OrdMap String Bytes → List (String × Bytes)
  iterate_perm : ∀ m, (iterate m).Perm m.entries

def HashOrder.ascending : HashOrder := ⟨OrdMap.entries, fun _ => List.Perm.refl _⟩

structure WriteRow where
  sortKeyBytes : Bytes
  columns : OrdMap String Bytes
  txId : UInt64
  deriving DecidableEq

inductive BatchError where
  | underflowU32 | underflowU64 | underflowBytes (len : Nat) | invalidColumnName
  deriving DecidableEq

namespace WriteBatch

def toSortKey (row : WriteRow) : SortKey := ⟨[⟨"sort_key", row.sortKeyBytes⟩]⟩

def lengthPrefixed (octets : Bytes) : Bytes := Bytes.leBytes 4 octets.length ++ octets

def serializeColumn (c : String × Bytes) : Bytes :=
  lengthPrefixed (Text.encode c.1.toList) ++ lengthPrefixed c.2

def serializeRow (H : HashOrder) (row : WriteRow) : Bytes :=
  Bytes.leBytes 8 row.txId.toNat ++ (lengthPrefixed row.sortKeyBytes ++
    (Bytes.leBytes 4 row.columns.entries.length ++ (H.iterate row.columns).flatMap serializeColumn))

def serializeWriteBatch (H : HashOrder) (rows : List WriteRow) : Bytes :=
  Bytes.leBytes 4 rows.length ++ rows.flatMap (serializeRow H)

variable (data : Bytes)

def readU32 : Except BatchError (Nat × Bytes) :=
  match Bytes.readExact 4 data with
  | none => .error .underflowU32
  | some (octets, rest) => .ok (Bytes.ofLeBytes octets, rest)

def readU64 : Except BatchError (Nat × Bytes) :=
  match Bytes.readExact 8 data with
  | none => .error .underflowU64
  | some (octets, rest) => .ok (Bytes.ofLeBytes octets, rest)

def readBytes (len : Nat) (data : Bytes) : Except BatchError (Bytes × Bytes) :=
  match Bytes.readExact len data with
  | none => .error (.underflowBytes len)
  | some (octets, rest) => .ok (octets, rest)

def readPrefixed : Except BatchError (Bytes × Bytes) := do
  let (len, data) ← readU32 data
  readBytes len data

def readColumns : Nat → OrdMap String Bytes → Bytes → Except BatchError (OrdMap String Bytes × Bytes)
  | 0, columns, data => .ok (columns, data)
  | count + 1, columns, data => do
    let (nameBytes, data) ← readPrefixed data
    match Text.decode nameBytes with
    | none => .error .invalidColumnName
    | some name =>
      let (value, data) ← readPrefixed data
      readColumns count (columns.insert (String.ofList name) value) data

def readRow : Except BatchError (WriteRow × Bytes) := do
  let (txId, data) ← readU64 data
  let (sortKeyBytes, data) ← readPrefixed data
  let (count, data) ← readU32 data
  let (columns, data) ← readColumns count .empty data
  .ok (⟨sortKeyBytes, columns, UInt64.ofNat txId⟩, data)

def readRows : Nat → Bytes → Except BatchError (List WriteRow)
  | 0, _ => .ok []
  | count + 1, data => do
    let (row, data) ← readRow data
    let rows ← readRows count data
    .ok (row :: rows)

def deserializeWriteBatch : Except BatchError (List WriteRow) := do
  let (count, data) ← readU32 data
  readRows count data

theorem readU32_leBytes {n : Nat} (bound : n < 2 ^ 32) (rest : Bytes) :
    readU32 (Bytes.leBytes 4 n ++ rest) = .ok (n, rest) := by
  have value : Bytes.ofLeBytes (Bytes.leBytes 4 n) = n := Bytes.ofLeBytes_leBytes_of_lt bound
  simp only [readU32, Bytes.readExact_of_length (Bytes.length_leBytes 4 n), value]

theorem readU64_leBytes {n : Nat} (bound : n < 2 ^ 64) (rest : Bytes) :
    readU64 (Bytes.leBytes 8 n ++ rest) = .ok (n, rest) := by
  have value : Bytes.ofLeBytes (Bytes.leBytes 8 n) = n := Bytes.ofLeBytes_leBytes_of_lt bound
  simp only [readU64, Bytes.readExact_of_length (Bytes.length_leBytes 8 n), value]

theorem readPrefixed_lengthPrefixed {octets : Bytes} (bound : octets.length < 2 ^ 32)
    (rest : Bytes) : readPrefixed (lengthPrefixed octets ++ rest) = .ok (octets, rest) := by
  rw [lengthPrefixed, append_assoc]
  simp only [readPrefixed, readU32_leBytes bound, bind, Except.bind]
  rw [readBytes, Bytes.readExact_append]

structure ColumnFits (c : String × Bytes) : Prop where
  name : (Text.encode c.1.toList).length < 2 ^ 32
  value : c.2.length < 2 ^ 32

structure RowFits (row : WriteRow) : Prop where
  key : row.sortKeyBytes.length < 2 ^ 32
  count : row.columns.entries.length < 2 ^ 32
  columns : ∀ c ∈ row.columns.entries, ColumnFits c

theorem readColumns_serialized {cols : List (String × Bytes)} (fits : ∀ c ∈ cols, ColumnFits c)
    (m : OrdMap String Bytes) (rest : Bytes) :
    readColumns cols.length m (cols.flatMap serializeColumn ++ rest) =
      .ok (cols.foldl (fun m c => m.insert c.1 c.2) m, rest) := by
  induction cols generalizing m with
  | nil => rfl
  | cons c cols ih =>
    obtain ⟨name, value⟩ := fits c (by simp)
    simp only [length_cons, flatMap_cons, serializeColumn, append_assoc,
      readColumns, readPrefixed_lengthPrefixed name, bind, Except.bind, Text.decode_encode,
      readPrefixed_lengthPrefixed value, String.ofList_toList, foldl_cons]
    exact ih (fun d member => fits d (by simp [member])) _

variable (H : HashOrder)

theorem readRow_serialized {row : WriteRow} (fits : RowFits row) (rest : Bytes) :
    readRow (serializeRow H row ++ rest) = .ok (row, rest) := by
  have perm := H.iterate_perm row.columns
  have columns := readColumns_serialized
    (fun c member => fits.columns c (perm.mem_iff.mp member)) .empty rest
  rw [perm.length_eq] at columns
  have collected : (H.iterate row.columns).foldl (fun m c => m.insert c.1 c.2) .empty =
      row.columns := OrdMap.ofList_of_perm perm
  simp only [readRow, serializeRow, append_assoc, readU64_leBytes row.txId.toNat_lt,
    readPrefixed_lengthPrefixed fits.key, readU32_leBytes fits.count, columns, collected, bind,
    Except.bind, UInt64.ofNat_toNat]

def readRowsFrom : Nat → Bytes → Except BatchError (List WriteRow × Bytes)
  | 0, data => .ok ([], data)
  | count + 1, data =>
    (readRow data).bind fun first =>
      (readRowsFrom count first.2).bind fun later => .ok (first.1 :: later.1, later.2)

theorem readRows_eq (count : Nat) (data : Bytes) :
    readRows count data = (readRowsFrom count data).map (·.1) := by
  induction count generalizing data with
  | zero => rfl
  | succ count ih =>
    simp only [readRows, readRowsFrom, bind]
    cases readRow data with
    | error e => rfl
    | ok first =>
      simp only [Except.bind, ih]
      cases readRowsFrom count first.2 <;> rfl

variable {rows : List WriteRow}

theorem readRowsFrom_serialized (fits : ∀ row ∈ rows, RowFits row) :
    readRowsFrom rows.length (rows.flatMap (serializeRow H)) = .ok (rows, []) := by
  induction rows with
  | nil => rfl
  | cons row rows ih =>
    have tail := ih fun r member => fits r (by simp [member])
    simp only [length_cons, flatMap_cons, readRowsFrom,
      readRow_serialized H (fits row (by simp)), tail, Except.bind]

def readBatch : Except BatchError (List WriteRow × Bytes) :=
  (readU32 data).bind fun count => readRowsFrom count.1 count.2

theorem deserialize_eq : deserializeWriteBatch data = (readBatch data).map (·.1) := by
  simp only [deserializeWriteBatch, readBatch, bind]
  cases readU32 data with
  | error e => rfl
  | ok count => exact readRows_eq count.1 count.2

theorem readBatch_of_fits (count : rows.length < 2 ^ 32) (fits : ∀ row ∈ rows, RowFits row) :
    readBatch (serializeWriteBatch H rows) = .ok (rows, []) := by
  rw [readBatch, serializeWriteBatch, readU32_leBytes count]
  exact readRowsFrom_serialized H fits

theorem deserialize_of_fits (count : rows.length < 2 ^ 32) (fits : ∀ row ∈ rows, RowFits row) :
    deserializeWriteBatch (serializeWriteBatch H rows) = .ok rows := by
  rw [deserialize_eq, readBatch_of_fits H count fits]
  rfl

theorem length_le_flatMap {α : Type} {f : α → Bytes} {xs : List α} {x : α} (member : x ∈ xs) :
    (f x).length ≤ (xs.flatMap f).length := by
  obtain ⟨before, after, rfl⟩ := append_of_mem member
  simp only [flatMap_append, flatMap_cons, length_append]
  omega

theorem mul_length_le_flatMap {α : Type} {f : α → Bytes} {k : Nat} (each : ∀ x, k ≤ (f x).length)
    (xs : List α) : k * xs.length ≤ (xs.flatMap f).length := by
  induction xs with
  | nil => simp
  | cons x xs ih =>
    have first := each x
    rw [flatMap_cons, length_append, length_cons, Nat.mul_succ]
    omega

theorem serializeColumn_length (c : String × Bytes) : 8 ≤ (serializeColumn c).length := by
  simp only [serializeColumn, lengthPrefixed, length_append, Bytes.length_leBytes]
  omega

theorem serializeRow_length (row : WriteRow) : 16 ≤ (serializeRow H row).length := by
  simp only [serializeRow, lengthPrefixed, length_append, Bytes.length_leBytes]
  omega

theorem columnFits_of_length {c : String × Bytes} (bound : (serializeColumn c).length < 2 ^ 32) :
    ColumnFits c := by
  simp only [serializeColumn, lengthPrefixed, length_append, Bytes.length_leBytes] at bound
  constructor <;> omega

theorem rowFits_of_length {row : WriteRow}
    (bound : (serializeRow H row).length < 2 ^ 32) : RowFits row := by
  have perm := H.iterate_perm row.columns
  have each := mul_length_le_flatMap serializeColumn_length (H.iterate row.columns)
  rw [perm.length_eq] at each
  simp only [serializeRow, lengthPrefixed, length_append] at bound
  refine ⟨by omega, by omega, fun c member => columnFits_of_length ?_⟩
  have le := length_le_flatMap (f := serializeColumn) (perm.mem_iff.mpr member)
  omega

theorem rows_length_le (rows : List WriteRow) :
    16 * rows.length ≤ (serializeWriteBatch H rows).length := by
  have le := mul_length_le_flatMap (serializeRow_length H) rows
  rw [serializeWriteBatch, length_append]
  omega

theorem deserialize_serialize (bound : (serializeWriteBatch H rows).length < 2 ^ 32) :
    deserializeWriteBatch (serializeWriteBatch H rows) = .ok rows := by
  have many := rows_length_le H rows
  refine deserialize_of_fits H (by omega) fun row member => rowFits_of_length H ?_
  have le := length_le_flatMap (f := serializeRow H) member
  rw [serializeWriteBatch, length_append] at bound
  omega

inductive Marker where
  | prepare | commit | rollback
  deriving DecidableEq

def Marker.tag : Marker → String
  | .prepare => "PREPARE:"
  | .commit => "COMMIT:"
  | .rollback => "ROLLBACK:"

variable (m : Marker)

def markerPayload (txId : UInt64) : Bytes :=
  Text.encode (m.tag.toList ++ Nat.toDigits 10 txId.toNat)

def isMarker (payload : Bytes) : Bool :=
  [Marker.prepare, .commit, .rollback].any fun m =>
    (Text.encode m.tag.toList).isPrefixOf payload

theorem isMarker_markerPayload (txId : UInt64) : isMarker (markerPayload m txId) = true := by
  have own : (Text.encode m.tag.toList).isPrefixOf (markerPayload m txId) = true := by
    rw [markerPayload, Text.encode_append, isPrefixOf_iff_prefix]
    exact prefix_append _ _
  cases m <;> simp [isMarker, own]

theorem tag_fourth : ∃ c, (Text.encode m.tag.toList)[3]? = some c ∧ 64 ≤ c.toNat := by
  cases m with
  | prepare => exact ⟨80, by decide, by decide⟩
  | commit => exact ⟨77, by decide, by decide⟩
  | rollback => exact ⟨76, by decide, by decide⟩

theorem isMarker_serialize (bound : (serializeWriteBatch H rows).length < 2 ^ 32) :
    isMarker (serializeWriteBatch H rows) = false := by
  have many := rows_length_le H rows
  have fourth : (serializeWriteBatch H rows)[3]? =
      some (UInt8.ofNat (rows.length / 256 / 256 / 256 % 256)) := by
    simp [serializeWriteBatch, Bytes.leBytes]
  have small : rows.length / 256 / 256 / 256 % 256 < 16 := by omega
  rw [isMarker, List.any_eq_false]
  intro m _ tagged
  obtain ⟨rest, payload⟩ := List.isPrefixOf_iff_prefix.mp tagged
  obtain ⟨c, letter, large⟩ := tag_fourth m
  obtain ⟨inside, -⟩ := List.getElem?_eq_some_iff.mp letter
  rw [← payload, List.getElem?_append_left inside, letter] at fourth
  have value := congrArg UInt8.toNat (Option.some.inj fourth)
  rw [UInt8.toNat_ofNat'] at value
  omega

end WriteBatch
end WowDb.Storage

namespace WowDb.Storage.WriteBatch
open WowDb.Lib

theorem readExact_append_right {n : Nat} {s a rest : Bytes} (read : Bytes.readExact n s = some (a, rest))
    (more : Bytes) : Bytes.readExact n (s ++ more) = some (a, rest ++ more) := by
  obtain ⟨rfl, length⟩ := Bytes.readExact_some read
  rw [List.append_assoc, Bytes.readExact_of_length length]

theorem stable_readExact {α : Type} (len : Nat) (e : BatchError) (value : Bytes → α) :
    Stable fun s => match Bytes.readExact len s with
      | none => .error e
      | some (octets, rest) => .ok (value octets, rest) := by
  intro s a rest read more
  dsimp only at read ⊢
  cases taken : Bytes.readExact len s with
  | none => simp [taken] at read
  | some octets =>
    simp only [taken, Except.ok.injEq, Prod.mk.injEq] at read
    obtain ⟨rfl, rfl⟩ := read
    rw [readExact_append_right taken more]

theorem stable_readBytes (len : Nat) : Stable (readBytes len) :=
  stable_readExact len (.underflowBytes len) id

theorem stable_readU32 : Stable readU32 := stable_readExact 4 .underflowU32 Bytes.ofLeBytes

theorem stable_readU64 : Stable readU64 := stable_readExact 8 .underflowU64 Bytes.ofLeBytes

theorem stable_readPrefixed : Stable readPrefixed := stable_readU32.bind stable_readBytes

theorem stable_readColumns (count : Nat) (columns : OrdMap String Bytes) :
    Stable (readColumns count columns) := by
  induction count generalizing columns with
  | zero => exact .ok columns
  | succ count ih =>
    have named : ∀ nameBytes : Bytes, Stable fun data : Bytes =>
        match Text.decode nameBytes with
        | none => .error .invalidColumnName
        | some name => (readPrefixed data).bind fun r =>
          readColumns count (columns.insert (String.ofList name) r.1) r.2 := by
      intro nameBytes
      cases Text.decode nameBytes with
      | none => exact .error _
      | some name => exact stable_readPrefixed.bind fun value => ih _
    exact stable_readPrefixed.bind named

theorem stable_readRow : Stable readRow :=
  stable_readU64.bind fun txId => stable_readPrefixed.bind fun sortKeyBytes =>
    stable_readU32.bind fun count => (stable_readColumns count .empty).bind fun columns =>
      .ok (⟨sortKeyBytes, columns, UInt64.ofNat txId⟩ : WriteRow)

theorem stable_readRowsFrom (count : Nat) : Stable (readRowsFrom count) := by
  induction count with
  | zero => exact .ok []
  | succ count ih => exact stable_readRow.bind fun row => ih.bind fun rows => .ok (row :: rows)

theorem stable_readBatch : Stable readBatch := stable_readU32.bind stable_readRowsFrom

/-- Batches are read back, and proper prefixes refused. -/
theorem batch_codec (H : HashOrder) {rows : List WriteRow} (count : rows.length < 2 ^ 32)
    (fits : ∀ row ∈ rows, RowFits row) :
    deserializeWriteBatch (serializeWriteBatch H rows) = .ok rows ∧
      ∀ part, part <+: serializeWriteBatch H rows →
        part.length < (serializeWriteBatch H rows).length →
        ∃ e, deserializeWriteBatch part = .error e := by
  have reads := readBatch_of_fits H count fits
  refine ⟨deserialize_of_fits H count fits, fun part isPrefix short => ?_⟩
  obtain ⟨e, fails⟩ := stable_readBatch.fails_on_part reads isPrefix short
  exact ⟨e, by rw [deserialize_eq, fails]; rfl⟩

def twoRows : List WriteRow :=
  [⟨[], .empty, 0⟩, ⟨[7], (OrdMap.empty.insert "a" [1, 2]).insert "é" [], 5⟩]

theorem twoRows_codec : twoRows.length < 2 ^ 32 ∧ (∀ row ∈ twoRows, RowFits row) ∧
      deserializeWriteBatch (serializeWriteBatch .ascending twoRows) = .ok twoRows := by
  have fits : ∀ row ∈ twoRows, RowFits row := by
    intro row member
    refine rowFits_of_length .ascending ?_
    simp only [twoRows, List.mem_cons, List.not_mem_nil, or_false] at member
    rcases member with rfl | rfl <;> decide +kernel
  exact ⟨by decide, fits, (batch_codec .ascending (by decide) fits).1⟩

end WowDb.Storage.WriteBatch
