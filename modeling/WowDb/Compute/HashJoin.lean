import WowDb.Lib.Int64
import WowDb.Lib.Join
import WowDb.Lib.OrdMap

/-!
# Record batches and the hash join

`compute-node/src/executor/simd/hash_join.rs` and the selection of `simd/scan.rs`.
-/
namespace WowDb.Compute
open WowDb.Lib List

inductive Column (ν : Type) where
  | int64 (values : List (Option Int64))
  | other (values : List ν)

inductive Cell (ν : Type) where
  | int64 (value : Option Int64)
  | other (value : ν)
  deriving DecidableEq

namespace Column

variable {ν : Type}

def length : Column ν → Nat
  | int64 values => values.length
  | other values => values.length

def cell? : Column ν → Nat → Option (Cell ν)
  | int64 values, i => values[i]?.map .int64
  | other values, i => values[i]?.map .other

def take : Column ν → List UInt32 → Column ν
  | int64 values, indices => int64 (indices.filterMap fun i => values[i.toNat]?)
  | other values, indices => other (indices.filterMap fun i => values[i.toNat]?)

def takeArray (c : Column ν) (indices : List Nat) : Column ν := c.take (indices.map UInt32.ofNat)

theorem length_filterMap_getElem? {α : Type} (values : List α) (indices : List UInt32) :
    (indices.filterMap fun i => values[i.toNat]?).length =
      indices.countP fun i => decide (i.toNat < values.length) := by
  rw [length_filterMap_eq_countP]
  refine countP_congr fun i _ => ?_
  simp

theorem length_take (c : Column ν) (indices : List UInt32) :
    (c.take indices).length = indices.countP fun i => decide (i.toNat < c.length) := by
  cases c with
  | int64 values => exact length_filterMap_getElem? values indices
  | other values => exact length_filterMap_getElem? values indices

theorem getElem?_filterMap {α : Type} {values : List α} {indices : List UInt32}
    (inside : ∀ i ∈ indices, i.toNat < values.length) (j : Nat) :
    (indices.filterMap fun i => values[i.toNat]?)[j]? =
      indices[j]?.bind fun i => values[i.toNat]? := by
  induction indices generalizing j with
  | nil => simp
  | cons i rest ih =>
    obtain ⟨v, found⟩ : ∃ v, values[i.toNat]? = some v :=
      ⟨_, getElem?_eq_getElem (inside i (by simp))⟩
    rw [filterMap_cons, found]
    cases j with
    | zero => simp [found]
    | succ j => simpa using ih (fun k member => inside k (by simp [member])) j

theorem cell?_take {c : Column ν} {indices : List UInt32}
    (inside : ∀ i ∈ indices, i.toNat < c.length) (j : Nat) :
    (c.take indices).cell? j = indices[j]?.bind fun i => c.cell? i.toNat := by
  cases c with
  | int64 values =>
    simp only [take, cell?]
    rw [getElem?_filterMap inside, Option.map_bind]
    rfl
  | other values =>
    simp only [take, cell?]
    rw [getElem?_filterMap inside, Option.map_bind]
    rfl

end Column

structure Chunk (ν : Type) where
  arrays : List (Column ν)
  sameLength : ∀ a ∈ arrays, ∀ b ∈ arrays, a.length = b.length

namespace Chunk

variable {ν : Type}

def len (c : Chunk ν) : Nat := (c.arrays.head?.map Column.length).getD 0

variable {c : Chunk ν}

theorem length_eq_len {a : Column ν} (member : a ∈ c.arrays) : a.length = c.len := by
  have first := c.sameLength
  cases arrays : c.arrays with
  | nil => simp [arrays] at member
  | cons b rest =>
    rw [len, arrays]
    exact first a member b (by simp [arrays])

def row (c : Chunk ν) (i : Nat) : List (Option (Cell ν)) := c.arrays.map (·.cell? i)

def rows (c : Chunk ν) : List (List (Option (Cell ν))) := (range c.len).map c.row

def applySelection (c : Chunk ν) (indices : List Nat) : Chunk ν where
  arrays := c.arrays.map (·.takeArray indices)
  sameLength := by
    intro a selectedA b selectedB
    obtain ⟨a, inA, rfl⟩ := mem_map.mp selectedA
    obtain ⟨b, inB, rfl⟩ := mem_map.mp selectedB
    simp only [Column.takeArray, Column.length_take, c.sameLength a inA b inB]

variable {indices : List Nat}

theorem narrowed_inside {n : Nat} (inside : ∀ i ∈ indices, i < n) :
    ∀ i ∈ indices.map UInt32.ofNat, i.toNat < n := by
  intro i member
  obtain ⟨j, inIndices, rfl⟩ := mem_map.mp member
  rw [UInt32.toNat_ofNat']
  exact Nat.lt_of_le_of_lt (Nat.mod_le _ _) (inside j inIndices)

theorem length_takeArray (inside : ∀ i ∈ indices, i < c.len) {a : Column ν}
    (member : a ∈ c.arrays) : (a.takeArray indices).length = indices.length := by
  have all := narrowed_inside inside
  rw [← length_eq_len member] at all
  rw [Column.takeArray, Column.length_take, countP_eq_length.mpr fun i inside =>
    decide_eq_true (all i inside), length_map]

theorem len_applySelection (nonempty : c.arrays ≠ []) (inside : ∀ i ∈ indices, i < c.len) :
    (c.applySelection indices).len = indices.length := by
  obtain ⟨a, rest, arrays⟩ := exists_cons_of_ne_nil nonempty
  rw [← length_takeArray inside (a := a) (by simp [arrays])]
  simp [applySelection, len, arrays]

theorem row_applySelection (inside : ∀ i ∈ indices, i < c.len) {i j : Nat}
    (at_j : indices[j]? = some i) : (c.applySelection indices).row j = c.row (i % 2 ^ 32) := by
  have all := narrowed_inside inside
  simp only [row, applySelection, map_map]
  refine map_congr_left fun a member => ?_
  rw [← length_eq_len member] at all
  simp [Column.takeArray, Column.cell?_take all, at_j, UInt32.toNat_ofNat']

end Chunk

variable {ν : Type}

def extractI64Keys (batch : Chunk ν) (colIdx : Nat) : List (Option Int64) :=
  match batch.arrays[colIdx]? with
  | none => replicate batch.len none
  | some (.int64 values) => values
  | some (.other _) => replicate batch.len none

variable (batch : Chunk ν)

theorem length_extractI64Keys (colIdx : Nat) :
    (extractI64Keys batch colIdx).length = batch.len := by
  rw [extractI64Keys]
  split
  · simp
  · next values found => exact Chunk.length_eq_len (mem_of_getElem? found)
  · simp

def pushRow (table : OrdMap Int (List Nat)) (entry : Option Int64 × Nat) : OrdMap Int (List Nat) :=
  match entry.1 with
  | none => table
  | some k => table.insert k.toInt ((table.get? k.toInt).getD [] ++ [entry.2])

theorem get?_foldl_pushRow (entries : List (Option Int64 × Nat)) (table : OrdMap Int (List Nat))
    (k : Int64) :
    ((entries.foldl pushRow table).get? k.toInt).getD [] =
      (table.get? k.toInt).getD [] ++ (entries.filter (·.1 = some k)).map Prod.snd := by
  induction entries generalizing table with
  | nil => simp
  | cons e rest ih =>
    obtain ⟨key, i⟩ := e
    rw [foldl_cons, ih]
    cases key with
    | none => simp [pushRow]
    | some j =>
      simp only [pushRow, OrdMap.get?_insert, Int64.toInt_inj]
      by_cases same : k = j
      · subst same
        simp
      · have other : j ≠ k := fun equal => same equal.symm
        simp [same, other]

structure HashBuildTable (ν : Type) where
  table : OrdMap Int (List Nat)
  buildBatch : Chunk ν
  inside : ∀ k : Int64, ∀ i ∈ (table.get? k.toInt).getD [], i < buildBatch.len

def HashBuildTable.build (batch : Chunk ν) (keyCol : Nat) : HashBuildTable ν where
  table := (extractI64Keys batch keyCol).zipIdx.foldl pushRow .empty
  buildBatch := batch
  inside := by
    intro k i member
    rw [get?_foldl_pushRow] at member
    simp only [OrdMap.get?_empty, Option.getD_none, nil_append, mem_map,
      mem_filter] at member
    obtain ⟨⟨key, j⟩, ⟨entry, -⟩, rfl⟩ := member
    rw [← length_extractI64Keys batch keyCol]
    simpa using (mem_zipIdx' entry).1

def probePairs (build : HashBuildTable ν) (probeKeys : List (Option Int64)) : List (Nat × Nat) :=
  probeKeys.zipIdx.flatMap fun entry =>
    match entry.1 with
    | none => []
    | some k => ((build.table.get? k.toInt).getD []).map (·, entry.2)

theorem probePairs_inside (build : HashBuildTable ν) (probe : Chunk ν) (probeKeyCol : Nat) :
    ∀ pair ∈ probePairs build (extractI64Keys probe probeKeyCol),
      pair.1 < build.buildBatch.len ∧ pair.2 < probe.len := by
  intro pair member
  obtain ⟨⟨key, j⟩, entry, inRow⟩ := mem_flatMap.mp member
  cases key with
  | none => cases inRow
  | some k =>
    obtain ⟨i, inTable, rfl⟩ := mem_map.mp inRow
    refine ⟨build.inside k i inTable, ?_⟩
    rw [← length_extractI64Keys probe probeKeyCol]
    simpa using (mem_zipIdx' entry).1

def hashProbe (build : HashBuildTable ν) (probe : Chunk ν) (probeKeyCol : Nat) : Chunk ν :=
  let pairs := probePairs build (extractI64Keys probe probeKeyCol)
  { arrays := (build.buildBatch.applySelection (pairs.map Prod.fst)).arrays ++
      (probe.applySelection (pairs.map Prod.snd)).arrays
    sameLength := by
      have inside := probePairs_inside build probe probeKeyCol
      have left : ∀ a ∈ (build.buildBatch.applySelection (pairs.map Prod.fst)).arrays,
          a.length = pairs.length := by
        intro a member
        obtain ⟨c, inBuild, rfl⟩ := mem_map.mp member
        rw [Chunk.length_takeArray (by simpa using fun i j m => (inside (i, j) m).1) inBuild,
          length_map]
      have right : ∀ a ∈ (probe.applySelection (pairs.map Prod.snd)).arrays,
          a.length = pairs.length := by
        intro a member
        obtain ⟨c, inProbe, rfl⟩ := mem_map.mp member
        rw [Chunk.length_takeArray (by simpa using fun j i m => (inside (i, j) m).2) inProbe,
          length_map]
      have every : ∀ a ∈ (build.buildBatch.applySelection (pairs.map Prod.fst)).arrays ++
          (probe.applySelection (pairs.map Prod.snd)).arrays, a.length = pairs.length := by
        intro a member
        exact (mem_append.mp member).elim (left a) (right a)
      intro a inA b inB
      rw [every a inA, every b inB] }

def keyAt (batch : Chunk ν) (keyCol i : Nat) : Option Int64 := (extractI64Keys batch keyCol)[i]?.join

def keyed (batch : Chunk ν) (keyCol : Nat) : List (Option Int64 × List (Option (Cell ν))) :=
  (extractI64Keys batch keyCol).zipIdx.map fun e => (e.1, batch.row e.2)

theorem zipIdx_extractI64Keys (keyCol : Nat) :
    (extractI64Keys batch keyCol).zipIdx =
      (range batch.len).map fun i => (keyAt batch keyCol i, i) := by
  rw [← length_extractI64Keys batch keyCol]
  apply ext_getElem?
  intro i
  simp only [getElem?_map, getElem?_zipIdx, keyAt]
  by_cases inside : i < (extractI64Keys batch keyCol).length
  · simp [inside]
  · simp [inside]

theorem keyed_eq (keyCol : Nat) :
    keyed batch keyCol = (range batch.len).map fun i => (keyAt batch keyCol i, batch.row i) := by
  rw [keyed, zipIdx_extractI64Keys, map_map]
  rfl

def intAt (row : List (Option (Cell ν))) (col : Nat) : Option Int64 :=
  match row[col]? with
  | some (some (.int64 v)) => v
  | _ => none

theorem intAt_row (i col : Nat) : intAt (batch.row i) col =
      match batch.arrays[col]? with
      | some (.int64 values) => values[i]?.join
      | _ => none := by
  rw [intAt, Chunk.row, getElem?_map]
  cases batch.arrays[col]? with
  | none => rfl
  | some column =>
    cases column with
    | int64 values => cases found : values[i]? <;> simp [Column.cell?, found]
    | other values => cases found : values[i]? <;> simp [Column.cell?, found]

theorem keyAt_eq_intAt (keyCol i : Nat) : keyAt batch keyCol i = intAt (batch.row i) keyCol := by
  have null : (replicate batch.len (none : Option Int64))[i]?.join = none := by
    rw [getElem?_replicate]
    split <;> rfl
  rw [intAt_row, keyAt, extractI64Keys]
  cases batch.arrays[keyCol]? with
  | none => exact null
  | some column =>
    cases column with
    | int64 values => rfl
    | other values => exact null

def taken (indices : List Nat) : List Nat := (indices.map UInt32.ofNat).map UInt32.toNat

theorem taken_eq_map (indices : List Nat) : taken indices = indices.map (· % 2 ^ 32) := by
  simp [taken, UInt32.toNat_ofNat']

theorem taken_eq_self_iff {indices : List Nat} :
    taken indices = indices ↔ ∀ i ∈ indices, i < 2 ^ 32 := by
  rw [taken_eq_map]
  constructor
  · intro same i member
    have here : i % 2 ^ 32 = i :=
      map_inj_left.mp (same.trans (map_id indices).symm) i member
    omega
  · intro fits
    exact (map_congr_left fun i member => Nat.mod_eq_of_lt (fits i member)).trans
      (map_id indices)

theorem rows_applySelection {c : Chunk ν} {indices : List Nat} (inside : ∀ i ∈ indices, i < c.len) :
    (c.applySelection indices).rows = (taken indices).map c.row := by
  by_cases nonempty : c.arrays = []
  · have noRows : c.len = 0 := by simp [Chunk.len, nonempty]
    have nothing : indices = [] := by
      rw [eq_nil_iff_forall_not_mem]
      intro i member
      have := inside i member
      omega
    simp [nothing, taken, Chunk.rows, Chunk.len, Chunk.applySelection, nonempty]
  · apply ext_getElem?
    intro j
    rw [Chunk.rows, Chunk.len_applySelection nonempty inside, taken_eq_map]
    cases found : indices[j]? with
    | none => simp [List.getElem?_eq_none_iff.mp found]
    | some i =>
      have bound := (List.getElem?_eq_some_iff.mp found).1
      simp only [getElem?_map, getElem?_range bound, Option.map_some, found]
      rw [Chunk.row_applySelection inside found]

def relationalJoin (build probe : Chunk ν) (buildKeyCol probeKeyCol : Nat) :
    List (List (Option (Cell ν))) :=
  (join Prod.fst Prod.fst (keyed build buildKeyCol) (keyed probe probeKeyCol)).map fun m =>
    m.1.2 ++ m.2.2

theorem probePairs_eq_join (build : Chunk ν) (keyCol : Nat) (probeKeys : List (Option Int64)) :
    probePairs (.build build keyCol) probeKeys =
      (join Prod.fst Prod.fst (extractI64Keys build keyCol).zipIdx probeKeys.zipIdx).map
        fun m => (m.1.2, m.2.2) := by
  simp only [probePairs, join, map_flatMap, map_map]
  refine flatMap_congr fun entry _ => ?_
  obtain ⟨key, j⟩ := entry
  cases key with
  | none => simp [keysMatch]
  | some k =>
    simp only [HashBuildTable.build, get?_foldl_pushRow, OrdMap.get?_empty, Option.getD_none,
      nil_append, map_map]
    have same : ∀ e : Option Int64 × Nat,
        keysMatch Prod.fst Prod.fst e (some k, j) = decide (e.1 = some k) := by
      rintro ⟨_ | _, _⟩ <;> simp [keysMatch]
    simp only [same]
    rfl

theorem row_of_small {c : Chunk ν} (small : c.len ≤ 2 ^ 32) {indices : List Nat}
    (inside : ∀ i ∈ indices, i < c.len) {i j : Nat} (at_j : indices[j]? = some i) :
    (c.applySelection indices).row j = c.row i := by
  have bound : i < 2 ^ 32 := Nat.lt_of_lt_of_le (inside i (mem_of_getElem? at_j)) small
  rw [Chunk.row_applySelection inside at_j, Nat.mod_eq_of_lt bound]

theorem arrays_hashProbe (build : HashBuildTable ν) (probe : Chunk ν) (probeKeyCol : Nat) :
    (hashProbe build probe probeKeyCol).arrays = (build.buildBatch.applySelection
        ((probePairs build (extractI64Keys probe probeKeyCol)).map Prod.fst)).arrays ++
      (probe.applySelection
        ((probePairs build (extractI64Keys probe probeKeyCol)).map Prod.snd)).arrays := rfl

theorem rows_hashProbe_narrowed {build : HashBuildTable ν} (probe : Chunk ν) (probeKeyCol : Nat)
    (nonempty : build.buildBatch.arrays ≠ []) :
    (hashProbe build probe probeKeyCol).rows =
      (probePairs build (extractI64Keys probe probeKeyCol)).map fun m =>
        build.buildBatch.row (m.1 % 2 ^ 32) ++ probe.row (m.2 % 2 ^ 32) := by
  have inside := probePairs_inside build probe probeKeyCol
  have arrays := arrays_hashProbe build probe probeKeyCol
  generalize probePairs build (extractI64Keys probe probeKeyCol) = pairs at inside arrays ⊢
  have insideBuild : ∀ i ∈ pairs.map Prod.fst, i < build.buildBatch.len := by
    simpa using fun i j m => (inside (i, j) m).1
  have insideProbe : ∀ j ∈ pairs.map Prod.snd, j < probe.len := by
    simpa using fun j i m => (inside (i, j) m).2
  have length : (hashProbe build probe probeKeyCol).len = pairs.length := by
    have left := Chunk.len_applySelection nonempty insideBuild
    obtain ⟨a, rest, first⟩ := exists_cons_of_ne_nil nonempty
    rw [length_map] at left
    rw [← left, Chunk.len, arrays]
    simp [Chunk.len, Chunk.applySelection, first]
  apply ext_getElem?
  intro j
  rw [Chunk.rows, length]
  cases found : pairs[j]? with
  | none => simp [List.getElem?_eq_none_iff.mp found]
  | some m =>
    have left := Chunk.row_applySelection insideBuild (i := m.1) (j := j) (by simp [found])
    have right := Chunk.row_applySelection insideProbe (i := m.2) (j := j) (by simp [found])
    have bound := (List.getElem?_eq_some_iff.mp found).1
    simp only [getElem?_map, found, Option.map_some, getElem?_range bound]
    rw [← left, ← right]
    simp only [Chunk.row, arrays, map_append]

variable {probe : Chunk ν}

theorem rows_hashProbe_pairs {build : HashBuildTable ν} (probeKeyCol : Nat)
    (nonempty : build.buildBatch.arrays ≠ []) (smallBuild : build.buildBatch.len ≤ 2 ^ 32)
    (smallProbe : probe.len ≤ 2 ^ 32) :
    (hashProbe build probe probeKeyCol).rows =
      (probePairs build (extractI64Keys probe probeKeyCol)).map fun m =>
        build.buildBatch.row m.1 ++ probe.row m.2 := by
  rw [rows_hashProbe_narrowed probe probeKeyCol nonempty]
  refine map_congr_left fun m member => ?_
  have inside := probePairs_inside build probe probeKeyCol m member
  rw [Nat.mod_eq_of_lt (Nat.lt_of_lt_of_le inside.1 smallBuild),
    Nat.mod_eq_of_lt (Nat.lt_of_lt_of_le inside.2 smallProbe)]

def HashBuildTable.bucket (build : HashBuildTable ν) : Option Int64 → List Nat
  | none => []
  | some k => (build.table.get? k.toInt).getD []

theorem rows_hashProbe_flatMap {build : HashBuildTable ν} (probe : Chunk ν) (probeKeyCol : Nat)
    (nonempty : build.buildBatch.arrays ≠ []) :
    (hashProbe build probe probeKeyCol).rows = (range probe.len).flatMap fun i =>
        (build.bucket (intAt (probe.row i) probeKeyCol)).map fun b =>
          build.buildBatch.row (b % 2 ^ 32) ++ probe.row (i % 2 ^ 32) := by
  rw [rows_hashProbe_narrowed probe probeKeyCol nonempty, probePairs, zipIdx_extractI64Keys,
    flatMap_map, map_flatMap]
  refine flatMap_congr fun i _ => ?_
  rw [← keyAt_eq_intAt]
  cases keyAt probe probeKeyCol i with
  | none => rfl
  | some k => simp [HashBuildTable.bucket]

theorem rows_hashProbe_of_small {build : HashBuildTable ν} (probeKeyCol : Nat)
    (nonempty : build.buildBatch.arrays ≠ []) (small : probe.len ≤ 2 ^ 32) :
    (hashProbe build probe probeKeyCol).rows = probe.rows.flatMap fun r =>
        (build.bucket (intAt r probeKeyCol)).map fun b =>
          build.buildBatch.row (b % 2 ^ 32) ++ r := by
  rw [rows_hashProbe_flatMap probe probeKeyCol nonempty, Chunk.rows, flatMap_map]
  refine flatMap_congr fun i member => ?_
  rw [Nat.mod_eq_of_lt (Nat.lt_of_lt_of_le (mem_range.mp member) small)]

theorem rows_hashProbe {build : Chunk ν} (buildKeyCol probeKeyCol : Nat)
    (nonempty : build.arrays ≠ []) (smallBuild : build.len ≤ 2 ^ 32)
    (smallProbe : probe.len ≤ 2 ^ 32) :
    (hashProbe (.build build buildKeyCol) probe probeKeyCol).rows =
      relationalJoin build probe buildKeyCol probeKeyCol := by
  have pairs : (hashProbe (.build build buildKeyCol) probe probeKeyCol).rows = _ :=
    rows_hashProbe_pairs probeKeyCol nonempty smallBuild smallProbe
  rw [pairs, probePairs_eq_join, relationalJoin, keyed, keyed, join_map, map_map, map_map]
  rfl

end WowDb.Compute
