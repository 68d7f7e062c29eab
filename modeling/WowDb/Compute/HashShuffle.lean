import WowDb.Compute.HashJoin

/-!
# The shuffled join

`partition_batch` of `compute-node/src/shuffle.rs` before the hash join: every batch is partitioned
by the key and the partitions are joined one by one. Row numbers are taken `as u32`, as in the source.
-/
namespace WowDb.Compute
open WowDb.Lib List

variable {ν : Type}

def rowPartition (batch : Chunk ν) (keyCol nPartitions row : Nat) : Nat :=
  match batch.arrays[keyCol]? with
  | some (.int64 values) =>
    match values[row]?.join with
    | some k => k.toInt.natAbs % nPartitions
    | none => 0
  | _ => 0

def partitionIndices (batch : Chunk ν) (keyCol nPartitions : Nat) : List (List Nat) :=
  (range batch.len).foldl
    (fun parts row => parts.modify (rowPartition batch keyCol nPartitions row) (· ++ [row]))
    (replicate nPartitions [])

def partitionBatch (batch : Chunk ν) (keyCol nPartitions : Nat) : List (Chunk ν) :=
  if nPartitions = 0 then [batch]
  else (partitionIndices batch keyCol nPartitions).map batch.applySelection

def takenRows (batch : Chunk ν) (keyCol nPartitions : Nat) : List (List UInt32) :=
  (partitionIndices batch keyCol nPartitions).map (·.map UInt32.ofNat)

def shuffledJoin (build probe : Chunk ν) (buildKeyCol probeKeyCol nPartitions : Nat) :
    List (List (Option (Cell ν))) :=
  (zipWith (fun b p => (hashProbe (.build b buildKeyCol) p probeKeyCol).rows)
    (partitionBatch build buildKeyCol nPartitions)
    (partitionBatch probe probeKeyCol nPartitions)).flatten

/-- Every row is taken once, and the partitions join as relations. -/
structure JoinsAsRelation (build probe : Chunk ν) (buildKeyCol probeKeyCol nPartitions : Nat) :
    Prop where
  buildOnce : ((takenRows build buildKeyCol nPartitions).flatten.map UInt32.toNat).Perm
    (range build.len)
  probeOnce : ((takenRows probe probeKeyCol nPartitions).flatten.map UInt32.toNat).Perm
    (range probe.len)
  joined : (shuffledJoin build probe buildKeyCol probeKeyCol nPartitions).Perm
    (relationalJoin build probe buildKeyCol probeKeyCol)

def keyPartition (nPartitions : Nat) : Option Int64 → Nat
  | some k => k.toInt.natAbs % nPartitions
  | none => 0

variable {nPartitions : Nat}

theorem keyPartition_lt (positive : 0 < nPartitions) (key : Option Int64) :
    keyPartition nPartitions key < nPartitions := by
  cases key with
  | none => exact positive
  | some k => exact Nat.mod_lt _ positive

variable (batch : Chunk ν)

theorem rowPartition_eq (keyCol nPartitions row : Nat) :
    rowPartition batch keyCol nPartitions row =
      keyPartition nPartitions (keyAt batch keyCol row) := by
  rw [rowPartition, keyAt, extractI64Keys]
  split
  · next values found =>
    simp only [found]
    cases values[row]?.join <;> rfl
  · next other =>
    have null : ∀ n : Nat, (replicate n (none : Option Int64))[row]?.join = none := by
      intro n
      rw [getElem?_replicate]
      split <;> rfl
    split
    · rw [null]; rfl
    · next values found => exact absurd found (other values)
    · rw [null]; rfl

theorem modify_map_range {α : Type} (n i : Nat) (g : Nat → α) (f : α → α) :
    ((range n).map g).modify i f =
      (range n).map fun p => if i = p then f (g p) else g p := by
  apply ext_getElem?
  intro p
  simp only [getElem?_modify, getElem?_map]
  by_cases inside : p < n
  · by_cases here : i = p <;> simp [getElem?_range inside, here]
  · have beyond : (range n)[p]? = none := by simpa using inside
    simp [beyond]

theorem foldl_modify_push (part : Nat → Nat) (n : Nat) (rows : List Nat) (g : Nat → List Nat) :
    rows.foldl (fun parts row => parts.modify (part row) (· ++ [row])) ((range n).map g) =
      (range n).map fun p => g p ++ rows.filter (part · = p) := by
  induction rows generalizing g with
  | nil => simp
  | cons row rest ih =>
    rw [foldl_cons, modify_map_range, ih]
    refine map_congr_left fun p _ => ?_
    by_cases here : part row = p <;> simp [here]

theorem partitionIndices_eq (keyCol nPartitions : Nat) :
    partitionIndices batch keyCol nPartitions = (range nPartitions).map fun p =>
      (range batch.len).filter fun i =>
        keyPartition nPartitions (keyAt batch keyCol i) = p := by
  have start : replicate nPartitions ([] : List Nat) =
      (range nPartitions).map fun _ => [] := by simp
  rw [partitionIndices, start, foldl_modify_push]
  simp only [rowPartition_eq, nil_append]

theorem partitionIndices_perm (keyCol : Nat) (positive : 0 < nPartitions) :
    (partitionIndices batch keyCol nPartitions).flatten.Perm (range batch.len) := by
  rw [partitionIndices_eq, ← flatMap_def]
  exact parts_perm (fun i => keyPartition nPartitions (keyAt batch keyCol i)) fun i _ =>
    keyPartition_lt positive _

theorem takenRows_perm_iff (keyCol : Nat) (positive : 0 < nPartitions) :
    ((takenRows batch keyCol nPartitions).flatten.map UInt32.toNat).Perm
      (range batch.len) ↔ batch.len ≤ 2 ^ 32 := by
  have narrowed : (takenRows batch keyCol nPartitions).flatten.map UInt32.toNat =
      (partitionIndices batch keyCol nPartitions).flatten.map (· % 2 ^ 32) := by
    simp [takenRows, ← map_flatten, Function.comp_def, UInt32.toNat_ofNat']
  have perm := partitionIndices_perm batch keyCol positive
  rw [narrowed]
  constructor
  · intro once
    by_contra large
    -- row number 2^32 is among the rows of the batch, and no remainder reaches it
    have member := once.mem_iff.mpr (mem_range.mpr (Nat.lt_of_not_le large))
    obtain ⟨i, -, same⟩ := mem_map.mp member
    have small := Nat.mod_lt i (show 0 < 2 ^ 32 by decide)
    omega
  · intro small
    have kept : (partitionIndices batch keyCol nPartitions).flatten.map (· % 2 ^ 32) =
        (partitionIndices batch keyCol nPartitions).flatten := by
      conv_rhs => rw [← map_id (partitionIndices batch keyCol nPartitions).flatten]
      refine map_congr_left fun i member => Nat.mod_eq_of_lt ?_
      exact Nat.lt_of_lt_of_le (mem_range.mp (perm.mem_iff.mp member)) small
    rw [kept]
    exact perm

variable {c : Chunk ν} {keyCol : Nat} {values : List (Option Int64)}

variable (keyColumn : c.arrays[keyCol]? = some (.int64 values))

include keyColumn

theorem extractI64Keys_applySelection
    {indices : List Nat} (inside : ∀ i ∈ indices, i < c.len) (fits : ∀ i ∈ indices, i < 2 ^ 32) :
    extractI64Keys (c.applySelection indices) keyCol = indices.map (keyAt c keyCol) := by
  have length : values.length = c.len := Chunk.length_eq_len (mem_of_getElem? keyColumn)
  have keys : extractI64Keys c keyCol = values := by simp only [extractI64Keys, keyColumn]
  have selected : (c.applySelection indices).arrays[keyCol]? =
      some ((Column.int64 values : Column ν).takeArray indices) := by
    simp [Chunk.applySelection, keyColumn]
  simp only [extractI64Keys, selected, Column.takeArray, Column.take]
  have narrowed := Chunk.narrowed_inside inside
  rw [← length] at narrowed
  apply ext_getElem?
  intro j
  rw [Column.getElem?_filterMap narrowed]
  cases found : indices[j]? with
  | none => simp [found]
  | some i =>
    have bound := inside i (mem_of_getElem? found)
    have modulus : i % 2 ^ 32 = i := Nat.mod_eq_of_lt (fits i (mem_of_getElem? found))
    rw [← length] at bound
    simp only [getElem?_map, found, Option.map_some, Option.bind_some,
      UInt32.toNat_ofNat', modulus, keyAt, keys, getElem?_eq_getElem bound, Option.join_some]

theorem keyed_applySelection
    (small : c.len ≤ 2 ^ 32) {indices : List Nat} (inside : ∀ i ∈ indices, i < c.len) :
    keyed (c.applySelection indices) keyCol = indices.map fun i => (keyAt c keyCol i, c.row i) := by
  rw [keyed, extractI64Keys_applySelection keyColumn inside fun i member =>
    Nat.lt_of_lt_of_le (inside i member) small]
  apply ext_getElem?
  intro j
  simp only [getElem?_map, getElem?_zipIdx]
  cases found : indices[j]? with
  | none => rfl
  | some i => simp [row_of_small small inside found]

theorem keyed_partition (small : c.len ≤ 2 ^ 32) (nPartitions p : Nat) :
    keyed (c.applySelection ((range c.len).filter fun i =>
        keyPartition nPartitions (keyAt c keyCol i) = p)) keyCol =
      (keyed c keyCol).filter fun e => keyPartition nPartitions e.1 = p := by
  rw [keyed_applySelection keyColumn small, keyed_eq, filter_map]
  · rfl
  · intro i member
    exact mem_range.mp (mem_filter.mp member).1

omit keyColumn

theorem len_le_of_filter (nonempty : c.arrays ≠ []) (keep : Nat → Bool) :
    (c.applySelection ((range c.len).filter keep)).len ≤ c.len := by
  rw [Chunk.len_applySelection nonempty fun i member =>
    mem_range.mp (mem_filter.mp member).1]
  simpa using length_filter_le keep (range c.len)

theorem shuffledJoin_perm {build probe : Chunk ν} {buildKeyCol probeKeyCol : Nat}
    {buildKeys probeKeys : List (Option Int64)}
    (buildColumn : build.arrays[buildKeyCol]? = some (.int64 buildKeys))
    (probeColumn : probe.arrays[probeKeyCol]? = some (.int64 probeKeys))
    (positive : 0 < nPartitions) (smallBuild : build.len ≤ 2 ^ 32)
    (smallProbe : probe.len ≤ 2 ^ 32) :
    (shuffledJoin build probe buildKeyCol probeKeyCol nPartitions).Perm
      (relationalJoin build probe buildKeyCol probeKeyCol) := by
  have nonemptyBuild : build.arrays ≠ [] := ne_nil_of_mem (mem_of_getElem? buildColumn)
  have nonemptyProbe : probe.arrays ≠ [] := ne_nil_of_mem (mem_of_getElem? probeColumn)
  -- partition by partition, the probe gives the join of the rows that went there
  have parts : shuffledJoin build probe buildKeyCol probeKeyCol nPartitions =
      ((range nPartitions).flatMap fun p => join Prod.fst Prod.fst
        ((keyed build buildKeyCol).filter fun e => keyPartition nPartitions e.1 = p)
        ((keyed probe probeKeyCol).filter fun e => keyPartition nPartitions e.1 = p)).map
          fun m => m.1.2 ++ m.2.2 := by
    have nonzero : nPartitions ≠ 0 := Nat.ne_of_gt positive
    rw [shuffledJoin, partitionBatch, partitionBatch, if_neg nonzero, if_neg nonzero,
      partitionIndices_eq, partitionIndices_eq, map_map, map_map, zipWith_map,
      zipWith_self, map_flatMap, flatMap_def]
    congr 1
    refine map_congr_left fun p _ => ?_
    simp only [Function.comp_apply]
    rw [rows_hashProbe buildKeyCol probeKeyCol
        (by simpa [Chunk.applySelection] using nonemptyBuild)
        (Nat.le_trans (len_le_of_filter nonemptyBuild _) smallBuild)
        (Nat.le_trans (len_le_of_filter nonemptyProbe _) smallProbe),
      relationalJoin, keyed_partition buildColumn smallBuild,
      keyed_partition probeColumn smallProbe]
  rw [parts, relationalJoin]
  exact (join_parts_perm _ _ (keyPartition nPartitions) _ _ fun _ _ =>
    keyPartition_lt positive _).map _

/-- Exactly when the row numbers fit 32 bits. -/
theorem joinsAsRelation_iff {build probe : Chunk ν} {buildKeyCol probeKeyCol nPartitions : Nat}
    {buildKeys probeKeys : List (Option Int64)}
    (buildColumn : build.arrays[buildKeyCol]? = some (.int64 buildKeys))
    (probeColumn : probe.arrays[probeKeyCol]? = some (.int64 probeKeys))
    (positive : 1 ≤ nPartitions) :
    JoinsAsRelation build probe buildKeyCol probeKeyCol nPartitions ↔
      build.len ≤ 2 ^ 32 ∧ probe.len ≤ 2 ^ 32 := by
  constructor
  · intro joins
    exact ⟨(takenRows_perm_iff build buildKeyCol positive).mp joins.buildOnce,
      (takenRows_perm_iff probe probeKeyCol positive).mp joins.probeOnce⟩
  · rintro ⟨smallBuild, smallProbe⟩
    exact ⟨(takenRows_perm_iff build buildKeyCol positive).mpr smallBuild,
      (takenRows_perm_iff probe probeKeyCol positive).mpr smallProbe,
      shuffledJoin_perm buildColumn probeColumn positive smallBuild smallProbe⟩

def intChunk (values : List (Option Int64)) : Chunk String where
  arrays := [.int64 values]
  sameLength := by simp

theorem joinsAsRelation_three_partitions :
    JoinsAsRelation (intChunk [some (-9223372036854775808), none, some 4, some (-4), some 4])
      (intChunk [some 4, some (-9223372036854775808), none]) 0 0 3 := by
  have keys (values : List (Option Int64)) :
      (intChunk values).arrays[0]? = some (.int64 values) := rfl
  exact (joinsAsRelation_iff (keys _) (keys _) (by decide)).mpr (by decide)

theorem probePairs_of_null {build : Chunk ν}
    (null : ∀ key ∈ extractI64Keys build keyCol, key = none) (probeKeys : List (Option Int64)) :
    probePairs (.build build keyCol) probeKeys = [] := by
  rw [probePairs_eq_join, map_eq_nil_iff, eq_nil_iff_forall_not_mem]
  rintro ⟨⟨key, i⟩, entry⟩ member
  obtain ⟨inBuild, -, same⟩ := (mem_join _ _).mp member
  obtain rfl := null key (fst_mem_of_mem_zipIdx inBuild)
  cases same

theorem rows_hashProbe_of_nil {build : HashBuildTable ν} {probe : Chunk ν} {probeKeyCol : Nat}
    (nothing : probePairs build (extractI64Keys probe probeKeyCol) = []) :
    (hashProbe build probe probeKeyCol).rows = [] := by
  have arrays := arrays_hashProbe build probe probeKeyCol
  rw [nothing] at arrays
  have empty : (hashProbe build probe probeKeyCol).len = 0 := by
    simp only [Chunk.len, arrays, Chunk.applySelection, head?_append, head?_map]
    cases build.buildBatch.arrays.head? <;> cases probe.arrays.head? <;>
      simp [Column.takeArray, Column.length_take]
  rw [Chunk.rows, empty]
  rfl

theorem null_of_narrowed (null : ∀ i < 2 ^ 32, ∀ key, values[i]? = some key → key = none)
    (indices : List Nat) :
    ∀ key ∈ extractI64Keys ((intChunk values).applySelection indices) 0, key = none := by
  intro key member
  have keys : extractI64Keys ((intChunk values).applySelection indices) 0 =
      (indices.map UInt32.ofNat).filterMap fun i => values[i.toNat]? := rfl
  rw [keys] at member
  obtain ⟨i, -, found⟩ := mem_filterMap.mp member
  exact null i.toNat i.toNat_lt key found

def lateKey (n : Nat) : List (Option Int64) := replicate n none ++ [some 7]

theorem lateKey_null {n : Nat} (large : 2 ^ 32 ≤ n) :
    ∀ i < 2 ^ 32, ∀ key, (lateKey n)[i]? = some key → key = none := by
  intro i small key found
  rw [lateKey, getElem?_append_left (by simpa using by omega), getElem?_replicate] at found
  simpa [show i < n by omega] using found.symm

theorem keyAt_lateKey (n : Nat) : keyAt (intChunk (lateKey n)) 0 n = some 7 := by
  simp [keyAt, extractI64Keys, intChunk, lateKey]

theorem shuffledJoin_lateKey {n : Nat} (large : 2 ^ 32 ≤ n) (probe : Chunk String) :
    shuffledJoin (intChunk (lateKey n)) probe 0 0 1 = [] := by
  have null := lateKey_null large
  have rows : ∀ indices p, (hashProbe (.build ((intChunk (lateKey n)).applySelection indices) 0)
      p 0).rows = [] := fun indices p =>
    rows_hashProbe_of_nil (probePairs_of_null (null_of_narrowed null indices) _)
  simp [shuffledJoin, partitionBatch, partitionIndices_eq, rows]

theorem relationalJoin_lateKey (n : Nat) :
    relationalJoin (intChunk (lateKey n)) (intChunk [some 7]) 0 0 ≠ [] := by
  have last : ((some 7 : Option Int64), (intChunk (lateKey n)).row n) ∈
      keyed (intChunk (lateKey n)) 0 := by
    rw [keyed_eq, mem_map]
    exact ⟨n, by simp [Chunk.len, intChunk, Column.length, lateKey], Prod.ext (keyAt_lateKey n) rfl⟩
  have only : ((some 7 : Option Int64), (intChunk [some 7]).row 0) ∈
      keyed (intChunk [some 7]) 0 := by
    simp [keyed, extractI64Keys, intChunk]
  have pair : (((some 7 : Option Int64), (intChunk (lateKey n)).row n),
      ((some 7 : Option Int64), (intChunk [some 7]).row 0)) ∈
      join Prod.fst Prod.fst (keyed (intChunk (lateKey n)) 0) (keyed (intChunk [some 7]) 0) :=
    (mem_join _ _).mpr ⟨last, only, rfl⟩
  exact ne_nil_of_mem (mem_map_of_mem pair)

theorem narrowed_row_lost :
    shuffledJoin (intChunk (lateKey (2 ^ 32))) (intChunk [some 7]) 0 0 1 = [] ∧
    ¬ JoinsAsRelation (intChunk (lateKey (2 ^ 32))) (intChunk [some 7]) 0 0 1 := by
  have nothing := shuffledJoin_lateKey (Nat.le_refl (2 ^ 32)) (intChunk [some 7])
  refine ⟨nothing, fun joins => ?_⟩
  have perm := joins.joined
  rw [nothing] at perm
  exact relationalJoin_lateKey (2 ^ 32) perm.nil_eq.symm

end WowDb.Compute
