import WowDb.Compute.HashShuffle

/-!
# Runtime filters

`compute-node/src/runtime_filter.rs`: what a filter built from the build keys drops on the probe side. Bloom filters
pass everything.
-/
namespace WowDb.Compute
open WowDb.Lib List

inductive RuntimeFilter where
  | bloom (column : String) (bloomData : Bytes)
  | inList (column : String) (values : List Int64)
  | minMax (column : String) (min max : Int64)

def RuntimeFilter.testI64 : RuntimeFilter → Int64 → Bool
  | inList _ values, val => values.contains val
  | minMax _ min max, val => decide (val ≥ min) && decide (val ≤ max)
  | bloom _ _, _ => true

structure RuntimeFilterBuilder where
  column : String
  values : List Int64
  min : Option Int64
  max : Option Int64
  maxInlist : Nat
  isLeast : min = values.min?
  isGreatest : max = values.max?

namespace RuntimeFilterBuilder

def new (column : String) (maxInlist : Nat) : RuntimeFilterBuilder where
  column := column
  values := []
  min := none
  max := none
  maxInlist := maxInlist
  isLeast := rfl
  isGreatest := rfl

def addValue (b : RuntimeFilterBuilder) (val : Int64) : RuntimeFilterBuilder where
  column := b.column
  values := b.values ++ [val]
  min := some (leastWith b.min val)
  max := some (greatestWith b.max val)
  maxInlist := b.maxInlist
  isLeast := by rw [min?_append_singleton, ← b.isLeast]
  isGreatest := by rw [max?_append_singleton, ← b.isGreatest]

def sortedValues (b : RuntimeFilterBuilder) : List Int64 :=
  (b.values.insertionSort (· ≤ ·)).destutter (· ≠ ·)

def build (b : RuntimeFilterBuilder) : Option RuntimeFilter :=
  if b.values.isEmpty then none
  else
    let ndv := b.sortedValues.length
    if ndv ≤ b.maxInlist then some (.inList b.column b.sortedValues)
    else some (.minMax b.column (b.min.getD Int64.minValue) (b.max.getD Int64.maxValue))

end RuntimeFilterBuilder

def applyRuntimeFilterI64 (values : List (Option Int64)) (filter : RuntimeFilter) : List Nat :=
  values.zipIdx.filterMap fun e =>
    (e.1.map fun val => if filter.testI64 val then some e.2 else none).join

def Accepts (values : List Int64) (maxInlist : Nat) (k : Int64) : Prop :=
  if values.dedup.length ≤ maxInlist then k ∈ values
  else ∃ least ∈ values, ∃ greatest ∈ values, least ≤ k ∧ k ≤ greatest

theorem accepts_of_mem {values : List Int64} {k : Int64} (maxInlist : Nat) (member : k ∈ values) :
    Accepts values maxInlist k := by
  unfold Accepts
  split
  · exact member
  · exact ⟨k, member, k, member, le_refl k, le_refl k⟩

namespace RuntimeFilterBuilder

variable {b : RuntimeFilterBuilder}

theorem build_ne_none (nonempty : b.values ≠ []) : b.build ≠ none := by
  rw [build, if_neg (by simpa using nonempty)]
  dsimp only
  split
  · exact Option.some_ne_none _
  · exact Option.some_ne_none _

theorem sortedValues_eq (b : RuntimeFilterBuilder) :
    b.sortedValues = (b.values.insertionSort (· ≤ ·)).dedup :=
  (pairwise_insertionSort _ _).destutter_eq_dedup

theorem testI64_build {filter : RuntimeFilter} (built : b.build = some filter) (k : Int64) :
    filter.testI64 k = true ↔ Accepts b.values b.maxInlist k := by
  have few : b.sortedValues.length = b.values.dedup.length := by
    rw [sortedValues_eq]
    exact (perm_insertionSort _ _).dedup.length_eq
  unfold build at built
  split at built
  · cases built
  next nonempty =>
    dsimp only at built
    rw [few] at built
    unfold Accepts
    split at built
    next fits =>
      cases built
      rw [if_pos fits]
      simp only [RuntimeFilter.testI64, contains_iff_mem, sortedValues_eq, mem_dedup,
        mem_insertionSort]
    next many =>
      cases built
      rw [if_neg many]
      have some_value : b.values ≠ [] := by simpa using nonempty
      obtain ⟨least, isLeast⟩ := Option.ne_none_iff_exists'.mp
        (mt min?_eq_none_iff.mp some_value)
      obtain ⟨greatest, isGreatest⟩ := Option.ne_none_iff_exists'.mp
        (mt max?_eq_none_iff.mp some_value)
      obtain ⟨inLeast, below⟩ := min?_eq_some_iff.mp isLeast
      obtain ⟨inGreatest, above⟩ := max?_eq_some_iff.mp isGreatest
      simp only [RuntimeFilter.testI64, b.isLeast, b.isGreatest, isLeast, isGreatest,
        Option.getD_some, Bool.and_eq_true, decide_eq_true_eq]
      constructor
      · intro between
        exact ⟨least, inLeast, greatest, inGreatest, between⟩
      · intro ⟨lower, inLower, upper, inUpper, between⟩
        exact ⟨le_trans (below lower inLower) between.1, le_trans between.2 (above upper inUpper)⟩

def fed (column : String) (maxInlist : Nat) (values : List Int64) : RuntimeFilterBuilder :=
  values.foldl addValue (new column maxInlist)

theorem foldl_addValue (values : List Int64) (b : RuntimeFilterBuilder) :
    (values.foldl addValue b).values = b.values ++ values ∧
      (values.foldl addValue b).maxInlist = b.maxInlist := by
  induction values generalizing b with
  | nil => simp
  | cons v rest ih =>
    rw [foldl_cons]
    obtain ⟨kept, limit⟩ := ih (b.addValue v)
    exact ⟨by rw [kept]; simp [addValue], limit⟩

end RuntimeFilterBuilder

section Join

variable {ν : Type} (build probe : Chunk ν) (buildKeyCol probeKeyCol : Nat)

def buildKeys : List Int64 := (extractI64Keys build buildKeyCol).filterMap id

def keptRows (filter : RuntimeFilter) : List Nat :=
  applyRuntimeFilterI64 (extractI64Keys probe probeKeyCol) filter

structure JoinUnchanged (filter : RuntimeFilter) : Prop where
  kept : taken (keptRows probe probeKeyCol filter) = keptRows probe probeKeyCol filter
  joined : (hashProbe (.build build buildKeyCol)
      (probe.applySelection (keptRows probe probeKeyCol filter)) probeKeyCol).rows.Perm
    (hashProbe (.build build buildKeyCol) probe probeKeyCol).rows

def FilterTransparent (column : String) (maxInlist : Nat) : Prop :=
  ∀ filter, (RuntimeFilterBuilder.fed column maxInlist (buildKeys build buildKeyCol)).build =
    some filter → JoinUnchanged build probe buildKeyCol probeKeyCol filter

variable {build probe buildKeyCol probeKeyCol}

theorem keptRows_eq (filter : RuntimeFilter) : keptRows probe probeKeyCol filter =
      (range probe.len).filter fun i =>
        (intAt (probe.row i) probeKeyCol).any filter.testI64 := by
  have one : ∀ (key : Option Int64) (i : Nat),
      (key.map fun val => if filter.testI64 val then some i else none).join =
        if key.any filter.testI64 then some i else none := by
    intro key i
    cases key with
    | none => rfl
    | some k => rfl
  rw [keptRows, applyRuntimeFilterI64, zipIdx_extractI64Keys, filterMap_map,
    ← filterMap_eq_filter]
  refine filterMap_congr fun i _ => ?_
  rw [Function.comp_apply, one, keyAt_eq_intAt]
  rfl

variable {filter : RuntimeFilter}

theorem mem_keptRows {i : Nat} : i ∈ keptRows probe probeKeyCol filter ↔
      i < probe.len ∧ ∃ k, keyAt probe probeKeyCol i = some k ∧ filter.testI64 k = true := by
  rw [keptRows_eq, mem_filter, mem_range, Option.any_eq_true, keyAt_eq_intAt]

theorem keyAt_some_lt {i : Nat} {k : Int64} (found : keyAt probe probeKeyCol i = some k) :
    i < probe.len := by
  rw [keyAt, Option.join_eq_some_iff] at found
  rw [← length_extractI64Keys probe probeKeyCol]
  exact (List.getElem?_eq_some_iff.mp found).1

theorem mem_buildKeys_of_bucket {k : Int64}
    (nonempty : (HashBuildTable.build build buildKeyCol).bucket (some k) ≠ []) :
    k ∈ buildKeys build buildKeyCol := by
  obtain ⟨row, member⟩ := exists_mem_of_ne_nil _ nonempty
  simp only [HashBuildTable.bucket, HashBuildTable.build, get?_foldl_pushRow, OrdMap.get?_empty,
    Option.getD_none, nil_append, mem_map, mem_filter] at member
  obtain ⟨⟨key, i⟩, ⟨entry, same⟩, -⟩ := member
  obtain rfl : key = some k := by simpa using same
  exact mem_filterMap.mpr ⟨some k, fst_mem_of_mem_zipIdx entry, rfl⟩

theorem length_le_of_nodup {n : Nat} {indices : List Nat} (distinct : indices.Nodup)
    (below : ∀ i ∈ indices, i < n) : indices.length ≤ n := by
  have inside : indices ⊆ range n := fun i member => mem_range.mpr (below i member)
  simpa using (subperm_of_subset distinct inside).length_le

theorem bucket_of_dropped
    (sound : ∀ k ∈ buildKeys build buildKeyCol, filter.testI64 k = true) {key : Option Int64}
    (dropped : key.any filter.testI64 = false) :
    (HashBuildTable.build build buildKeyCol).bucket key = [] := by
  cases key with
  | none => rfl
  | some k =>
    by_contra nonempty
    rw [Option.any_some, sound k (mem_buildKeys_of_bucket nonempty)] at dropped
    cases dropped

theorem joined_of_fits (nonempty : build.arrays ≠ [])
    (sound : ∀ k ∈ buildKeys build buildKeyCol, filter.testI64 k = true)
    (fits : ∀ i ∈ keptRows probe probeKeyCol filter, i < 2 ^ 32) :
    (hashProbe (.build build buildKeyCol)
        (probe.applySelection (keptRows probe probeKeyCol filter)) probeKeyCol).rows =
      (hashProbe (.build build buildKeyCol) probe probeKeyCol).rows := by
  have inside : ∀ i ∈ keptRows probe probeKeyCol filter, i < probe.len :=
    fun i member => (mem_keptRows.mp member).1
  have distinct : (keptRows probe probeKeyCol filter).Nodup := by
    rw [keptRows_eq]
    exact nodup_range.filter _
  have rows := rows_applySelection inside
  rw [taken_eq_self_iff.mpr fits] at rows
  have small : (probe.applySelection (keptRows probe probeKeyCol filter)).len ≤ 2 ^ 32 := by
    have counted := congrArg length rows
    rw [Chunk.rows, length_map, length_map, length_range] at counted
    rw [counted]
    exact length_le_of_nodup distinct fits
  have nonempty' : (HashBuildTable.build build buildKeyCol).buildBatch.arrays ≠ [] := nonempty
  rw [rows_hashProbe_of_small probeKeyCol nonempty' small, rows,
    rows_hashProbe_flatMap probe probeKeyCol nonempty', flatMap_map]
  conv_rhs =>
    rw [← flatMap_filter_of_nil fun i _ dropped => by
      rw [bucket_of_dropped sound dropped, map_nil], ← keptRows_eq]
  refine flatMap_congr fun i member => ?_
  rw [Nat.mod_eq_of_lt (fits i member)]

/-- Exactly when no key of a row beyond 32 bits passes. -/
theorem filterTransparent_iff (column : String) (maxInlist : Nat) :
    FilterTransparent build probe buildKeyCol probeKeyCol column maxInlist ↔
      ∀ row, 2 ^ 32 ≤ row → ∀ k, keyAt probe probeKeyCol row = some k →
        ¬ Accepts (buildKeys build buildKeyCol) maxInlist k := by
  have fedWith := RuntimeFilterBuilder.foldl_addValue (buildKeys build buildKeyCol)
    (.new column maxInlist)
  have accepts : ∀ filter,
      (RuntimeFilterBuilder.fed column maxInlist (buildKeys build buildKeyCol)).build =
        some filter → ∀ k, filter.testI64 k = true ↔
          Accepts (buildKeys build buildKeyCol) maxInlist k := by
    intro filter built k
    rw [RuntimeFilterBuilder.testI64_build built k, RuntimeFilterBuilder.fed, fedWith.1, fedWith.2]
    rfl
  constructor
  · intro transparent row large k found accepted
    have nonempty : (RuntimeFilterBuilder.fed column maxInlist
        (buildKeys build buildKeyCol)).values ≠ [] := by
      rw [RuntimeFilterBuilder.fed, fedWith.1]
      intro none_fed
      have noKeys : buildKeys build buildKeyCol = [] := none_fed
      simp [Accepts, noKeys] at accepted
    obtain ⟨filter, built⟩ := Option.ne_none_iff_exists'.mp
      (RuntimeFilterBuilder.build_ne_none nonempty)
    have kept : row ∈ keptRows probe probeKeyCol filter :=
      mem_keptRows.mpr ⟨keyAt_some_lt found, k, found, (accepts filter built k).mpr accepted⟩
    have fits := taken_eq_self_iff.mp (transparent filter built).kept row kept
    omega
  · intro refused filter built
    have fits : ∀ i ∈ keptRows probe probeKeyCol filter, i < 2 ^ 32 := by
      intro i member
      obtain ⟨-, k, found, accepted⟩ := mem_keptRows.mp member
      by_contra large
      exact refused i (Nat.not_lt.mp large) k found ((accepts filter built k).mp accepted)
    refine ⟨taken_eq_self_iff.mpr fits, List.Perm.of_eq (joined_of_fits ?_ ?_ fits)⟩
    · intro noArrays
      have noKeys : buildKeys build buildKeyCol = [] := by
        simp [buildKeys, extractI64Keys, noArrays, Chunk.len]
      rw [noKeys] at built
      cases built
    · intro k member
      exact (accepts filter built k).mpr (accepts_of_mem maxInlist member)

theorem probePairs_of_null_probe (table : HashBuildTable ν) {probeKeys : List (Option Int64)}
    (null : ∀ key ∈ probeKeys, key = none) : probePairs table probeKeys = [] := by
  rw [probePairs, flatMap_eq_nil_iff]
  rintro ⟨key, i⟩ entry
  obtain rfl := null key (fst_mem_of_mem_zipIdx entry)
  rfl

end Join

theorem kept_row_lost :
    ¬ FilterTransparent (intChunk [some 7]) (intChunk (lateKey (2 ^ 32))) 0 0 "k" 1 := by
  intro transparent
  have joined := (transparent (.inList "k" [7]) rfl).joined
  have nothing : (hashProbe (.build (intChunk [some 7]) 0) ((intChunk (lateKey (2 ^ 32))).applySelection
      (keptRows (intChunk (lateKey (2 ^ 32))) 0 (.inList "k" [7]))) 0).rows = [] :=
    rows_hashProbe_of_nil (probePairs_of_null_probe _
      (null_of_narrowed (lateKey_null (Nat.le_refl _)) _))
  rw [nothing, rows_hashProbe_flatMap _ _ (cons_ne_nil _ _)] at joined
  have noPairs := flatMap_eq_nil_iff.mp joined.nil_eq.symm (2 ^ 32)
    (mem_range.mpr (keyAt_some_lt (keyAt_lateKey _)))
  rw [← keyAt_eq_intAt, keyAt_lateKey, map_eq_nil_iff] at noPairs
  exact absurd noPairs (by decide)

end WowDb.Compute
