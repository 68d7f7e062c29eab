import WowDb.Compute.HashJoin
import WowDb.Lib.Comparators

/-!
# Sorting a batch and its first rows

`sort_batch` and `top_k` of `compute-node/src/executor/sort.rs`.
-/
namespace WowDb.Compute
open WowDb.Lib Std List

structure SortKey where
  colIdx : Nat
  descending : Bool
  nullsFirst : Bool

/-- `sort_unstable_by` and `select_nth_unstable_by`, which panics when there is no such
element and otherwise puts the elements up to it before the others. -/
structure Sorter where
  sortUnstableBy : (Nat → Nat → Ordering) → List Nat → List Nat
  sort_perm : ∀ cmp xs, (sortUnstableBy cmp xs).Perm xs
  sort_ordered : ∀ cmp xs, TransCmp cmp → (sortUnstableBy cmp xs).Pairwise fun a b => cmp a b ≠ .gt
  selectNthUnstableBy : Nat → (Nat → Nat → Ordering) → List Nat → Option (List Nat)
  select_isSome : ∀ index cmp xs, (selectNthUnstableBy index cmp xs).isSome ↔ index < xs.length
  select_perm : ∀ {index cmp xs ys}, selectNthUnstableBy index cmp xs = some ys → ys.Perm xs
  select_parts : ∀ {index cmp xs ys}, TransCmp cmp → selectNthUnstableBy index cmp xs = some ys →
    ∀ a ∈ ys.take (index + 1), ∀ b ∈ ys.drop (index + 1), cmp a b ≠ .gt

variable {ν : Type}

def extractI64 (arr : Column ν) (row : Nat) : Option Int64 :=
  match arr with
  | .int64 values => values[row]?.join
  | .other _ => none

def compareRows (batch : Chunk ν) (rowA rowB : Nat) (sortKey : SortKey) : Ordering :=
  match batch.arrays[sortKey.colIdx]? with
  | none => .eq
  | some arr =>
    let ord := match extractI64 arr rowA, extractI64 arr rowB with
      | none, none => .eq
      | none, some _ => if sortKey.nullsFirst then .lt else .gt
      | some _, none => if sortKey.nullsFirst then .gt else .lt
      | some a, some b => compare a b
    if sortKey.descending then ord.swap else ord

def rowOrder (batch : Chunk ν) (sortKeys : List SortKey) : Nat → Nat → Ordering :=
  inTurn (sortKeys.map fun sk a b => compareRows batch a b sk)

def sortIndices (S : Sorter) (batch : Chunk ν) (sortKeys : List SortKey) : List Nat :=
  S.sortUnstableBy (rowOrder batch sortKeys) (List.range batch.len)

def sortBatch (S : Sorter) (batch : Chunk ν) (sortKeys : List SortKey) : Chunk ν :=
  batch.applySelection (sortIndices S batch sortKeys)

/-- Without a result the call panics: for `k = 0` the position before the first, as an
unsigned number, is beyond every slice. -/
def topKIndices (S : Sorter) (batch : Chunk ν) (k : Nat) (sortKeys : List SortKey) :
    Option (List Nat) :=
  if k ≥ batch.len then some (sortIndices S batch sortKeys)
  else
    match k with
    | 0 => none
    | position + 1 =>
      (S.selectNthUnstableBy position (rowOrder batch sortKeys) (List.range batch.len)).map
        fun indices => S.sortUnstableBy (rowOrder batch sortKeys) (indices.take k)

def topK (S : Sorter) (batch : Chunk ν) (k : Nat) (sortKeys : List SortKey) : Option (Chunk ν) :=
  (topKIndices S batch k sortKeys).map batch.applySelection

variable (sk : SortKey)

def sqlCompare : Option Int64 → Option Int64 → Ordering
  | none, none => .eq
  | none, some _ => if sk.nullsFirst then .lt else .gt
  | some _, none => if sk.nullsFirst then .gt else .lt
  | some a, some b => if sk.descending then compare b a else compare a b

def sqlOrder (sortKeys : List SortKey) :
    List (Option (Cell ν)) → List (Option (Cell ν)) → Ordering :=
  inTurn (sortKeys.map fun sk a b => sqlCompare sk (intAt a sk.colIdx) (intAt b sk.colIdx))

def keyValues (sortKeys : List SortKey) (row : List (Option (Cell ν))) : List (Option Int64) :=
  sortKeys.map fun sk => intAt row sk.colIdx

/-- Sorted batches have every row once, and `k` rows the first keys. -/
structure SortsAndSelects (S : Sorter) (batch : Chunk ν) (sortKeys : List SortKey) (k : Nat) :
    Prop where
  once : (taken (sortIndices S batch sortKeys)).Perm (List.range batch.len)
  ordered : (sortBatch S batch sortKeys).rows.Pairwise fun a b => sqlOrder sortKeys a b ≠ .gt
  selected : ∃ chosen, topK S batch k sortKeys = some chosen ∧
    chosen.rows.length = min k batch.len ∧
    chosen.rows.map (keyValues sortKeys) =
      ((sortBatch S batch sortKeys).rows.take (min k batch.len)).map (keyValues sortKeys)

/-- Up to the first difference, null together in descending keys. -/
def NullsAgree : List SortKey → List (Option (Cell ν)) → List (Option (Cell ν)) → Prop
  | [], _, _ => True
  | sk :: rest, a, b =>
    (sk.descending = true → (intAt a sk.colIdx = none ↔ intAt b sk.colIdx = none)) ∧
      (intAt a sk.colIdx = intAt b sk.colIdx → NullsAgree rest a b)

def nullCompare (nullsFirst : Bool) : Option Int64 → Option Int64 → Ordering
  | none, none => .eq
  | none, some _ => if nullsFirst then .lt else .gt
  | some _, none => if nullsFirst then .gt else .lt
  | some a, some b => compare a b

def codeCompare (a b : Option Int64) : Ordering :=
  if sk.descending then (nullCompare sk.nullsFirst a b).swap else nullCompare sk.nullsFirst a b

theorem compareRows_eq (batch : Chunk ν) (a b : Nat) (sk : SortKey) : compareRows batch a b sk =
      codeCompare sk (intAt (batch.row a) sk.colIdx) (intAt (batch.row b) sk.colIdx) := by
  rw [intAt_row, intAt_row, compareRows]
  cases batch.arrays[sk.colIdx]? with
  | none => cases descending : sk.descending <;> simp [codeCompare, nullCompare, descending]
  | some arr =>
    cases arr with
    | int64 values =>
      simp only [codeCompare, extractI64]
      cases values[a]?.join <;> cases values[b]?.join <;> rfl
    | other values => rfl

theorem transCmp_nullCompare (nullsFirst : Bool) : TransCmp (nullCompare nullsFirst) where
  eq_swap := by
    intro a b
    cases a with
    | none => cases b <;> cases nullsFirst <;> rfl
    | some a =>
      cases b with
      | none => cases nullsFirst <;> rfl
      | some b => exact (OrientedCmp.eq_swap : compare a b = (compare b a).swap)
  isLE_trans := by
    intro a b c first second
    cases a with
    | none => cases b <;> cases c <;> cases nullsFirst <;> simp_all [nullCompare]
    | some a =>
      cases c with
      | none => cases b <;> cases nullsFirst <;> simp_all [nullCompare]
      | some c =>
        cases b with
        | none => cases nullsFirst <;> simp_all [nullCompare]
        | some b =>
          have firstLE : (compare a b).isLE := first
          have secondLE : (compare b c).isLE := second
          have both : (compare a c).isLE := TransCmp.isLE_trans firstLE secondLE
          exact both

theorem transCmp_codeCompare : TransCmp (codeCompare sk) := by
  have up := transCmp_nullCompare sk.nullsFirst
  unfold codeCompare
  cases sk.descending with
  | false => exact up
  | true =>
    have down : TransCmp fun a b => nullCompare sk.nullsFirst b a := TransCmp.opposite
    simpa only [if_true, ← OrientedCmp.eq_swap] using down

theorem codeCompare_eq_eq_iff (a b : Option Int64) : codeCompare sk a b = .eq ↔ a = b := by
  obtain ⟨_, descending, nullsFirst⟩ := sk
  cases a <;> cases b <;> cases descending <;> cases nullsFirst <;> simp [codeCompare, nullCompare]

theorem transCmp_rowOrder (batch : Chunk ν) (sortKeys : List SortKey) :
    TransCmp (rowOrder batch sortKeys) := by
  refine transCmp_inTurn (forall_mem_map.mpr fun sk _ => ?_)
  simp only [compareRows_eq]
  exact transCmp_on (fun row => intAt (batch.row row) sk.colIdx) (transCmp_codeCompare sk)

theorem rowOrder_eq_eq_iff (batch : Chunk ν) (sortKeys : List SortKey) (a b : Nat) :
    rowOrder batch sortKeys a b = .eq ↔
      keyValues sortKeys (batch.row a) = keyValues sortKeys (batch.row b) := by
  rw [rowOrder, inTurn_eq_eq_iff, forall_mem_map, keyValues, keyValues, map_inj_left]
  simp only [compareRows_eq, codeCompare_eq_eq_iff]

theorem codeCompare_eq_sqlCompare {sk : SortKey} {a b : Option Int64}
    (agree : sk.descending = true → (a = none ↔ b = none)) :
    codeCompare sk a b = sqlCompare sk a b := by
  cases descending : sk.descending with
  | false =>
    cases a <;> cases b <;> simp [codeCompare, nullCompare, sqlCompare, descending]
  | true =>
    have both := agree descending
    cases a with
    | none =>
      obtain rfl := both.mp rfl
      simp [codeCompare, nullCompare, sqlCompare, descending]
    | some a =>
      cases b with
      | none => simp at both
      | some b =>
        simp only [codeCompare, nullCompare, sqlCompare, descending, if_true]
        exact OrientedCmp.eq_swap.symm

theorem sqlCompare_eq_swap {sk : SortKey} {a b : Option Int64}
    (differ : ¬ (sk.descending = true → (a = none ↔ b = none))) :
    sqlCompare sk a b = (codeCompare sk a b).swap ∧ codeCompare sk a b ≠ .eq := by
  obtain ⟨descending, differ⟩ := Classical.not_imp.mp differ
  cases a <;> cases b <;> cases first : sk.nullsFirst <;>
    simp_all [codeCompare, nullCompare, sqlCompare]

variable {a b : List (Option (Cell ν))}

theorem NullsAgree.symm {sortKeys : List SortKey} (agree : NullsAgree sortKeys a b) :
    NullsAgree sortKeys b a := by
  induction sortKeys with
  | nil => trivial
  | cons sk rest ih =>
    exact ⟨fun descending => (agree.1 descending).symm, fun same => ih (agree.2 same.symm)⟩

def codeOrder (sortKeys : List SortKey) :
    List (Option (Cell ν)) → List (Option (Cell ν)) → Ordering :=
  inTurn (sortKeys.map fun sk a b => codeCompare sk (intAt a sk.colIdx) (intAt b sk.colIdx))

theorem rowOrder_eq_codeOrder (batch : Chunk ν) (sortKeys : List SortKey) (a b : Nat) :
    rowOrder batch sortKeys a b = codeOrder sortKeys (batch.row a) (batch.row b) := by
  induction sortKeys with
  | nil => rfl
  | cons sk rest ih =>
    simp only [rowOrder, codeOrder, map_cons, inTurn, compareLex] at ih ⊢
    rw [ih, compareRows_eq]

theorem codeOrder_eq_sqlOrder {sortKeys : List SortKey} (agree : NullsAgree sortKeys a b) :
    codeOrder sortKeys a b = sqlOrder sortKeys a b := by
  induction sortKeys with
  | nil => rfl
  | cons sk rest ih =>
    have here := codeCompare_eq_sqlCompare agree.1
    simp only [codeOrder, sqlOrder, map_cons, inTurn, compareLex] at ih ⊢
    rw [here]
    by_cases same : intAt a sk.colIdx = intAt b sk.colIdx
    · rw [ih (agree.2 same)]
    · have decided : sqlCompare sk (intAt a sk.colIdx) (intAt b sk.colIdx) ≠ .eq := by
        rw [← here, ne_eq, codeCompare_eq_eq_iff]
        exact same
      revert decided
      cases sqlCompare sk (intAt a sk.colIdx) (intAt b sk.colIdx) <;> simp

theorem sqlOrder_eq_swap {sortKeys : List SortKey} (differ : ¬ NullsAgree sortKeys a b) :
    sqlOrder sortKeys a b = (codeOrder sortKeys a b).swap ∧ codeOrder sortKeys a b ≠ .eq := by
  induction sortKeys with
  | nil => exact absurd trivial differ
  | cons sk rest ih =>
    simp only [codeOrder, sqlOrder, map_cons, inTurn, compareLex] at ih ⊢
    by_cases agree : sk.descending = true → (intAt a sk.colIdx = none ↔ intAt b sk.colIdx = none)
    · obtain ⟨same, later⟩ : intAt a sk.colIdx = intAt b sk.colIdx ∧ ¬ NullsAgree rest a b := by
        simpa [NullsAgree] using fun both => differ ⟨agree, both⟩
      have equal := (codeCompare_eq_eq_iff sk _ _).mpr same
      rw [← codeCompare_eq_sqlCompare agree, equal]
      exact ih later
    · obtain ⟨swapped, decided⟩ := sqlCompare_eq_swap agree
      rw [swapped]
      revert decided
      cases codeCompare sk (intAt a sk.colIdx) (intAt b sk.colIdx) <;> simp

section Contract

variable (S : Sorter) (batch : Chunk ν) (sortKeys : List SortKey)

theorem sortIndices_perm : (sortIndices S batch sortKeys).Perm (List.range batch.len) :=
  S.sort_perm _ _

theorem mem_sortIndices {i : Nat} : i ∈ sortIndices S batch sortKeys ↔ i < batch.len := by
  rw [(sortIndices_perm S batch sortKeys).mem_iff, mem_range]

theorem sortIndices_ordered :
    (sortIndices S batch sortKeys).Pairwise fun a b => rowOrder batch sortKeys a b ≠ .gt :=
  S.sort_ordered _ _ (transCmp_rowOrder batch sortKeys)

variable {batch}

variable {indices : List Nat}

variable (small : batch.len ≤ 2 ^ 32)

include small

theorem taken_of_small (inside : ∀ i ∈ indices, i < batch.len) : taken indices = indices :=
  taken_eq_self_iff.mpr fun i member => Nat.lt_of_lt_of_le (inside i member) small

theorem rows_of_small (inside : ∀ i ∈ indices, i < batch.len) :
    (batch.applySelection indices).rows = indices.map batch.row := by
  rw [rows_applySelection inside, taken_of_small small inside]

theorem rows_sortBatch :
    (sortBatch S batch sortKeys).rows = (sortIndices S batch sortKeys).map batch.row :=
  rows_of_small small fun _ => (mem_sortIndices S batch sortKeys).mp

omit small

theorem small_of_once (once : (taken (sortIndices S batch sortKeys)).Perm (List.range batch.len)) :
    batch.len ≤ 2 ^ 32 := by
  by_contra large
  -- row number 2^32 is among the rows of the batch, and no remainder reaches it
  have member := once.mem_iff.mpr (mem_range.mpr (Nat.lt_of_not_le large))
  rw [taken_eq_map] at member
  obtain ⟨i, -, same⟩ := mem_map.mp member
  have := Nat.mod_lt i (show 0 < 2 ^ 32 by decide)
  omega

variable {sortKeys}

include small

theorem ordered_of_agree (agree : ∀ a ∈ batch.rows, ∀ b ∈ batch.rows, NullsAgree sortKeys a b) :
    (sortBatch S batch sortKeys).rows.Pairwise fun a b => sqlOrder sortKeys a b ≠ .gt := by
  rw [rows_sortBatch S sortKeys small, pairwise_map]
  refine (sortIndices_ordered S batch sortKeys).imp_of_mem fun {a b} inA inB le => ?_
  have row : ∀ {i}, i ∈ sortIndices S batch sortKeys → batch.row i ∈ batch.rows := fun member =>
    mem_map_of_mem (mem_range.mpr ((mem_sortIndices S batch sortKeys).mp member))
  rw [← codeOrder_eq_sqlOrder (agree _ (row inA) _ (row inB)), ← rowOrder_eq_codeOrder]
  exact le

theorem agree_of_ordered
    (ordered : (sortBatch S batch sortKeys).rows.Pairwise fun a b => sqlOrder sortKeys a b ≠ .gt) :
    ∀ a ∈ batch.rows, ∀ b ∈ batch.rows, NullsAgree sortKeys a b := by
  intro a inA b inB
  by_contra differ
  obtain ⟨i, insideI, rfl⟩ := mem_map.mp inA
  obtain ⟨j, insideJ, rfl⟩ := mem_map.mp inB
  rw [rows_sortBatch S sortKeys small, pairwise_map] at ordered
  have bad : ∀ {i j}, ¬ NullsAgree sortKeys (batch.row i) (batch.row j) →
      rowOrder batch sortKeys i j ≠ .gt → sqlOrder sortKeys (batch.row i) (batch.row j) = .gt := by
    intro i j differ le
    obtain ⟨swapped, decided⟩ := sqlOrder_eq_swap differ
    rw [rowOrder_eq_codeOrder] at le
    rw [swapped]
    revert decided le
    cases codeOrder sortKeys (batch.row i) (batch.row j) <;> simp
  have apart : i ≠ j := by
    rintro rfl
    apply (sqlOrder_eq_swap differ).2
    rw [← rowOrder_eq_codeOrder, rowOrder_eq_eq_iff]
  have either := rel_or_of_pairwise (ordered.and (sortIndices_ordered S batch sortKeys))
    ((mem_sortIndices S batch sortKeys).mpr (mem_range.mp insideI))
    ((mem_sortIndices S batch sortKeys).mpr (mem_range.mp insideJ)) apart
  rcases either with ⟨le, code⟩ | ⟨le, code⟩
  · exact le (bad differ code)
  · exact le (bad (fun agree => differ agree.symm) code)

omit small

theorem keys_of_selected {position : Nat}
    (selected : S.selectNthUnstableBy position (rowOrder batch sortKeys) (List.range batch.len) =
      some indices) :
    (S.sortUnstableBy (rowOrder batch sortKeys) (indices.take (position + 1))).map
        (fun i => keyValues sortKeys (batch.row i)) =
      ((sortIndices S batch sortKeys).take (min (position + 1) batch.len)).map
        (fun i => keyValues sortKeys (batch.row i)) := by
  have trans := transCmp_rowOrder batch sortKeys
  have parts := S.select_parts trans selected
  have perm := S.select_perm selected
  have low := S.sort_perm (rowOrder batch sortKeys) (indices.take (position + 1))
  have high := S.sort_perm (rowOrder batch sortKeys) (indices.drop (position + 1))
  have whole : (S.sortUnstableBy (rowOrder batch sortKeys) (indices.take (position + 1)) ++
      S.sortUnstableBy (rowOrder batch sortKeys) (indices.drop (position + 1))).map
        (fun i => keyValues sortKeys (batch.row i)) =
      (sortIndices S batch sortKeys).map (fun i => keyValues sortKeys (batch.row i)) := by
    refine map_eq_of_ordered (rowOrder_eq_eq_iff batch sortKeys) ?_ ?_
      (sortIndices_ordered S batch sortKeys)
    · refine (low.append high).trans ?_
      rw [take_append_drop]
      exact perm.trans (sortIndices_perm S batch sortKeys).symm
    · refine pairwise_append.mpr ⟨S.sort_ordered _ _ trans, S.sort_ordered _ _ trans, ?_⟩
      intro a inLow b inHigh
      exact parts a (low.mem_iff.mp inLow) b (high.mem_iff.mp inHigh)
  have length : (S.sortUnstableBy (rowOrder batch sortKeys)
      (indices.take (position + 1))).length = min (position + 1) batch.len := by
    rw [low.length_eq, length_take, perm.length_eq, length_range]
  rw [map_take, ← whole, map_append]
  exact (take_left' (by rw [length_map, length])).symm

include small in
theorem selected_of_small {k : Nat} (reached : k = 0 → batch.len = 0) :
    ∃ chosen, topK S batch k sortKeys = some chosen ∧ chosen.rows.length = min k batch.len ∧
      chosen.rows.map (keyValues sortKeys) =
        ((sortBatch S batch sortKeys).rows.take (min k batch.len)).map (keyValues sortKeys) := by
  have sorted := rows_sortBatch S sortKeys small
  by_cases all : k ≥ batch.len
  · have length : (sortBatch S batch sortKeys).rows.length = batch.len := by
      rw [sorted, length_map, (sortIndices_perm S batch sortKeys).length_eq, length_range]
    refine ⟨sortBatch S batch sortKeys, by simp [topK, topKIndices, all, sortBatch], ?_, ?_⟩
    · rw [length, Nat.min_eq_right all]
    · rw [Nat.min_eq_right all, take_of_length_le (Nat.le_of_eq length)]
  · obtain ⟨position, rfl⟩ : ∃ position, k = position + 1 :=
      Nat.exists_eq_succ_of_ne_zero fun zero => all (by have := reached zero; omega)
    have found := (S.select_isSome position (rowOrder batch sortKeys) (range batch.len)).mpr
      (by rw [length_range]; omega)
    obtain ⟨indices, selected⟩ := Option.isSome_iff_exists.mp found
    have low := S.sort_perm (rowOrder batch sortKeys) (indices.take (position + 1))
    have perm := S.select_perm selected
    have inside : ∀ i ∈ S.sortUnstableBy (rowOrder batch sortKeys) (indices.take (position + 1)),
        i < batch.len := by
      intro i member
      exact mem_range.mp (perm.mem_iff.mp (mem_of_mem_take (low.mem_iff.mp member)))
    have rows := rows_of_small small inside
    refine ⟨_, by rw [topK, topKIndices, if_neg all]; simp only [selected]; rfl, ?_, ?_⟩
    · rw [rows, length_map, low.length_eq, length_take, perm.length_eq, length_range]
    · rw [rows, sorted, ← map_take, map_map, map_map]
      exact keys_of_selected S selected

/-- Exactly for 32-bit row numbers, `k > 0` and agreeing nulls. -/
theorem sortsAndSelects_iff (k : Nat) : SortsAndSelects S batch sortKeys k ↔
      batch.len ≤ 2 ^ 32 ∧ (k = 0 → batch.len = 0) ∧
        ∀ a ∈ batch.rows, ∀ b ∈ batch.rows, NullsAgree sortKeys a b := by
  constructor
  · intro contract
    have small := small_of_once S sortKeys contract.once
    refine ⟨small, ?_, agree_of_ordered S small contract.ordered⟩
    rintro rfl
    obtain ⟨chosen, result, -⟩ := contract.selected
    by_contra rows
    have panics : topK S batch 0 sortKeys = none := by
      rw [topK, topKIndices, if_neg (by omega)]
      rfl
    rw [panics] at result
    cases result
  · intro ⟨small, reached, agree⟩
    refine ⟨?_, ordered_of_agree S small agree, selected_of_small S small reached⟩
    rw [taken_of_small small fun _ => (mem_sortIndices S batch sortKeys).mp]
    exact sortIndices_perm S batch sortKeys

end Contract

def insertionSorter : Sorter where
  sortUnstableBy cmp xs := xs.insertionSort (cmp · · ≠ .gt)
  sort_perm _ xs := List.perm_insertionSort _ xs
  sort_ordered _ xs _ := (stablyOrdered_insertionSort xs).ordered
  selectNthUnstableBy index cmp xs :=
    if index < xs.length then some (xs.insertionSort (cmp · · ≠ .gt)) else none
  select_isSome := by
    intro index cmp xs
    split <;> simp_all
  select_perm := by
    intro index cmp xs ys selected
    split at selected
    · cases selected
      exact List.perm_insertionSort _ xs
    · cases selected
  select_parts := by
    intro index cmp xs ys trans selected
    split at selected
    · cases selected
      have sorted : StablyOrdered cmp xs _ := stablyOrdered_insertionSort xs
      have ordered := sorted.ordered
      rw [← List.take_append_drop (index + 1) (xs.insertionSort _)] at ordered
      exact (List.pairwise_append.mp ordered).2.2
    · cases selected

theorem descending_null_last : ¬ SortsAndSelects insertionSorter
      (Chunk.mk [.int64 [none, some 1]] (by simp) : Chunk Empty) [⟨0, true, true⟩] 1 := by
  intro contract
  exact absurd contract.ordered (by decide +kernel)

end WowDb.Compute
