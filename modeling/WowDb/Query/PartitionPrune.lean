import WowDb.Lib.Comparators
import WowDb.Storage.ShardScan

/-!
# Partition pruning

`query-node/src/planner/cbo/partition_prune.rs` with the order of values of `shared/src/types.rs`.
-/
namespace WowDb.Shared
open WowDb.Lib

namespace Value

/-- NULL is below everything else; otherwise values of one kind are comparable, truth
values and octets apart. -/
def partialCmp : Value → Value → Option Ordering
  | .int64 a, .int64 b => some (compare a b)
  | .float64 a, .float64 b => f64PartialCmp a b
  | .string a, .string b => some (compare a b)
  | .dateTime a, .dateTime b => some (compare a b)
  | .null, .null => some .eq
  | .null, _ => some .lt
  | _, .null => some .gt
  | _, _ => none

theorem atMost_null (v : Value) : AtMost partialCmp .null v := by
  cases v with
  | null => exact .inr rfl
  | _ => exact .inl rfl

theorem le_of_compare {α : Type} [LinearOrder α] {x y : α}
    (le : some (compare x y) = some .lt ∨ some (compare x y) = some .eq) : x ≤ y := by
  rcases le with lt | eq
  · exact (compare_lt_iff_lt.mp (Option.some.inj lt)).le
  · exact (compare_eq_iff_eq.mp (Option.some.inj eq)).le

theorem compare_of_le {α : Type} [LinearOrder α] {x y : α} (le : x ≤ y) :
    some (compare x y) = some .lt ∨ some (compare x y) = some .eq := by
  rcases le.lt_or_eq with lt | eq
  · exact .inl (congrArg some (compare_lt_iff_lt.mpr lt))
  · exact .inr (congrArg some (compare_eq_iff_eq.mpr eq))

theorem atMost_cases {a b : Value} (le : AtMost partialCmp a b) :
    a = .null ∨ (∃ m n, a = .int64 m ∧ b = .int64 n ∧ m ≤ n) ∨
      (∃ x y, a = .float64 x ∧ b = .float64 y ∧ AtMost f64PartialCmp x y) ∨
      (∃ s t, a = .string s ∧ b = .string t ∧ s ≤ t) ∨
      (∃ t u, a = .dateTime t ∧ b = .dateTime u ∧ t ≤ u) := by
  cases a with
  | null => exact .inl rfl
  | int64 m =>
    cases b with
    | int64 n => exact .inr (.inl ⟨m, n, rfl, rfl, le_of_compare le⟩)
    | _ => simp [AtMost, partialCmp] at le
  | float64 x =>
    cases b with
    | float64 y => exact .inr (.inr (.inl ⟨x, y, rfl, rfl, le⟩))
    | _ => simp [AtMost, partialCmp] at le
  | string s =>
    cases b with
    | string t => exact .inr (.inr (.inr (.inl ⟨s, t, rfl, rfl, le_of_compare le⟩)))
    | _ => simp [AtMost, partialCmp] at le
  | dateTime t =>
    cases b with
    | dateTime u => exact .inr (.inr (.inr (.inr ⟨t, u, rfl, rfl, le_of_compare le⟩)))
    | _ => simp [AtMost, partialCmp] at le
  | boolean p => cases b <;> simp [AtMost, partialCmp] at le
  | bytes bs => cases b <;> simp [AtMost, partialCmp] at le

theorem partialCmp_laws : PartialCmp partialCmp where
  swap a b := by
    cases a with
    | int64 m =>
      cases b with
      | int64 n => exact congrArg some Std.OrientedOrd.eq_swap
      | _ => rfl
    | float64 x =>
      cases b with
      | float64 y => exact (partialCmp_cmpByKey f64Key).swap x y
      | _ => rfl
    | string s =>
      cases b with
      | string t => exact congrArg some Std.OrientedOrd.eq_swap
      | _ => rfl
    | dateTime t =>
      cases b with
      | dateTime u => exact congrArg some Std.OrientedOrd.eq_swap
      | _ => rfl
    | _ => cases b <;> rfl
  trans a b c first second := by
    rcases atMost_cases first with rfl | ⟨m, n, rfl, rfl, le⟩ | ⟨x, y, rfl, rfl, le⟩ |
      ⟨s, t, rfl, rfl, le⟩ | ⟨t, u, rfl, rfl, le⟩
    · exact atMost_null c
    · obtain ⟨_, k, same, rfl, le'⟩ : ∃ n' k, int64 n = .int64 n' ∧ c = .int64 k ∧ n' ≤ k := by
        simpa using atMost_cases second
      cases same
      exact compare_of_le (le.trans le')
    · obtain ⟨_, z, same, rfl, le'⟩ : ∃ y' z, float64 y = .float64 y' ∧ c = .float64 z ∧
          AtMost f64PartialCmp y' z := by
        simpa using atMost_cases second
      cases same
      exact (partialCmp_cmpByKey f64Key).trans x y z le le'
    · obtain ⟨_, r, same, rfl, le'⟩ : ∃ t' r, string t = .string t' ∧ c = .string r ∧ t' ≤ r := by
        simpa using atMost_cases second
      cases same
      exact compare_of_le (le.trans le')
    · obtain ⟨_, v, same, rfl, le'⟩ : ∃ u' v, dateTime u = .dateTime u' ∧ c = .dateTime v ∧
          u' ≤ v := by
        simpa using atMost_cases second
      cases same
      exact compare_of_le (le.trans le')

end Value

structure PartitionStats where
  partitionKeyMin : Option Value
  partitionKeyMax : Option Value
  deriving DecidableEq

end WowDb.Shared

namespace WowDb.Query.Planner
open WowDb.Lib WowDb.Shared

abbrev Uuid := BitVec 128

inductive PartitionPredicate where
  | ge (column : String) (value : Shared.Value)
  | gt (column : String) (value : Shared.Value)
  | le (column : String) (value : Shared.Value)
  | lt (column : String) (value : Shared.Value)
  | eq (column : String) (value : Shared.Value)
  | between (column : String) (min max : Shared.Value)
  deriving DecidableEq

namespace PartitionPruner

def answers (cmp : Option Ordering) (among : List Ordering) : Bool := cmp.any among.contains

variable (stats : PartitionStats)

def canSkip (pred : PartitionPredicate) : Bool :=
  match stats.partitionKeyMin, stats.partitionKeyMax with
  | some pMin, some pMax =>
    match pred with
    | .ge _ value | .gt _ value => answers (pMax.partialCmp value) [.lt]
    | .le _ value => answers (pMin.partialCmp value) [.gt]
    | .lt _ value => answers (pMin.partialCmp value) [.gt, .eq]
    | .eq _ value =>
      let belowMin := answers (pMin.partialCmp value) [.gt]
      let aboveMax := answers (pMax.partialCmp value) [.lt]
      belowMin || aboveMax
    | .between _ min max =>
      let partitionBeforeRange := answers (pMax.partialCmp min) [.lt]
      let partitionAfterRange := answers (pMin.partialCmp max) [.gt, .eq]
      partitionBeforeRange || partitionAfterRange
  | _, _ => false

def shouldInclude (predicates : List PartitionPredicate) : Bool :=
  if predicates.isEmpty then true else !predicates.any (canSkip stats)

def prune (partitions : List (Uuid × PartitionStats)) (predicates : List PartitionPredicate) :
    List Uuid :=
  (partitions.filter fun p => shouldInclude p.2 predicates).map Prod.fst

end PartitionPruner

def PartitionPredicate.holds (pred : PartitionPredicate) (key : Shared.Value) : Prop :=
  match pred with
  | .ge _ value => key.partialCmp value = some .gt ∨ key.partialCmp value = some .eq
  | .gt _ value => key.partialCmp value = some .gt
  | .le _ value => AtMost Value.partialCmp key value
  | .lt _ value => key.partialCmp value = some .lt
  | .eq _ value => key.partialCmp value = some .eq
  | .between _ min max =>
    AtMost Value.partialCmp min key ∧ key.partialCmp max = some .lt

instance (pred : PartitionPredicate) (key : Shared.Value) : Decidable (pred.holds key) := by
  cases pred <;> unfold PartitionPredicate.holds <;> infer_instance

structure Partition where
  id : Uuid
  stats : PartitionStats
  keys : List Shared.Value
  low : ∀ mn ∈ stats.partitionKeyMin, ∀ key ∈ keys, AtMost Value.partialCmp mn key
  high : ∀ mx ∈ stats.partitionKeyMax, ∀ key ∈ keys, AtMost Value.partialCmp key mx

def Partition.entry (p : Partition) : Uuid × PartitionStats := (p.id, p.stats)

namespace PartitionPruner

variable {cmp : Option Ordering}

theorem answers_one {o : Ordering} : answers cmp [o] = true ↔ cmp = some o := by
  cases cmp with
  | none => simp [answers]
  | some answer => simp [answers, eq_comm]

theorem answers_two {o o' : Ordering} :
    answers cmp [o, o'] = true ↔ cmp = some o ∨ cmp = some o' := by
  cases cmp with
  | none => simp [answers]
  | some answer => simp [answers]

variable {pred : PartitionPredicate}

theorem not_holds_of_canSkip {pMin pMax key : Shared.Value}
    (low : AtMost Value.partialCmp pMin key) (high : AtMost Value.partialCmp key pMax)
    (skipped : canSkip ⟨some pMin, some pMax⟩ pred = true) : ¬ pred.holds key := by
  have laws := Value.partialCmp_laws
  cases pred with
  | ge column value =>
    have less := laws.lt_of_upper high (answers_one.mp skipped)
    rintro (gt | eq)
    · rw [less] at gt
      cases gt
    · rw [less] at eq
      cases eq
  | gt column value =>
    have less := laws.lt_of_upper high (answers_one.mp skipped)
    intro gt
    rw [PartitionPredicate.holds, less] at gt
    cases gt
  | le column value =>
    have greater := laws.gt_of_lower low (answers_one.mp skipped)
    exact laws.not_atMost_of_lt (laws.gt_iff.mp greater)
  | lt column value => exact laws.not_lt_of_lower low (answers_two.mp skipped)
  | eq column value =>
    intro same
    rw [PartitionPredicate.holds] at same
    rcases Bool.or_eq_true_iff.mp skipped with below | above
    · rw [laws.gt_of_lower low (answers_one.mp below)] at same
      cases same
    · rw [laws.lt_of_upper high (answers_one.mp above)] at same
      cases same
  | between column min max =>
    rintro ⟨least, less⟩
    rcases Bool.or_eq_true_iff.mp skipped with before | behind
    · exact laws.not_atMost_of_lt (laws.lt_of_upper high (answers_one.mp before)) least
    · exact laws.not_lt_of_lower low (answers_two.mp behind) less

theorem canSkip_eq_false (p : Partition) {key : Shared.Value} (inside : key ∈ p.keys)
    (holds : pred.holds key) : canSkip p.stats pred = false := by
  obtain ⟨id, ⟨pMin, pMax⟩, keys, low, high⟩ := p
  cases pMin with
  | none => rfl
  | some mn =>
    cases pMax with
    | none => rfl
    | some mx =>
      rw [Bool.eq_false_iff]
      exact fun skipped =>
        not_holds_of_canSkip (low mn rfl key inside) (high mx rfl key inside) skipped holds

theorem shouldInclude_of_holds (p : Partition) {key : Shared.Value} (inside : key ∈ p.keys)
    {predicates : List PartitionPredicate} (holds : ∀ pred ∈ predicates, pred.holds key) :
    shouldInclude p.stats predicates = true := by
  unfold shouldInclude
  split
  · rfl
  · rw [Bool.not_eq_true', List.any_eq_false]
    intro pred member
    rw [canSkip_eq_false p inside (holds pred member)]
    exact Bool.false_ne_true

/-- Pruning keeps every partition with a satisfying row. -/
theorem prune_sound (partitions : List Partition) (predicates : List PartitionPredicate) :
    ∃ kept : List Partition, kept.Sublist partitions ∧
      prune (partitions.map Partition.entry) predicates = kept.map Partition.id ∧
      ∀ p ∈ partitions, (∃ key ∈ p.keys, ∀ pred ∈ predicates, pred.holds key) → p ∈ kept := by
  refine ⟨partitions.filter fun p => shouldInclude p.stats predicates, List.filter_sublist, ?_, ?_⟩
  · rw [prune, List.filter_map, List.map_map]
    rfl
  · rintro p member ⟨key, inside, holds⟩
    exact List.mem_filter.mpr ⟨member, shouldInclude_of_holds p inside holds⟩

theorem prune_keeps_seven :
    let low : Partition := ⟨1, ⟨some (.int64 0), some (.int64 4)⟩,
      [.int64 3], by decide, by decide⟩
    let high : Partition := ⟨2, ⟨some (.int64 5), some (.int64 9)⟩,
      [.int64 7], by decide, by decide⟩
    ∃ kept : List Partition, prune ([low, high].map Partition.entry) [.ge "k" (.int64 6)] = kept.map Partition.id ∧
      high ∈ kept := by
  intro low high
  obtain ⟨kept, -, pruned, keeps⟩ := prune_sound [low, high] [.ge "k" (.int64 6)]
  exact ⟨kept, pruned, keeps high (by simp) ⟨.int64 7, by simp [high], by decide⟩⟩

end PartitionPruner
end WowDb.Query.Planner
