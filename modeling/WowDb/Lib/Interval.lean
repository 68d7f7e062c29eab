import Mathlib

/-!
# Closed intervals of a linear order

Intervals are pairs of bounds.
-/
namespace WowDb.Lib.Interval

variable {α : Type} [LinearOrder α]

def Meets (a b : α × α) : Prop := a.1 ≤ b.2 ∧ b.1 ≤ a.2

theorem not_meets_iff (a b : α × α) : ¬ Meets a b ↔ b.2 < a.1 ∨ a.2 < b.1 := by
  unfold Meets
  rw [not_and_or, not_le, not_le]

theorem cluster_one_side {centre r : α × α} (proper : r.1 ≤ r.2) (apart : ¬ Meets centre r) :
    (∀ x, Meets centre x → ¬ Meets x r → r.2 < x.1) ∨
      (∀ x, Meets centre x → ¬ Meets x r → x.2 < r.1) := by
  rcases (not_meets_iff centre r).mp apart with left | right
  · left
    intro x near avoids
    rcases (not_meets_iff x r).mp avoids with h | h
    · exact h
    · -- `x` would end before `r` starts, yet it reaches the centre behind `r`
      have contradiction : x.2 < x.2 := by
        calc x.2 < r.1 := h
          _ ≤ r.2 := proper
          _ < centre.1 := left
          _ ≤ x.2 := near.1
      exact absurd contradiction (lt_irrefl _)
  · right
    intro x near avoids
    rcases (not_meets_iff x r).mp avoids with h | h
    · have contradiction : x.1 < x.1 := by
        calc x.1 ≤ centre.2 := near.2
          _ < r.1 := right
          _ ≤ r.2 := proper
          _ < x.1 := h
      exact absurd contradiction (lt_irrefl _)
    · exact h

theorem not_meets_hull {centre r : α × α} {xs : List (α × α)} (proper : r.1 ≤ r.2)
    (apart : ¬ Meets centre r) (cluster : ∀ x ∈ xs, Meets centre x ∧ ¬ Meets x r)
    {lo hi : α} (low : lo ∈ xs.map Prod.fst) (high : hi ∈ xs.map Prod.snd) :
    ¬ Meets (lo, hi) r := by
  obtain ⟨x, inX, rfl⟩ := List.mem_map.mp low
  obtain ⟨y, inY, rfl⟩ := List.mem_map.mp high
  rw [not_meets_iff]
  rcases cluster_one_side proper apart with left | right
  · exact Or.inl (left x (cluster x inX).1 (cluster x inX).2)
  · exact Or.inr (right y (cluster y inY).1 (cluster y inY).2)

end WowDb.Lib.Interval

namespace WowDb.Lib.ZoneMap

variable {α : Type} [LinearOrder α]

inductive Comparison where
  | eq | lt | le | gt | ge
  deriving DecidableEq

namespace Comparison

def holds : Comparison → α → α → Bool
  | eq, x, v => decide (x = v)
  | lt, x, v => decide (x < v)
  | le, x, v => decide (x ≤ v)
  | gt, x, v => decide (v < x)
  | ge, x, v => decide (v ≤ x)

def excludes (mn mx : α) : Comparison → α → Bool
  | ge, v | gt, v => decide (mx < v)
  | le, v | lt, v => decide (v < mn)
  | eq, v => decide (v < mn) || decide (mx < v)

/-- The bounds do not rule the value out for the comparison. A strict comparison is ruled out by a
constant strictly between the value and the bound. -/
def admits (mn mx : α) : Comparison → α → Prop
  | eq, x => mn ≤ x ∧ x ≤ mx
  | le, x => mn ≤ x
  | ge, x => x ≤ mx
  | lt, x => ∀ v, x < v → mn ≤ v
  | gt, x => ∀ v, v < x → v ≤ mx

/-- Exactly for the admitted values exclusion is sound against every constant. -/
theorem admits_iff {mn mx x : α} {op : Comparison} :
    op.admits mn mx x ↔ ∀ v, op.excludes mn mx v = true → op.holds x v = false := by
  cases op with
  | eq =>
    simp only [admits, excludes, holds, Bool.or_eq_true, decide_eq_true_eq, decide_eq_false_iff_not]
    constructor
    · rintro ⟨low, high⟩ v excluded rfl
      exact excluded.elim (not_lt_of_ge low) (not_lt_of_ge high)
    · intro sound
      exact ⟨not_lt.mp fun below => sound x (.inl below) rfl,
        not_lt.mp fun above => sound x (.inr above) rfl⟩
  | le =>
    simp only [admits, excludes, holds, decide_eq_true_eq, decide_eq_false_iff_not]
    exact ⟨fun low v excluded => not_le_of_gt (excluded.trans_le low),
      fun sound => not_lt.mp fun below => sound x below le_rfl⟩
  | ge =>
    simp only [admits, excludes, holds, decide_eq_true_eq, decide_eq_false_iff_not]
    exact ⟨fun high v excluded => not_le_of_gt (high.trans_lt excluded),
      fun sound => not_lt.mp fun above => sound x above le_rfl⟩
  | lt | gt =>
    simp only [admits, excludes, holds, decide_eq_true_eq, decide_eq_false_iff_not]
    exact forall_congr' fun v => by rw [← not_lt, imp_not_comm]

end Comparison

end WowDb.Lib.ZoneMap
