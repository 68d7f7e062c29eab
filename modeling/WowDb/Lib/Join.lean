import Mathlib

/-!
# Equi-joins over lists

Keys are optional and a missing key joins nothing. Splitting both sides by any function
of the key and joining part by part gives the same pairs.
-/
namespace WowDb.Lib
open List

theorem flatMap_filter_of_nil {α β : Type} {xs : List α} {keep : α → Bool} {f : α → List β}
    (nothing : ∀ x ∈ xs, keep x = false → f x = []) :
    (xs.filter keep).flatMap f = xs.flatMap f := by
  induction xs with
  | nil => rfl
  | cons x rest ih =>
    have later := ih fun y member => nothing y (mem_cons_of_mem x member)
    cases kept : keep x with
    | true => simp [kept, later]
    | false => simp [kept, later, nothing x mem_cons_self kept]

section Parts

variable {α : Type} (part : α → Nat)

theorem flatMap_parts_perm (xs : List α) (n : Nat) :
    ((List.range n).flatMap fun p => xs.filter (part · = p)).Perm (xs.filter (part · < n)) := by
  induction n with
  | zero => simp
  | succ n ih =>
    rw [range_succ, flatMap_append, flatMap_singleton]
    -- the elements below `n + 1` are those below `n` and those at `n`
    have cut := filter_append_perm (fun x => decide (part x < n))
      (xs.filter (part · < n + 1))
    have low : (xs.filter (part · < n + 1)).filter (part · < n) = xs.filter (part · < n) := by
      rw [filter_filter]
      refine filter_congr fun x _ => ?_
      by_cases less : part x < n
      · simp [less, Nat.lt_succ_of_lt less]
      · simp [less]
    have high : (xs.filter (part · < n + 1)).filter (fun x => !decide (part x < n)) =
        xs.filter (part · = n) := by
      rw [filter_filter]
      refine filter_congr fun x _ => ?_
      rw [Bool.eq_iff_iff]
      simp only [Bool.and_eq_true, Bool.not_eq_true', decide_eq_true_eq, decide_eq_false_iff_not]
      omega
    rw [low, high] at cut
    exact (ih.append_right _).trans cut

theorem parts_perm {xs : List α} {n : Nat} (below : ∀ x ∈ xs, part x < n) :
    ((List.range n).flatMap fun p => xs.filter (part · = p)).Perm xs := by
  have all : xs.filter (part · < n) = xs :=
    filter_eq_self.mpr fun x member => decide_eq_true (below x member)
  simpa only [all] using flatMap_parts_perm part xs n

end Parts

variable {α β K : Type} [DecidableEq K] (leftKey : α → Option K) (rightKey : β → Option K)

def keysMatch (a : α) (b : β) : Bool :=
  match leftKey a, rightKey b with
  | some k, some j => decide (k = j)
  | _, _ => false

theorem keysMatch_iff {a : α} {b : β} :
    keysMatch leftKey rightKey a b = true ↔ leftKey a = rightKey b ∧ rightKey b ≠ none := by
  rw [keysMatch]
  cases leftKey a with
  | none => cases rightKey b <;> simp
  | some k => cases rightKey b <;> simp

def join (left : List α) (right : List β) : List (α × β) :=
  right.flatMap fun b => (left.filter (keysMatch leftKey rightKey · b)).map (·, b)

theorem mem_join {left : List α} {right : List β} {a : α} {b : β} :
    (a, b) ∈ join leftKey rightKey left right ↔
      a ∈ left ∧ b ∈ right ∧ keysMatch leftKey rightKey a b = true := by
  simp only [join, mem_flatMap, mem_map, mem_filter, Prod.mk.injEq]
  constructor
  · rintro ⟨_, inRight, _, ⟨inLeft, same⟩, rfl, rfl⟩
    exact ⟨inLeft, inRight, same⟩
  · rintro ⟨inLeft, inRight, same⟩
    exact ⟨b, inRight, a, ⟨inLeft, same⟩, rfl, rfl⟩

theorem join_map {γ δ : Type} (f : γ → α) (g : δ → β) (left : List γ) (right : List δ) :
    join leftKey rightKey (left.map f) (right.map g) =
      (join (fun c => leftKey (f c)) (fun d => rightKey (g d)) left right).map
        fun m => (f m.1, g m.2) := by
  simp only [join, flatMap_map, filter_map, map_flatMap, map_map]
  rfl

theorem join_part (part : Option K → Nat) (left : List α) (right : List β) (p : Nat) :
    join leftKey rightKey (left.filter fun a => part (leftKey a) = p)
        (right.filter fun b => part (rightKey b) = p) =
      (right.filter fun b => part (rightKey b) = p).flatMap fun b =>
        (left.filter (keysMatch leftKey rightKey · b)).map (·, b) := by
  rw [join]
  refine flatMap_congr fun b member => ?_
  have here : part (rightKey b) = p := of_decide_eq_true (mem_filter.mp member).2
  rw [filter_filter]
  congr 1
  refine filter_congr fun a _ => ?_
  cases same : keysMatch leftKey rightKey a b with
  | false => rfl
  | true =>
    rw [((keysMatch_iff leftKey rightKey).mp same).1, here]
    simp

theorem join_parts_perm (part : Option K → Nat) {n : Nat} (left : List α) (right : List β)
    (below : ∀ b ∈ right, part (rightKey b) < n) :
    ((List.range n).flatMap fun p => join leftKey rightKey
        (left.filter fun a => part (leftKey a) = p) (right.filter fun b => part (rightKey b) = p)).Perm
      (join leftKey rightKey left right) := by
  simp only [join_part]
  rw [← flatMap_assoc]
  exact (parts_perm (fun b => part (rightKey b)) below).flatMap_right _

end WowDb.Lib
