import Mathlib

/-!
# Round robin

Taking the members of a list in turn, from any position on and wrapping around at its end:
of any number of turns each member gets its share, up to one.
-/
namespace WowDb.Lib
open List

variable {α : Type}

def rounds (xs : List α) (start k : Nat) : List α :=
  (List.range k).filterMap fun i => xs[(start + i) % xs.length]?

theorem rounds_add (xs : List α) (start a b : Nat) :
    rounds xs start (a + b) = rounds xs start a ++ rounds xs (start + a) b := by
  simp only [rounds, range_add, filterMap_append, filterMap_map]
  congr 1
  refine filterMap_congr fun i _ => ?_
  rw [Function.comp_apply, Nat.add_assoc]

variable {xs : List α}

theorem mem_of_mem_rounds {start k : Nat} {x : α} (mem : x ∈ rounds xs start k) : x ∈ xs := by
  obtain ⟨i, -, found⟩ := mem_filterMap.mp mem
  exact mem_of_getElem? found

theorem length_rounds (some : xs ≠ []) (start k : Nat) : (rounds xs start k).length = k := by
  have positive := length_pos_iff.mpr some
  induction k with
  | zero => rfl
  | succ k ih =>
    rw [rounds_add, length_append, ih]
    simp [rounds, getElem?_eq_getElem (Nat.mod_lt _ positive)]

theorem countP_range (p : Nat → Prop) [DecidablePred p] (k : Nat) :
    (List.range k).countP (fun i => decide (p i)) = k.count p := by
  induction k with
  | zero => rfl
  | succ k ih => simp [range_succ, ih, Nat.count_succ]

variable [DecidableEq α]

theorem count_rounds (distinct : xs.Nodup) {x : α} (mem : x ∈ xs) (start k : Nat) :
    ∃ offset, (rounds xs start k).count x =
      k / xs.length + if offset < k % xs.length then 1 else 0 := by
  obtain ⟨j, inside, rfl⟩ := mem_iff_getElem.mp mem
  have positive : 0 < xs.length := by omega
  refine ⟨(j + (xs.length - start % xs.length)) % xs.length, ?_⟩
  have start_lt := Nat.mod_lt start positive
  have turn : ∀ i, (xs[(start + i) % xs.length]?.map (· == xs[j])).getD false =
      decide (i ≡ j + (xs.length - start % xs.length) [MOD xs.length]) := by
    intro i
    have shifted : start % xs.length + (j + (xs.length - start % xs.length)) = j + xs.length := by
      omega
    have wrapped : (j + xs.length) % xs.length = j := by
      rw [Nat.add_mod_right, Nat.mod_eq_of_lt inside]
    rw [getElem?_eq_getElem (Nat.mod_lt _ positive), Option.map_some, Option.getD_some,
      Bool.eq_iff_iff, beq_iff_eq, decide_eq_true_eq, distinct.getElem_inj_iff,
      ← Nat.mod_add_mod start]
    constructor
    · intro same
      apply Nat.ModEq.add_left_cancel' (start % xs.length)
      rw [Nat.ModEq, shifted, wrapped, same]
    · intro same
      have both := same.add_left (start % xs.length)
      rw [Nat.ModEq, shifted, wrapped] at both
      exact both
  rw [rounds, count, countP_filterMap]
  simp only [turn]
  rw [countP_range, Nat.count_modEq_card _ positive]

theorem count_rounds_ge (distinct : xs.Nodup) {x : α} (mem : x ∈ xs) (start k : Nat) :
    k / xs.length ≤ (rounds xs start k).count x ∧
      (rounds xs start k).count x ≤ k / xs.length + 1 := by
  obtain ⟨offset, share⟩ := count_rounds distinct mem start k
  rw [share]
  split <;> omega

theorem nodup_rounds (distinct : xs.Nodup) {k : Nat} (few : k ≤ xs.length)
    (start : Nat) : (rounds xs start k).Nodup := by
  rw [nodup_iff_count_le_one]
  intro x
  by_cases mem : x ∈ xs
  · obtain ⟨offset, share⟩ := count_rounds distinct mem start k
    rw [share]
    rcases Nat.lt_or_eq_of_le few with less | rfl
    · rw [Nat.div_eq_of_lt less]
      split <;> omega
    · have positive := length_pos_of_mem mem
      rw [Nat.mod_self, if_neg (Nat.not_lt_zero _), Nat.div_self positive]
  · rw [count_eq_zero.mpr fun there => mem (mem_of_mem_rounds there)]
    omega

end WowDb.Lib
