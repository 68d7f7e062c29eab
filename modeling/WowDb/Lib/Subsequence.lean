import Mathlib

/-!
# Aligned lists

One list follows another up to items of the other that it lacks: what an early filter leaves against
what it was given.
-/
namespace WowDb.Lib
open List

/-- The items of the first list are related, in order, to items of the second; those it lacks are
droppable. -/
inductive Aligned {α β : Type} (R : α → β → Prop) (D : β → Prop) : List α → List β → Prop
  | nil : Aligned R D [] []
  | keep {x : α} {y : β} {xs : List α} {ys : List β} :
      R x y → Aligned R D xs ys → Aligned R D (x :: xs) (y :: ys)
  | drop {y : β} {xs : List α} {ys : List β} : D y → Aligned R D xs ys → Aligned R D xs (y :: ys)

namespace Aligned

variable {α β γ δ : Type} {R : α → β → Prop} {D : β → Prop}

theorem of_eq {R : α → α → Prop} {D : α → Prop} (xs : List α) (related : ∀ x, R x x) :
    Aligned R D xs xs := by
  induction xs with
  | nil => exact .nil
  | cons x xs ih => exact .keep (related x) ih

variable {xs : List α} {ys : List β}

theorem of_forall₂ (all : List.Forall₂ R xs ys) : Aligned R D xs ys := by
  induction all with
  | nil => exact .nil
  | cons related _ ih => exact .keep related ih

theorem isEmpty_eq_of_forall₂ (all : List.Forall₂ R xs ys) : xs.isEmpty = ys.isEmpty := by
  cases all <;> rfl

theorem of_dropped (dropped : ∀ y ∈ ys, D y) : Aligned R D [] ys := by
  induction ys with
  | nil => exact .nil
  | cons y ys ih =>
    exact .drop (dropped y (by simp)) (ih fun z member => dropped z (by simp [member]))

theorem append {xs' : List α} {ys' : List β} (left : Aligned R D xs ys)
    (right : Aligned R D xs' ys') : Aligned R D (xs ++ xs') (ys ++ ys') := by
  induction left with
  | nil => exact right
  | keep related _ ih => exact .keep related ih
  | drop dropped _ ih => exact .drop dropped ih

theorem flatMap {R' : γ → δ → Prop} {D' : δ → Prop} {f : α → List γ} {g : β → List δ}
    (aligned : Aligned R D xs ys) (expand : ∀ x ∈ xs, ∀ y, R x y → Aligned R' D' (f x) (g y))
    (dropped : ∀ y, D y → ∀ z ∈ g y, D' z) : Aligned R' D' (xs.flatMap f) (ys.flatMap g) := by
  induction aligned with
  | nil => exact .nil
  | keep related _ ih =>
    rw [flatMap_cons, flatMap_cons]
    exact append (expand _ (by simp) _ related) (ih fun x member => expand x (by simp [member]))
  | drop gone _ ih =>
    rw [flatMap_cons]
    exact append (of_dropped (dropped _ gone)) (ih expand)

theorem exists_of_mem (aligned : Aligned R D xs ys) {x : α} (member : x ∈ xs) :
    ∃ y ∈ ys, R x y := by
  induction aligned with
  | nil => cases member
  | @keep z y zs ys related _ ih =>
    rcases mem_cons.mp member with rfl | later
    · exact ⟨y, mem_cons_self, related⟩
    · obtain ⟨w, inside, also⟩ := ih later
      exact ⟨w, mem_cons_of_mem _ inside, also⟩
  | drop _ _ ih =>
    obtain ⟨w, inside, also⟩ := ih member
    exact ⟨w, mem_cons_of_mem _ inside, also⟩

theorem filter_left {p : α → Bool} (aligned : Aligned R D xs ys)
    (discard : ∀ x ∈ xs, ∀ y, R x y → p x = false → D y) : Aligned R D (xs.filter p) ys := by
  induction aligned with
  | nil => exact .nil
  | @keep x y xs ys related _ ih =>
    have rest := ih fun z member => discard z (by simp [member])
    cases kept : p x with
    | true =>
      rw [filter_cons_of_pos kept]
      exact .keep related rest
    | false =>
      rw [filter_cons_of_neg (by simp [kept])]
      exact .drop (discard x (by simp) y related kept) rest
  | drop gone _ ih => exact .drop gone (ih discard)

theorem map_left {f : α → γ} {R' : γ → β → Prop} (aligned : Aligned R D xs ys)
    (related : ∀ x ∈ xs, ∀ y, R x y → R' (f x) y) : Aligned R' D (xs.map f) ys := by
  induction aligned with
  | nil => exact .nil
  | keep pair _ ih =>
    exact .keep (related _ (by simp) _ pair) (ih fun x member => related x (by simp [member]))
  | drop gone _ ih => exact .drop gone (ih related)

theorem forall₂_filter {p : α → Bool} {q : β → Bool} (aligned : Aligned R D xs ys)
    (agree : ∀ x y, R x y → p x = q y) (dropped : ∀ y, D y → q y = false) :
    List.Forall₂ R (xs.filter p) (ys.filter q) := by
  induction aligned with
  | nil => exact .nil
  | @keep x y xs ys related _ ih =>
    rw [filter_cons, filter_cons, agree x y related]
    cases q y with
    | true => exact .cons related ih
    | false => exact ih
  | drop gone _ ih =>
    rw [filter_cons_of_neg (by simp [dropped _ gone])]
    exact ih

end Aligned

section

variable {α : Type} (start : α → Prop) (next : α → α → Prop)

def EndsChain (xs : List α) (a : α) : Prop :=
  ∃ before, (before ++ [a]).Sublist xs ∧ (before ++ [a]).IsChain next ∧
    ∀ first ∈ (before ++ [a]).head?, start first

variable {start next}

theorem EndsChain.mem {xs : List α} {a : α} (ends : EndsChain start next xs a) : a ∈ xs := by
  obtain ⟨before, sub, -, -⟩ := ends
  exact sub.subset (by simp)

theorem EndsChain.mono {xs ys : List α} {a : α} (sub : xs.Sublist ys)
    (ends : EndsChain start next xs a) : EndsChain start next ys a := by
  obtain ⟨before, inside, chain, first⟩ := ends
  exact ⟨before, inside.trans sub, chain, first⟩

theorem EndsChain.of_start {xs : List α} {a : α} (here : a ∈ xs) (begins : start a) :
    EndsChain start next xs a :=
  ⟨[], by simpa using here, by simp, by simpa using begins⟩

theorem EndsChain.extend {xs ys : List α} {a b : α} (ends : EndsChain start next xs a)
    (later : b ∈ ys) (link : next a b) : EndsChain start next (xs ++ ys) b := by
  obtain ⟨before, inside, chain, first⟩ := ends
  refine ⟨before ++ [a], inside.append (singleton_sublist.2 later), ?_, ?_⟩
  · rw [isChain_append]
    refine ⟨chain, isChain_singleton b, ?_⟩
    simpa using link
  · rw [head?_append_of_ne_nil _ (by simp)]
    exact first

theorem not_endsChain_nil (a : α) : ¬ EndsChain start next [] a :=
  fun ends => not_mem_nil ends.mem

theorem endsChain_concat (xs : List α) (x a : α) : EndsChain start next (xs ++ [x]) a ↔
      EndsChain start next xs a ∨
        a = x ∧ (start x ∨ ∃ b, EndsChain start next xs b ∧ next b x) := by
  constructor
  · rintro ⟨before, inside, chain, first⟩
    obtain ⟨kept, added, split, keptSub, addedSub⟩ := sublist_append_iff.1 inside
    rcases sublist_singleton.1 addedSub with rfl | rfl
    · rw [append_nil] at split
      exact .inl ⟨before, split ▸ keptSub, chain, first⟩
    · obtain ⟨rfl, last⟩ := append_inj' split rfl
      obtain rfl : a = x := by simpa using last
      refine .inr ⟨rfl, ?_⟩
      rcases eq_nil_or_concat' before with rfl | ⟨earlier, b, rfl⟩
      · exact .inl (first a rfl)
      · rw [isChain_append] at chain
        refine .inr ⟨b, ⟨earlier, keptSub, chain.1, ?_⟩, chain.2.2 b (by simp) a (by simp)⟩
        rwa [head?_append_of_ne_nil _ (by simp)] at first
  · rintro (ends | ⟨rfl, begins | ⟨b, ends, link⟩⟩)
    · exact ends.mono (sublist_append_left xs [x])
    · exact .of_start (by simp) begins
    · exact ends.extend (mem_singleton_self a) link

end
end WowDb.Lib
