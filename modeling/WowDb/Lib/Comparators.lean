import Mathlib

/-!
# Comparators

Comparison functions that say less, equal or greater, applied in turn until one of them
does not say equal, and stable sorting by them: sorting by the last one first and by the
first one last sorts by all of them in turn.
-/
namespace WowDb.Lib
open Std List

variable {α : Type} {cmp : α → α → Ordering}

def inTurn : List (α → α → Ordering) → α → α → Ordering
  | [] => fun _ _ => .eq
  | first :: rest => compareLex first (inTurn rest)

variable {cmps : List (α → α → Ordering)}

theorem transCmp_inTurn (each : ∀ c ∈ cmps, TransCmp c) : TransCmp (inTurn cmps) := by
  induction cmps with
  | nil => exact { eq_swap := rfl, isLE_trans := fun _ _ => rfl }
  | cons first rest ih =>
    have : TransCmp first := each first (by simp)
    have : TransCmp (inTurn rest) := ih fun c member => each c (by simp [member])
    exact inferInstanceAs (TransCmp (compareLex first (inTurn rest)))

theorem transCmp_on {β : Type} (f : β → α) (trans : TransCmp cmp) :
    TransCmp fun a b => cmp (f a) (f b) where
  eq_swap := OrientedCmp.eq_swap
  isLE_trans := TransCmp.isLE_trans

theorem inTurn_eq_eq_iff {a b : α} : inTurn cmps a b = .eq ↔ ∀ c ∈ cmps, c a b = .eq := by
  induction cmps with
  | nil => simp [inTurn]
  | cons first rest ih =>
    rw [inTurn, compareLex, Ordering.then_eq_eq, ih]
    simp

theorem ne_gt_trans [TransCmp cmp] {a b c : α} (first : cmp a b ≠ .gt) (second : cmp b c ≠ .gt) :
    cmp a c ≠ .gt := by
  have least := TransCmp.isLE_trans (Ordering.isLE_iff_ne_gt.mpr first)
    (Ordering.isLE_iff_ne_gt.mpr second)
  exact Ordering.isLE_iff_ne_gt.mp least

theorem ne_gt_total [TransCmp cmp] (a b : α) : cmp a b ≠ .gt ∨ cmp b a ≠ .gt := by
  rw [show cmp b a = (cmp a b).swap from OrientedCmp.eq_swap]
  cases cmp a b <;> simp

variable {xs : List α}

theorem rel_or_of_pairwise {r : α → α → Prop} (pairs : xs.Pairwise r) {a b : α} (inA : a ∈ xs)
    (inB : b ∈ xs) (apart : a ≠ b) : r a b ∨ r b a := by
  have : Std.Symm fun a b => r a b ∨ r b a := ⟨fun _ _ => Or.symm⟩
  have either : xs.Pairwise fun a b => r a b ∨ r b a := pairs.imp Or.inl
  exact either.forall inA inB apart

variable {ys : List α}

theorem map_eq_of_ordered {β : Type} [TransCmp cmp] {key : α → β}
    (equal_iff : ∀ a b, cmp a b = .eq ↔ key a = key b) (perm : xs.Perm ys)
    (orderedXs : xs.Pairwise fun a b => cmp a b ≠ .gt)
    (orderedYs : ys.Pairwise fun a b => cmp a b ≠ .gt) : xs.map key = ys.map key := by
  let le (u v : β) : Prop := ∃ a b, key a = u ∧ key b = v ∧ cmp a b ≠ .gt
  have antisymm : Std.Antisymm le := by
    constructor
    rintro u v ⟨a, b, rfl, rfl, first⟩ ⟨b', a', keyB, keyA, second⟩
    rw [← equal_iff] at keyA keyB ⊢
    have back : cmp b a ≠ .gt := by
      rwa [TransCmp.congr_left keyB, TransCmp.congr_right keyA] at second
    rw [show cmp b a = (cmp a b).swap from OrientedCmp.eq_swap] at back
    revert first back
    cases cmp a b <;> simp
  have mapped : ∀ zs : List α, zs.Pairwise (fun a b => cmp a b ≠ .gt) →
      (zs.map key).Pairwise le := fun zs ordered =>
    pairwise_map.mpr (ordered.imp fun le => ⟨_, _, rfl, rfl, le⟩)
  exact (perm.map key).eq_of_pairwise' (mapped xs orderedXs) (mapped ys orderedYs)

structure StablyOrdered (cmp : α → α → Ordering) (original arranged : List α) : Prop where
  perm : arranged.Perm original
  ordered : arranged.Pairwise fun a b => cmp a b ≠ .gt
  stable : ∀ c ∈ original, arranged.filter (cmp · c = .eq) = original.filter (cmp · c = .eq)

theorem StablyOrdered.congr {other : α → α → Ordering} (sorted : StablyOrdered cmp xs ys)
    (same : ∀ a ∈ xs, ∀ b ∈ xs, cmp a b = other a b) :
    StablyOrdered other xs ys where
  perm := sorted.perm
  ordered := by
    refine sorted.ordered.imp_of_mem fun {a b} inA inB le => ?_
    rw [← same a (sorted.perm.mem_iff.mp inA) b (sorted.perm.mem_iff.mp inB)]
    exact le
  stable c member := by
    have agree : ∀ zs : List α, (∀ a ∈ zs, a ∈ xs) →
        zs.filter (other · c = .eq) = zs.filter (cmp · c = .eq) := by
      intro zs inside
      refine filter_congr fun a inZs => ?_
      rw [same a (inside a inZs) c member]
    rw [agree ys fun a => sorted.perm.mem_iff.mp, agree xs fun _ => id, sorted.stable c member]

theorem insertionSort_congr {r s : α → α → Prop} [DecidableRel r] [DecidableRel s]
    (same : ∀ a ∈ xs, ∀ b ∈ xs, r a b ↔ s a b) : xs.insertionSort r = xs.insertionSort s := by
  simpa using map_insertionSort r s id xs same

theorem filter_orderedInsert_cmp [TransCmp cmp] (a c : α) (xs : List α) :
    (xs.orderedInsert (cmp · · ≠ .gt) a).filter (cmp · c = .eq) =
      (a :: xs).filter (cmp · c = .eq) := by
  induction xs with
  | nil => rfl
  | cons x xs ih =>
    rw [orderedInsert_cons]
    split
    · rfl
    · next after =>
      -- `a` moves past `x` only when it is greater, so one of the two is filtered out
      rw [filter_cons, ih]
      simp only [filter_cons]
      by_cases here : cmp x c = .eq
      · have other : cmp a c ≠ .eq := by
          intro same
          apply after
          rw [TransCmp.eq_trans same (OrientedCmp.eq_symm here)]
          simp
        simp [here, other]
      · simp [here]

theorem stablyOrdered_insertionSort [TransCmp cmp] (xs : List α) :
    StablyOrdered cmp xs (xs.insertionSort (cmp · · ≠ .gt)) where
  perm := perm_insertionSort _ xs
  ordered := by
    have : Std.Total (cmp · · ≠ .gt) := ⟨ne_gt_total⟩
    have : IsTrans α (cmp · · ≠ .gt) := ⟨fun _ _ _ => ne_gt_trans⟩
    exact pairwise_insertionSort _ xs
  stable c member := by
    clear member
    induction xs with
    | nil => rfl
    | cons x xs ih =>
      rw [insertionSort_cons, filter_orderedInsert_cmp]
      simp only [filter_cons, ih]

theorem filter_filter_eq {p q : α → Bool} (same : xs.filter p = ys.filter p) :
    (xs.filter fun a => p a && q a) = ys.filter fun a => p a && q a := by
  simp only [Bool.and_comm (p _)]
  rw [← filter_filter, ← filter_filter, same]

theorem StablyOrdered.insertionSort {first second : α → α → Ordering} [TransCmp first]
    (sorted : StablyOrdered second xs ys) :
    StablyOrdered (compareLex first second) xs (ys.insertionSort (first · · ≠ .gt)) where
  perm := (perm_insertionSort _ ys).trans sorted.perm
  ordered := by
    have outer : StablyOrdered first ys _ := stablyOrdered_insertionSort ys
    rw [pairwise_iff_forall_sublist]
    intro a b before
    have le : first a b ≠ .gt := pairwise_iff_forall_sublist.mp outer.ordered before
    rw [compareLex, ne_eq, Ordering.then_eq_gt]
    rintro (greater | ⟨equal, greater⟩)
    · exact le greater
    · -- equal under the first, the two stand as they stood before
      have inYs : b ∈ ys := outer.perm.mem_iff.mp (before.subset (by simp))
      have kept := before.filter (first · b = .eq)
      rw [outer.stable b inYs] at kept
      have both : [a, b].filter (first · b = .eq) = [a, b] := by
        simp [equal, ReflCmp.compare_self]
      rw [both] at kept
      exact pairwise_iff_forall_sublist.mp sorted.ordered
        (kept.trans filter_sublist) greater
  stable c member := by
    have outer : StablyOrdered first ys _ := stablyOrdered_insertionSort ys
    have split : ∀ a, decide (compareLex first second a c = .eq) =
        (decide (first a c = .eq) && decide (second a c = .eq)) := by
      intro a
      rw [compareLex, ← Bool.decide_and, decide_eq_decide, Ordering.then_eq_eq]
    simp only [split]
    rw [filter_filter_eq (outer.stable c (sorted.perm.mem_iff.mpr member))]
    simp only [Bool.and_comm (decide (first _ c = .eq))]
    exact filter_filter_eq (sorted.stable c member)

theorem stablyOrdered_inTurn (each : ∀ c ∈ cmps, TransCmp c) (xs : List α) :
    StablyOrdered (inTurn cmps) xs
      (cmps.foldr (fun cmp ys => ys.insertionSort (cmp · · ≠ .gt)) xs) := by
  induction cmps with
  | nil => exact ⟨List.Perm.refl _, pairwise_of_forall (by simp [inTurn]), fun _ _ => rfl⟩
  | cons first rest ih =>
    have : TransCmp first := each first (by simp)
    exact (ih fun c member => each c (by simp [member])).insertionSort

theorem StablyOrdered.unique [TransCmp cmp] {zs : List α} (first : StablyOrdered cmp xs ys)
    (second : StablyOrdered cmp xs zs) : ys = zs := by
  have classes : ∀ c ∈ ys, ys.filter (cmp · c = .eq) = zs.filter (cmp · c = .eq) := by
    intro c inside
    have member := first.perm.mem_iff.mp inside
    rw [first.stable c member, second.stable c member]
  have perm := first.perm.trans second.perm.symm
  have sortedY := first.ordered
  have sortedZ := second.ordered
  clear first second
  induction ys generalizing zs with
  | nil => exact perm.nil_eq
  | cons y ys ih =>
    cases zs with
    | nil => exact absurd perm.eq_nil (cons_ne_nil y ys)
    | cons z zs =>
      have eq : cmp z y = .eq := by
        rcases mem_cons.mp (perm.mem_iff.mpr mem_cons_self : z ∈ y :: ys) with rfl | inY
        · exact ReflCmp.compare_self
        · rcases mem_cons.mp (perm.mem_iff.mp mem_cons_self : y ∈ z :: zs) with rfl | inZ
          · exact ReflCmp.compare_self
          · have le := (pairwise_cons.mp sortedY).1 z inY
            have ge := (pairwise_cons.mp sortedZ).1 y inZ
            have swap : cmp y z = (cmp z y).swap := OrientedCmp.eq_swap
            rw [swap] at le
            cases both : cmp z y with
            | lt => simp [both] at le
            | eq => rfl
            | gt => exact absurd both ge
      have here := classes y mem_cons_self
      rw [filter_cons_of_pos (by simp [ReflCmp.compare_self]),
        filter_cons_of_pos (by simp [eq])] at here
      obtain ⟨rfl, -⟩ := cons.inj here
      rw [ih (fun c inside => ?_) perm.cons_inv sortedY.tail sortedZ.tail]
      have both := classes c (mem_cons_of_mem _ inside)
      rw [filter_cons, filter_cons] at both
      split at both
      · exact (cons.inj both).2
      · exact both

end WowDb.Lib

namespace WowDb.Lib

variable {α κ : Type}

def AtMost (cmp : α → α → Option Ordering) (a b : α) : Prop :=
  cmp a b = some .lt ∨ cmp a b = some .eq

instance (cmp : α → α → Option Ordering) (a b : α) : Decidable (AtMost cmp a b) :=
  inferInstanceAs (Decidable (_ ∨ _))

structure PartialCmp (cmp : α → α → Option Ordering) : Prop where
  swap : ∀ a b, cmp b a = (cmp a b).map Ordering.swap
  trans : ∀ a b c, AtMost cmp a b → AtMost cmp b c → AtMost cmp a c

namespace PartialCmp

variable {cmp : α → α → Option Ordering} {a b c : α}

theorem gt_iff (laws : PartialCmp cmp) : cmp b a = some .gt ↔ cmp a b = some .lt := by
  rw [laws.swap a b]
  rcases cmp a b with _ | _ | _ | _ <;> simp

theorem eq_iff (laws : PartialCmp cmp) : cmp b a = some .eq ↔ cmp a b = some .eq := by
  rw [laws.swap a b]
  rcases cmp a b with _ | _ | _ | _ <;> simp

theorem not_atMost_of_lt (laws : PartialCmp cmp) (less : cmp a b = some .lt) :
    ¬ AtMost cmp b a := by
  have greater := laws.gt_iff.mpr less
  rintro (lt | eq)
  · rw [greater] at lt
    cases lt
  · rw [greater] at eq
    cases eq

theorem lt_of_atMost_of_lt (laws : PartialCmp cmp) (le : AtMost cmp a b)
    (less : cmp b c = some .lt) : cmp a c = some .lt := by
  rcases laws.trans a b c le (.inl less) with lt | eq
  · exact lt
  · -- were the ends equal, the greater one would be at most the smaller one
    have back : AtMost cmp c a := .inr (laws.eq_iff.mpr eq)
    exact absurd (laws.trans c a b back le) (laws.not_atMost_of_lt less)

theorem lt_of_lt_of_atMost (laws : PartialCmp cmp) (less : cmp a b = some .lt)
    (le : AtMost cmp b c) : cmp a c = some .lt := by
  rcases laws.trans a b c (.inl less) le with lt | eq
  · exact lt
  · have back : AtMost cmp c a := .inr (laws.eq_iff.mpr eq)
    exact absurd (laws.trans b c a le back) (laws.not_atMost_of_lt less)

variable {mn mx x v : α}

theorem lt_of_upper (laws : PartialCmp cmp) (high : AtMost cmp x mx)
    (above : cmp mx v = some .lt) : cmp x v = some .lt :=
  laws.lt_of_atMost_of_lt high above

theorem gt_of_lower (laws : PartialCmp cmp) (low : AtMost cmp mn x)
    (below : cmp mn v = some .gt) : cmp x v = some .gt :=
  laws.gt_iff.mpr (laws.lt_of_lt_of_atMost (laws.gt_iff.mp below) low)

theorem not_lt_of_lower (laws : PartialCmp cmp) (low : AtMost cmp mn x)
    (least : cmp mn v = some .gt ∨ cmp mn v = some .eq) : cmp x v ≠ some .lt := by
  have le : AtMost cmp v x := by
    rcases least with below | same
    · exact .inl (laws.gt_iff.mp (laws.gt_of_lower low below))
    · exact laws.trans v mn x (.inr (laws.eq_iff.mpr same)) low
  exact fun less => laws.not_atMost_of_lt less le

end PartialCmp

def cmpByKey [Ord κ] (key : α → Option κ) (a b : α) : Option Ordering :=
  match key a, key b with
  | some x, some y => some (compare x y)
  | _, _ => none

theorem atMost_cmpByKey [LinearOrder κ] {key : α → Option κ} {a b : α} :
    AtMost (cmpByKey key) a b ↔ ∃ x y, key a = some x ∧ key b = some y ∧ x ≤ y := by
  unfold AtMost cmpByKey
  cases key a with
  | none => simp
  | some x =>
    cases key b with
    | none => simp
    | some y => simp [compare_lt_iff_lt, le_iff_lt_or_eq]

theorem partialCmp_cmpByKey [LinearOrder κ] (key : α → Option κ) : PartialCmp (cmpByKey key) where
  swap a b := by
    unfold cmpByKey
    cases key a with
    | none => cases key b <;> rfl
    | some x =>
      cases key b with
      | none => rfl
      | some y => exact congrArg some Std.OrientedOrd.eq_swap
  trans a b c first second := by
    obtain ⟨x, y, keyA, keyB, le⟩ := atMost_cmpByKey.mp first
    obtain ⟨y', z, keyB', keyC, le'⟩ := atMost_cmpByKey.mp second
    obtain rfl : y = y' := Option.some.inj (keyB.symm.trans keyB')
    exact atMost_cmpByKey.mpr ⟨x, z, keyA, keyC, le.trans le'⟩

def f64Key (bits : UInt64) : Option Int :=
  let magnitude : Nat := bits.toNat % 2 ^ 63
  if 0x7ff0000000000000 < magnitude then none
  else some (if bits.toNat < 2 ^ 63 then (magnitude : Int) else -(magnitude : Int))

def f64PartialCmp (a b : UInt64) : Option Ordering := cmpByKey f64Key a b

end WowDb.Lib

namespace WowDb.Lib
open List

variable {α κ : Type} [LinearOrder κ] {key : α → κ}

structure StablySorted (key : α → κ) (original arranged : List α) : Prop where
  ascending : arranged.Pairwise fun a b => key a ≤ key b
  sameKey : ∀ k, arranged.filter (key · = k) = original.filter (key · = k)

theorem compareOn_ne_gt (a b : α) : compareOn key a b ≠ .gt ↔ key a ≤ key b := by
  rw [compareOn, ne_eq, compare_gt_iff_gt, not_lt]

theorem compareOn_eq (a b : α) : compareOn key a b = .eq ↔ key a = key b := by
  rw [compareOn, compare_eq_iff_eq]

namespace StablySorted

variable {original xs ys : List α}

theorem stablyOrdered (sorted : StablySorted key original xs) :
    StablyOrdered (compareOn key) original xs where
  perm := by
    classical
    refine perm_iff_count.mpr fun a => ?_
    have same := congrArg (count a) (sorted.sameKey (key a))
    rwa [count_filter (by simp), count_filter (by simp)] at same
  ordered := sorted.ascending.imp (compareOn_ne_gt _ _).mpr
  stable c _ := by simpa only [compareOn_eq] using sorted.sameKey (key c)

theorem unique (first : StablySorted key original xs) (second : StablySorted key original ys) :
    xs = ys :=
  first.stablyOrdered.unique second.stablyOrdered

end StablySorted

theorem stablySorted_insertionSort {r : α → α → Prop} [DecidableRel r]
    (byKey : ∀ a b, r a b ↔ key a ≤ key b) (xs : List α) :
    StablySorted key xs (xs.insertionSort r) := by
  have sorted : StablyOrdered (compareOn key) xs (xs.insertionSort r) := by
    rw [insertionSort_congr fun a _ b _ => (byKey a b).trans (compareOn_ne_gt a b).symm]
    exact stablyOrdered_insertionSort xs
  refine ⟨sorted.ordered.imp fun le => (compareOn_ne_gt _ _).mp le, fun k => ?_⟩
  by_cases present : ∃ c ∈ xs, key c = k
  · obtain ⟨c, member, rfl⟩ := present
    have stable := sorted.stable c member
    simp only [compareOn_eq] at stable
    exact stable
  · -- no element has the key, before or after
    have absent : ∀ c ∈ xs, ¬ decide (key c = k) = true := fun c member same =>
      present ⟨c, member, of_decide_eq_true same⟩
    rw [filter_eq_nil_iff.mpr absent, filter_eq_nil_iff.mpr fun c member =>
      absent c (sorted.perm.mem_iff.mp member)]

end WowDb.Lib
