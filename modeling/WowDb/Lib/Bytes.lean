import Mathlib

/-!
# Byte strings

Octets are `UInt8`; byte strings are lists compared lexicographically.
-/
namespace WowDb.Lib
open List

abbrev Bytes := List UInt8

instance instLinearOrderUInt8 : LinearOrder UInt8 where
  le_refl := UInt8.le_refl
  le_trans := fun _ _ _ => UInt8.le_trans
  le_antisymm := fun _ _ => UInt8.le_antisymm
  le_total := UInt8.le_total
  lt_iff_le_not_ge a b := by
    rw [UInt8.le_iff_toNat_le, UInt8.le_iff_toNat_le, UInt8.lt_iff_toNat_lt]
    omega
  toDecidableLE := inferInstance
  toDecidableLT := inferInstance

namespace Bytes

def leBytes : Nat → Nat → Bytes
  | 0, _ => []
  | width + 1, n => UInt8.ofNat (n % 256) :: leBytes width (n / 256)

def ofLeBytes : Bytes → Nat
  | [] => 0
  | b :: rest => b.toNat + 256 * ofLeBytes rest

def ofBeBytes (bs : Bytes) : Nat := ofLeBytes bs.reverse

@[simp] theorem length_leBytes (width n : Nat) : (leBytes width n).length = width := by
  induction width generalizing n with
  | zero => rfl
  | succ width ih => simp [leBytes, ih]

theorem ofLeBytes_leBytes (width n : Nat) : ofLeBytes (leBytes width n) = n % 256 ^ width := by
  induction width generalizing n with
  | zero => simp [leBytes, ofLeBytes, Nat.mod_one]
  | succ width ih =>
    have hb : (UInt8.ofNat (n % 256)).toNat = n % 256 := by
      rw [UInt8.toNat_ofNat']
      omega
    rw [leBytes, ofLeBytes, ih, hb, Nat.pow_succ', Nat.mod_mul]

theorem ofLeBytes_leBytes_of_lt {width n : Nat} (h : n < 256 ^ width) :
    ofLeBytes (leBytes width n) = n := by
  rw [ofLeBytes_leBytes, Nat.mod_eq_of_lt h]

variable (bs : Bytes)

theorem ofLeBytes_lt : ofLeBytes bs < 256 ^ bs.length := by
  induction bs with
  | nil => simp [ofLeBytes]
  | cons b rest ih =>
    have hb := b.toNat_lt
    rw [ofLeBytes, length_cons, Nat.pow_succ]
    omega

variable {bs} in
theorem leBytes_ofLeBytes {width : Nat} (h : bs.length = width) :
    leBytes width (ofLeBytes bs) = bs := by
  subst h
  induction bs with
  | nil => rfl
  | cons b rest ih =>
    have small := b.toNat_lt
    have low : (b.toNat + 256 * ofLeBytes rest) % 256 = b.toNat := by omega
    have high : (b.toNat + 256 * ofLeBytes rest) / 256 = ofLeBytes rest := by omega
    rw [length_cons, ofLeBytes, leBytes, low, high, ih, UInt8.ofNat_toNat]

theorem ofLeBytes_append (b : UInt8) :
    ofLeBytes (bs ++ [b]) = ofLeBytes bs + 256 ^ bs.length * b.toNat := by
  induction bs with
  | nil => simp [ofLeBytes]
  | cons c rest ih =>
    rw [cons_append, ofLeBytes, ih, ofLeBytes, length_cons]
    ring

theorem ofBeBytes_cons (b : UInt8) (bs : Bytes) :
    ofBeBytes (b :: bs) = ofBeBytes bs + 256 ^ bs.length * b.toNat := by
  rw [ofBeBytes, reverse_cons, ofLeBytes_append, length_reverse]
  rfl

theorem ofBeBytes_lt : ofBeBytes bs < 256 ^ bs.length := by
  have bound := ofLeBytes_lt bs.reverse
  rwa [length_reverse] at bound

variable {n : Nat}

theorem lt_of_ofBeBytes_take_lt {a b : Bytes} (longA : n ≤ a.length)
    (longB : n ≤ b.length) (less : ofBeBytes (a.take n) < ofBeBytes (b.take n)) : a < b := by
  induction n generalizing a b with
  | zero => simp at less
  | succ n ih =>
    cases a with
    | nil => simp at longA
    | cons x a =>
      cases b with
      | nil => simp at longB
      | cons y b =>
        rw [length_cons, Nat.succ_le_succ_iff] at longA longB
        simp only [take_succ_cons, ofBeBytes_cons, length_take,
          Nat.min_eq_left longA, Nat.min_eq_left longB] at less
        have small := ofBeBytes_lt (b.take n)
        rw [length_take, Nat.min_eq_left longB] at small
        rw [cons_lt_cons_iff]
        rcases Nat.lt_trichotomy x.toNat y.toNat with first | same | first
        · exact Or.inl (UInt8.lt_iff_toNat_lt.mpr first)
        · refine Or.inr ⟨UInt8.toNat_inj.mp same, ih longA longB ?_⟩
          rw [same] at less
          omega
        · have above : 256 ^ n * (y.toNat + 1) ≤ 256 ^ n * x.toNat := Nat.mul_le_mul_left _ first
          rw [Nat.mul_add, Nat.mul_one] at above
          omega

theorem ofBeBytes_take_le {a b : Bytes} (longA : n ≤ a.length) (longB : n ≤ b.length)
    (le : a ≤ b) : ofBeBytes (a.take n) ≤ ofBeBytes (b.take n) :=
  Nat.le_of_not_lt fun less => not_lt_of_ge le (lt_of_ofBeBytes_take_lt longB longA less)

/-- A read of exactly `n` octets. -/
def readExact (n : Nat) (bs : Bytes) : Option (Bytes × Bytes) :=
  if n ≤ bs.length then some (bs.take n, bs.drop n) else none

theorem readExact_append (a b : Bytes) : readExact a.length (a ++ b) = some (a, b) := by
  simp [readExact]

theorem readExact_of_length {a : Bytes} (h : a.length = n) (b : Bytes) :
    readExact n (a ++ b) = some (a, b) := by
  subst h
  exact readExact_append a b

theorem readExact_some {bs a rest : Bytes} (h : readExact n bs = some (a, rest)) :
    bs = a ++ rest ∧ a.length = n := by
  unfold readExact at h
  split at h
  · simp only [Option.some.injEq, Prod.mk.injEq] at h
    obtain ⟨rfl, rfl⟩ := h
    simp [*]
  · cases h

end Bytes
end WowDb.Lib

namespace WowDb.Lib.Bitmap

def get (bits : Bytes) (i : Nat) : Option Bool :=
  bits[i / 8]?.map fun b => (b >>> UInt8.ofNat (i % 8)) &&& 1 == 1

def set (bits : Bytes) (i : Nat) : Option Bytes :=
  bits[i / 8]?.map fun b => bits.set (i / 8) (b ||| (1 <<< UInt8.ofNat (i % 8)))

def members (bits : Bytes) : Set Nat := {i | get bits i = some true}

theorem octet_bit (b : UInt8) (i : Fin 8) :
    ((b >>> UInt8.ofNat i) &&& 1 == 1) = b.toBitVec.getLsbD i := by
  cases b with
  | ofBitVec b =>
    cases b with
    | ofFin b =>
      revert b i
      decide +kernel

theorem shifted_one_bit (i j : Fin 8) :
    ((1 : UInt8) <<< UInt8.ofNat i).toBitVec.getLsbD j = decide (j = i) := by
  revert i j
  decide +kernel

theorem octet_bit_or (b : UInt8) (i j : Fin 8) :
    (((b ||| (1 <<< UInt8.ofNat i)) >>> UInt8.ofNat j) &&& 1 == 1) =
      (((b >>> UInt8.ofNat j) &&& 1 == 1) || decide (j = i)) := by
  rw [octet_bit, octet_bit, UInt8.toBitVec_or, BitVec.getLsbD_or, shifted_one_bit]

variable (bits : Bytes)

theorem get_eq_none_iff (i : Nat) : get bits i = none ↔ 8 * bits.length ≤ i := by
  rw [get, Option.map_eq_none_iff, List.getElem?_eq_none_iff]
  omega

theorem set_eq_none_iff (i : Nat) : set bits i = none ↔ 8 * bits.length ≤ i := by
  rw [set, Option.map_eq_none_iff, List.getElem?_eq_none_iff]
  omega

theorem get_of_set {bits after : Bytes} {i : Nat} (ok : set bits i = some after) (j : Nat) :
    get after j = if j = i then some true else get bits j := by
  obtain ⟨b, here, rfl⟩ := Option.map_eq_some_iff.mp ok
  obtain ⟨inside, -⟩ := List.getElem?_eq_some_iff.mp here
  by_cases sameOctet : i / 8 = j / 8
  · have bit := octet_bit_or b ⟨i % 8, Nat.mod_lt i (by decide)⟩ ⟨j % 8, Nat.mod_lt j (by decide)⟩
    have same : (j = i) ↔ j % 8 = i % 8 := by omega
    simp only [Fin.mk.injEq] at bit
    simp only [get, ← sameOctet, List.getElem?_set_self inside, here, Option.map_some, bit, same]
    by_cases equal : j % 8 = i % 8
    · simp [equal]
    · simp [equal]
  · have different : j ≠ i := by
      rintro rfl
      exact sameOctet rfl
    simp only [get, List.getElem?_set_ne sameOctet, if_neg different]

theorem length_of_set {bits after : Bytes} {i : Nat} (ok : set bits i = some after) :
    after.length = bits.length := by
  obtain ⟨b, -, rfl⟩ := Option.map_eq_some_iff.mp ok
  exact List.length_set

theorem members_of_set {bits after : Bytes} {i : Nat} (ok : set bits i = some after) :
    members after = insert i (members bits) := by
  ext j
  rw [members, Set.mem_ofPred_eq, get_of_set ok j, Set.mem_insert_iff]
  by_cases same : j = i
  · simp [same]
  · simp [same, members]

def setAll (bits : Bytes) (positions : List Nat) : Option Bytes := positions.foldlM set bits

def getAll (bits : Bytes) : List Nat → Option Bool
  | [] => some true
  | i :: rest => (get bits i).bind fun bit => if bit then getAll bits rest else some false

variable {positions : List Nat}

theorem setAll_spec (inside : ∀ i ∈ positions, i < 8 * bits.length) :
    ∃ after, setAll bits positions = some after ∧ after.length = bits.length ∧
      members after = members bits ∪ {i | i ∈ positions} := by
  induction positions generalizing bits with
  | nil => exact ⟨bits, rfl, rfl, by simp⟩
  | cons i rest ih =>
    cases first : set bits i with
    | none =>
      have outside := (set_eq_none_iff bits i).mp first
      exact absurd (inside i (by simp)) (by omega)
    | some next =>
      have length := length_of_set first
      obtain ⟨after, later, same, added⟩ := ih next fun j member => by
        rw [length]
        exact inside j (by simp [member])
      refine ⟨after, ?_, same.trans length, ?_⟩
      · simpa only [setAll, List.foldlM_cons, first, Option.bind_eq_bind, Option.bind_some] using later
      · rw [added, members_of_set first]
        ext j
        simp only [Set.mem_union, Set.mem_insert_iff, Set.mem_ofPred_eq, List.mem_cons]
        tauto

theorem getAll_of_members {bits : Bytes}
    (all : ∀ i ∈ positions, i ∈ members bits) : getAll bits positions = some true := by
  induction positions with
  | nil => rfl
  | cons i rest ih =>
    have first : get bits i = some true := all i (by simp)
    simp only [getAll, first, Option.bind_some, if_true]
    exact ih fun j member => all j (by simp [member])

theorem getAll_eq_none_iff (positions : List Nat) :
    getAll bits positions = none ↔ ∃ before i after, positions = before ++ i :: after ∧
      (∀ j ∈ before, j ∈ members bits) ∧ 8 * bits.length ≤ i := by
  induction positions with
  | nil => simp [getAll]
  | cons i rest ih =>
    cases first : get bits i with
    | none =>
      have outside := (get_eq_none_iff bits i).mp first
      refine iff_of_true (by simp [getAll, first]) ⟨[], i, rest, rfl, by simp, outside⟩
    | some bit =>
      have inside : ¬ 8 * bits.length ≤ i := fun outside => by
        rw [(get_eq_none_iff bits i).mpr outside] at first
        cases first
      simp only [getAll, first, Option.bind_some]
      constructor
      · intro fails
        cases bit with
        | false => cases fails
        | true =>
          obtain ⟨before, j, after, split, set, outside⟩ := ih.mp fails
          refine ⟨i :: before, j, after, by rw [split]; rfl, ?_, outside⟩
          rintro k (_ | ⟨_, member⟩)
          · exact first
          · exact set k member
      · rintro ⟨before, j, after, split, set, outside⟩
        cases before with
        | nil =>
          obtain ⟨rfl, -⟩ := List.cons.inj split
          exact absurd outside inside
        | cons k before =>
          obtain ⟨rfl, tail⟩ := List.cons.inj split
          have isSet : get bits i = some true := set i (by simp)
          rw [first, Option.some.injEq] at isSet
          rw [isSet, if_pos rfl]
          exact ih.mpr ⟨before, j, after, tail, fun l member => set l (by simp [member]), outside⟩

end WowDb.Lib.Bitmap
