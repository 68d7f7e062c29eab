import Mathlib

/-!
# Non-negative binary64 values

Every finite non-negative double is a natural number of units `2 ^ -1074`, so conversion,
multiplication and division are one exact rounding of a fraction of units to 53 significant bits,
ties to even.
-/
namespace WowDb.Lib

inductive F64 where
  | finite (units : Nat) | infinity | nan
  deriving DecidableEq

namespace F64

def one : Nat := 2 ^ 1074

def maxFinite : Nat := (2 ^ 53 - 1) * 2 ^ 2045

def round (num den : Nat) : F64 :=
  let width := den * 2 ^ ((num / den).log2 - 52)
  let k := num / width
  let rest := num % width
  let up := width < 2 * rest || (2 * rest == width && k % 2 == 1)
  let units := (if up then k + 1 else k) * 2 ^ ((num / den).log2 - 52)
  if units ≤ maxFinite then .finite units else .infinity

def ofNat (n : Nat) : F64 := round (n * one) 1

def div : F64 → F64 → F64
  | .nan, _ => .nan
  | _, .nan => .nan
  | .infinity, .infinity => .nan
  | .infinity, .finite _ => .infinity
  | .finite _, .infinity => .finite 0
  | .finite a, .finite 0 => if a = 0 then .nan else .infinity
  | .finite a, .finite (b + 1) => round (a * one) (b + 1)

def mul : F64 → F64 → F64
  | .nan, _ => .nan
  | _, .nan => .nan
  | .infinity, .finite 0 => .nan
  | .finite 0, .infinity => .nan
  | .infinity, _ => .infinity
  | _, .infinity => .infinity
  | .finite a, .finite b => round (a * b) one

def roundU32 : F64 → Nat
  | .nan => 0
  | .infinity => 2 ^ 32 - 1
  | .finite a => min ((2 * a + one) / (2 * one)) (2 ^ 32 - 1)

def partialCmp : F64 → F64 → Option Ordering
  | .nan, _ => none
  | _, .nan => none
  | .infinity, .infinity => some .eq
  | .infinity, .finite _ => some .gt
  | .finite _, .infinity => some .lt
  | .finite a, .finite b => some (compare a b)

variable (a b : F64)

def ge : Bool :=
  match partialCmp a b with
  | some .gt | some .eq => true
  | _ => false

def gt : Bool := partialCmp a b == some .gt

def le : Bool := ge b a

variable {a b}

/-- The comparison that takes NaN for equal. -/
theorem getD_partialCmp_eq_gt : (partialCmp a b).getD .eq = .gt ↔ gt a b = true := by
  unfold gt
  cases partialCmp a b <;> simp

theorem gt_trans {c : F64} (first : gt a b = true) (second : gt b c = true) : gt a c = true := by
  cases a <;> cases b <;> cases c <;>
    simp_all [gt, partialCmp, Nat.compare_eq_gt]
  omega

/-- Only NaN is comparable with nothing. -/
theorem gt_or_gt {c : F64} (number : b ≠ .nan) (beyond : gt a c = true) :
    gt a b = true ∨ gt b c = true := by
  cases a <;> cases b <;> cases c <;>
    simp_all [gt, partialCmp, Nat.compare_eq_gt]
  omega

example : div (ofNat 1) (ofNat 3) = .finite (6004799503160661 * 2 ^ 1020) := by decide +kernel
example : ge (div (ofNat 4) (ofNat 4)) (ofNat 1) = true := by decide +kernel

end F64
end WowDb.Lib
