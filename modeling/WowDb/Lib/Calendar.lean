import Mathlib

/-!
# The Gregorian calendar and tilings of the time line

A tiling is an increasing sequence of start points; its cells are half open.
-/
namespace WowDb.Lib

structure Tiling where
  start : Int → Int
  increasing : ∀ i, start i < start (i + 1)

namespace Tiling

variable (T : Tiling)

def InCell (i t : Int) : Prop := T.start i ≤ t ∧ t < T.start (i + 1)

theorem strictMono : StrictMono T.start := strictMono_int_of_lt_succ T.increasing

theorem cell_unique {i j t : Int} (inI : T.InCell i t) (inJ : T.InCell j t) : i = j := by
  have left : i < j + 1 := T.strictMono.lt_iff_lt.mp (lt_of_le_of_lt inI.1 inJ.2)
  have right : j < i + 1 := T.strictMono.lt_iff_lt.mp (lt_of_le_of_lt inJ.1 inI.2)
  omega

end Tiling

namespace Calendar

def isLeap (y : Int) : Bool := decide (y % 4 = 0 ∧ (y % 100 ≠ 0 ∨ y % 400 = 0))

def yearStart (y : Int) : Int :=
  365 * (y - 1) + (y - 1) / 4 - (y - 1) / 100 + (y - 1) / 400 - 719162

variable (y : Int)

theorem yearStart_succ : yearStart (y + 1) = yearStart y + if isLeap y then 366 else 365 := by
  simp only [yearStart, isLeap, decide_eq_true_eq]
  split <;> omega

def yearOf (day : Int) : Int :=
  let guess := 400 * (day + 719162) / 146097 + 1
  if day < yearStart guess then guess - 1
  else if yearStart (guess + 1) ≤ day then guess + 1
  else guess

variable (day : Int)

theorem yearOf_spec : yearStart (yearOf day) ≤ day ∧ day < yearStart (yearOf day + 1) := by
  simp only [yearOf]
  split
  · next early =>
    simp only [yearStart] at early ⊢
    omega
  · split
    · next late =>
      simp only [yearStart] at late ⊢
      omega
    · omega

def daysBefore (leap : Bool) : Nat → Int
  | 0 | 1 => 0
  | 2 => 31
  | 3 => 59 + leap.toNat
  | 4 => 90 + leap.toNat
  | 5 => 120 + leap.toNat
  | 6 => 151 + leap.toNat
  | 7 => 181 + leap.toNat
  | 8 => 212 + leap.toNat
  | 9 => 243 + leap.toNat
  | 10 => 273 + leap.toNat
  | 11 => 304 + leap.toNat
  | 12 => 334 + leap.toNat
  | _ => 365 + leap.toNat

def monthStart (y : Int) (month : Nat) : Int := yearStart y + daysBefore (isLeap y) month

theorem monthStart_thirteen : monthStart y 13 = yearStart (y + 1) := by
  rw [monthStart, yearStart_succ]
  cases isLeap y <;> rfl

variable {month : Nat}

theorem monthStart_lt (low : 1 ≤ month) (high : month ≤ 12) :
    monthStart y month < monthStart y (month + 1) := by
  have inside : month ∈ List.range' 1 12 := by simp; omega
  simp only [monthStart]
  have table : ∀ leap : Bool, ∀ m ∈ List.range' 1 12, daysBefore leap m < daysBefore leap (m + 1) := by
    decide
  have := table (isLeap y) month inside
  omega

def lastMonth (y day : Int) : (months : Nat) → Nat
  | 0 => 1
  | months + 1 => if monthStart y (months + 1) ≤ day then months + 1 else lastMonth y day months

theorem lastMonth_spec (y day : Int) (begun : yearStart y ≤ day) (months : Nat)
    (positive : 1 ≤ months) (ends : day < monthStart y (months + 1)) :
    1 ≤ lastMonth y day months ∧ lastMonth y day months ≤ months ∧
      monthStart y (lastMonth y day months) ≤ day ∧
      day < monthStart y (lastMonth y day months + 1) := by
  induction months with
  | zero => omega
  | succ months ih =>
    rw [lastMonth]
    split
    · next reached => exact ⟨by omega, by omega, reached, ends⟩
    · next early =>
      -- the first month begins with the year, so the search has not run out
      have more : 1 ≤ months := by
        rcases Nat.eq_zero_or_pos months with rfl | more
        · simp [monthStart, daysBefore] at early
          omega
        · exact more
      obtain ⟨low, high, inside⟩ := ih more (by omega)
      exact ⟨low, by omega, inside⟩

def monthOf (day : Int) : Nat := lastMonth (yearOf day) day 12

theorem monthOf_spec :
    1 ≤ monthOf day ∧ monthOf day ≤ 12 ∧ monthStart (yearOf day) (monthOf day) ≤ day ∧
      day < monthStart (yearOf day) (monthOf day + 1) := by
  obtain ⟨begun, ends⟩ := yearOf_spec day
  rw [← monthStart_thirteen] at ends
  exact lastMonth_spec _ _ begun 12 (by decide) ends

def dayOf (day : Int) : Nat := (day - monthStart (yearOf day) (monthOf day) + 1).toNat

theorem dayOf_spec :
    1 ≤ dayOf day ∧ monthStart (yearOf day) (monthOf day) + (dayOf day - 1) = day := by
  have begun := (monthOf_spec day).2.2.1
  rw [dayOf]
  omega

def monthNumber (day : Int) : Int := 12 * yearOf day + (monthOf day - 1)

def monthNumberStart (i : Int) : Int := monthStart (i / 12) ((i % 12).toNat + 1)

theorem monthNumberStart_eq (low : 1 ≤ month) (high : month ≤ 12) :
    monthNumberStart (12 * y + (month - 1)) = monthStart y month := by
  have year : (12 * y + ((month : Int) - 1)) / 12 = y := by omega
  have rest : ((12 * y + ((month : Int) - 1)) % 12).toNat + 1 = month := by omega
  rw [monthNumberStart, year, rest]

theorem monthNumberStart_next (low : 1 ≤ month) (high : month ≤ 12) :
    monthNumberStart (12 * y + (month - 1) + 1) = monthStart y (month + 1) := by
  rcases Nat.lt_or_ge month 12 with inside | december
  · have shift : 12 * y + ((month : Int) - 1) + 1 = 12 * y + (((month + 1 : Nat) : Int) - 1) := by
      omega
    rw [shift]
    exact monthNumberStart_eq y (by omega) (by omega)
  · obtain rfl : month = 12 := by omega
    rw [show 12 * y + (((12 : Nat) : Int) - 1) + 1 = 12 * (y + 1) + (((1 : Nat) : Int) - 1) by omega,
      monthNumberStart_eq (y + 1) (by decide) (by decide), monthStart_thirteen]
    simp [monthStart, daysBefore]

theorem monthNumberStart_lt (i : Int) : monthNumberStart i < monthNumberStart (i + 1) := by
  have split : i = 12 * (i / 12) + ((((i % 12).toNat + 1 : Nat) : Int) - 1) := by omega
  have low : 1 ≤ (i % 12).toNat + 1 := by omega
  have high : (i % 12).toNat + 1 ≤ 12 := by omega
  rw [split, monthNumberStart_eq _ low high, monthNumberStart_next _ low high]
  exact monthStart_lt _ low high

theorem yearStart_lt : yearStart y < yearStart (y + 1) := by
  rw [yearStart_succ]
  split <;> omega

def inSeconds (start : Int → Int) (increasing : ∀ i, start i < start (i + 1)) : Tiling where
  start i := 86400 * start i
  increasing i := by have := increasing i; omega

theorem yearOf_eq {y day : Int} (begun : yearStart y ≤ day) (ends : day < yearStart (y + 1)) :
    yearOf day = y :=
  Tiling.cell_unique ⟨yearStart, yearStart_lt⟩ (yearOf_spec day) ⟨begun, ends⟩

theorem yearOf_yearStart : yearOf (yearStart y) = y :=
  yearOf_eq (le_refl _) (yearStart_lt y)

theorem yearOf_monthNumberStart (i : Int) : yearOf (monthNumberStart i) = i / 12 := by
  have inside : (i % 12).toNat + 1 ∈ List.range' 1 12 := by simp; omega
  have table : ∀ leap : Bool, ∀ m ∈ List.range' 1 12,
      0 ≤ daysBefore leap m ∧ daysBefore leap m < if leap then 366 else 365 := by
    decide
  obtain ⟨low, high⟩ := table (isLeap (i / 12)) _ inside
  apply yearOf_eq
  · rw [monthNumberStart, monthStart]
    omega
  · rw [yearStart_succ, monthNumberStart, monthStart]
    omega

end Calendar
end WowDb.Lib
