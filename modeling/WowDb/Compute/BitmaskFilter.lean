import WowDb.Lib.Bytes

/-!
# Bitmask filters

`compute-node/src/executor/simd/filter.rs` and the scans of `simd/scan.rs`.
-/
namespace WowDb.Compute
open WowDb.Lib List

variable (test : Int → Bool)

def buildBitmask (values : List Int) : Option Bytes :=
  values.zipIdx.foldlM (fun mask p => if test p.1 then Bitmap.set mask p.2 else some mask)
    (replicate ((values.length + 7) / 8) 0)

def buildBitmaskI64Eq (values : List Int) (target : Int) : Option Bytes :=
  buildBitmask (· == target) values

def buildBitmaskI64Range (values : List Int) (lo hi : Int) : Option Bytes :=
  buildBitmask (fun v => v ≥ lo && v ≤ hi) values

def bitmaskToIndices (mask : Bytes) (n : Nat) : Option (List Nat) :=
  (range n).foldlM (fun result i => mask[i / 8]?.map fun octet =>
    if octet &&& (1 <<< UInt8.ofNat (i % 8)) != 0 then result ++ [i] else result) []

def bitmaskAnd (a b : Bytes) : Bytes := zipWith (· &&& ·) a b

def bitmaskOr (a b : Bytes) : Bytes := zipWith (· ||| ·) a b

inductive Predicate
  | eq (target : Int)
  | range (lo hi : Int)

namespace Predicate

def holds : Predicate → Int → Bool
  | eq target, v => v == target
  | range lo hi, v => v ≥ lo && v ≤ hi

def mask : Predicate → List Int → Option Bytes
  | eq target, values => buildBitmaskI64Eq values target
  | range lo hi, values => buildBitmaskI64Range values lo hi

theorem mask_eq (p : Predicate) (values : List Int) : p.mask values = buildBitmask p.holds values := by
  cases p <;> rfl

end Predicate

/-- The bit of a value is set exactly if the value passes the test. -/
def Selects (values : List Int) (mask : Bytes) : Prop :=
  mask.length = (values.length + 7) / 8 ∧
    ∀ i < values.length, Bitmap.get mask i = some (values[i]?.any test)

theorem foldlM_set (pairs : List (Int × Nat)) (mask : Bytes)
    (inside : ∀ p ∈ pairs, p.2 < 8 * mask.length) :
    ∃ after, pairs.foldlM (fun mask p => if test p.1 then Bitmap.set mask p.2 else some mask) mask =
        some after ∧ after.length = mask.length ∧
      ∀ j, Bitmap.get after j =
        (Bitmap.get mask j).map (· || pairs.any fun p => p.2 == j && test p.1) := by
  induction pairs generalizing mask with
  | nil => exact ⟨mask, rfl, rfl, fun j => by simp⟩
  | cons p rest ih =>
    obtain ⟨here, later⟩ := forall_mem_cons.mp inside
    rw [foldlM_cons]
    by_cases pass : test p.1
    · obtain ⟨next, ok⟩ := Option.ne_none_iff_exists'.mp
        (mt (Bitmap.set_eq_none_iff mask p.2).mp (by omega))
      have length := Bitmap.length_of_set ok
      obtain ⟨after, found, same, bits⟩ := ih next (by rwa [length])
      refine ⟨after, ?_, same.trans length, fun j => ?_⟩
      · rw [if_pos pass, ok]
        exact found
      · rw [bits, Bitmap.get_of_set ok]
        split
        · next here_j =>
          obtain ⟨bit, known⟩ := Option.ne_none_iff_exists'.mp
            (mt (Bitmap.get_eq_none_iff mask j).mp (by omega))
          subst here_j
          simp [known, pass]
        · next other =>
          have apart : (p.2 == j) = false := beq_false_of_ne (Ne.symm other)
          simp [apart]
    · obtain ⟨after, found, same, bits⟩ := ih mask later
      refine ⟨after, ?_, same, fun j => ?_⟩
      · rw [if_neg pass]
        exact found
      · rw [bits]
        simp [pass]

theorem buildBitmask_selects (values : List Int) :
    ∃ mask, buildBitmask test values = some mask ∧ Selects test values mask := by
  obtain ⟨mask, built, length, bits⟩ := foldlM_set test values.zipIdx
    (replicate ((values.length + 7) / 8) 0) (fun p inside => by
      have bound := snd_lt_of_mem_zipIdx inside
      rw [length_replicate]
      omega)
  rw [length_replicate] at length
  refine ⟨mask, built, length, fun i low => ?_⟩
  have zero : Bitmap.get (replicate ((values.length + 7) / 8) 0) i = some false := by
    rw [Bitmap.get, getElem?_replicate_of_lt (by omega)]
    simp
  rw [bits, zero, Option.map_some, Bool.false_or, Option.some.injEq, Bool.eq_iff_iff]
  simp only [any_eq_true, Bool.and_eq_true, beq_iff_eq, Prod.exists, mem_zipIdx_iff_getElem?, Option.any_eq_true]
  constructor
  · rintro ⟨v, _, there, rfl, pass⟩
    exact ⟨v, there, pass⟩
  · rintro ⟨v, there, pass⟩
    exact ⟨v, i, there, rfl, pass⟩

theorem octet_test (octet : UInt8) (i : Fin 8) :
    (octet &&& (1 <<< UInt8.ofNat i) != 0) = ((octet >>> UInt8.ofNat i) &&& 1 == 1) := by
  cases octet with
  | ofBitVec b =>
    revert b i
    decide +kernel

theorem bitmaskToIndices_eq {mask : Bytes} {selected : Nat → Bool} {n : Nat}
    (bits : ∀ i < n, Bitmap.get mask i = some (selected i)) :
    bitmaskToIndices mask n = some ((range n).filter selected) := by
  induction n with
  | zero => rfl
  | succ n ih =>
    have before := ih fun i low => bits i (by omega)
    rw [bitmaskToIndices] at before ⊢
    obtain ⟨octet, here, bit⟩ := Option.map_eq_some_iff.mp (bits n (by omega))
    have tested := octet_test octet ⟨n % 8, by omega⟩
    rw [range_succ, foldlM_append, before, filter_append]
    simp only [bind, Option.bind_some, foldlM_cons, foldlM_nil, here, Option.map_some, pure, tested, bit]
    cases chosen : selected n <;> simp [chosen]

theorem selects_zipWith {both : Bool → Bool → Bool} {op : UInt8 → UInt8 → UInt8}
    (bit : ∀ (x y : UInt8) (i : Fin 8), ((op x y >>> UInt8.ofNat i) &&& 1 == 1) =
      both ((x >>> UInt8.ofNat i) &&& 1 == 1) ((y >>> UInt8.ofNat i) &&& 1 == 1))
    {p q : Int → Bool} {values : List Int} {a b : Bytes} (first : Selects p values a)
    (second : Selects q values b) :
    ∀ i < values.length, Bitmap.get (zipWith op a b) i =
      some (values[i]?.any fun v => both (p v) (q v)) := by
  intro i low
  obtain ⟨x, hereX, bitX⟩ := Option.map_eq_some_iff.mp (first.2 i low)
  obtain ⟨y, hereY, bitY⟩ := Option.map_eq_some_iff.mp (second.2 i low)
  have joined := bit x y ⟨i % 8, by omega⟩
  rw [Bitmap.get, getElem?_zipWith, hereX, hereY, Option.map_some]
  rw [joined, bitX, bitY, getElem?_eq_getElem low]
  rfl

/-- The rows that two filters select together. -/
theorem bitmask_filters_compose (p q : Predicate) (values : List Int) :
    ∃ a b, p.mask values = some a ∧ q.mask values = some b ∧
      bitmaskToIndices (bitmaskAnd a b) values.length = some ((range values.length).filter fun i =>
        values[i]?.any fun v => p.holds v && q.holds v) ∧
      bitmaskToIndices (bitmaskOr a b) values.length = some ((range values.length).filter fun i =>
        values[i]?.any fun v => p.holds v || q.holds v) := by
  obtain ⟨a, maskA, first⟩ := buildBitmask_selects p.holds values
  obtain ⟨b, maskB, second⟩ := buildBitmask_selects q.holds values
  refine ⟨a, b, p.mask_eq values ▸ maskA, q.mask_eq values ▸ maskB, ?_, ?_⟩
  · refine bitmaskToIndices_eq (selects_zipWith (fun x y i => ?_) first second)
    rw [Bitmap.octet_bit, Bitmap.octet_bit, Bitmap.octet_bit, UInt8.toBitVec_and, BitVec.getLsbD_and]
  · refine bitmaskToIndices_eq (selects_zipWith (fun x y i => ?_) first second)
    rw [Bitmap.octet_bit, Bitmap.octet_bit, Bitmap.octet_bit, UInt8.toBitVec_or, BitVec.getLsbD_or]

/-- `scan.rs` collects the rows without a mask. -/
def scanI64 (values : List Int) : List Nat :=
  values.zipIdx.filterMap fun p => if test p.1 then some p.2 else none

def scanI64Range (values : List Int) (lo hi : Int) : List Nat :=
  scanI64 (fun v => v ≥ lo && v ≤ hi) values

def scanI64Eq (values : List Int) (target : Int) : List Nat := scanI64 (· == target) values

theorem scanI64_eq_filter (values : List Int) :
    scanI64 test values = (range values.length).filter fun i => values[i]?.any test := by
  rw [range_eq_range', ← zipIdx_map_snd, filter_map, ← filterMap_eq_map, ← filterMap_eq_filter,
    filterMap_filterMap]
  refine filterMap_congr fun p member => ?_
  have here := mem_zipIdx_iff_getElem?.mp member
  by_cases pass : test p.1 <;> simp [Option.guard, here, pass]

/-- Both ways to filter a column select the same rows. -/
theorem mask_rows_eq_scan (values : List Int) (lo hi target : Int) :
    (buildBitmaskI64Range values lo hi).bind (bitmaskToIndices · values.length) =
        some (scanI64Range values lo hi) ∧
      (buildBitmaskI64Eq values target).bind (bitmaskToIndices · values.length) =
        some (scanI64Eq values target) := by
  have rows : ∀ test, (buildBitmask test values).bind (bitmaskToIndices · values.length) =
      some (scanI64 test values) := by
    intro test
    obtain ⟨mask, built, selects⟩ := buildBitmask_selects test values
    rw [built, scanI64_eq_filter]
    exact bitmaskToIndices_eq selects.2
  exact ⟨rows _, rows _⟩

end WowDb.Compute
