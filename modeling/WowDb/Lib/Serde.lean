import WowDb.Lib.Json
import WowDb.Lib.Text

/-!
# Records as JSON values

Writers and readers for the shapes that derived serialisation uses: unsigned integers, strings,
sequences, options, fields looked up by name, and identifiers written in hexadecimal.
-/
namespace WowDb.Lib.Json
open List

def ofNat (n : Nat) : Json := .num n

def asNat : Json → Option Nat
  | .num n => if 0 ≤ n then some n.toNat else none
  | _ => none

def asInt : Json → Option Int
  | .num n => some n
  | _ => none

def asBool : Json → Option Bool
  | .bool b => some b
  | _ => none

def ofString (s : String) : Json := .str s.toList

def asString : Json → Option String
  | .str s => some (String.ofList s)
  | _ => none

def ofList {α : Type} (write : α → Json) (xs : List α) : Json := .arr (xs.map write)

def asList {α : Type} (read : Json → Option α) : Json → Option (List α)
  | .arr items => items.mapM read
  | _ => none

def ofOption {α : Type} (write : α → Json) : Option α → Json
  | none => .null
  | some x => write x

def asOption {α : Type} (read : Json → Option α) : Json → Option (Option α)
  | .null => some none
  | v => (read v).map some

def ofOctet (b : UInt8) : Json := ofNat b.toNat

variable (v : Json)

def asOctet : Option UInt8 := do
  let n ← asNat v
  if n < 256 then some (UInt8.ofNat n) else none

def record (fields : List (String × Json)) : Json := .obj (fields.map fun f => (f.1.toList, f.2))

def field (name : String) : Json → Option Json
  | .obj fields => fields.lookup name.toList
  | _ => none

@[simp] theorem asNat_ofNat (n : Nat) : asNat (ofNat n) = some n := by
  simp [asNat, ofNat]

@[simp] theorem asString_ofString (s : String) : asString (ofString s) = some s := by
  simp [asString, ofString]

@[simp] theorem asOctet_ofOctet (b : UInt8) : asOctet (ofOctet b) = some b := by
  have bound := b.toNat_lt
  simp [asOctet, ofOctet, bound]

variable {α : Type}

variable {read : Json → Option α} {write : α → Json}

theorem asList_ofList (inverse : ∀ x, read (write x) = some x) (xs : List α) :
    asList read (ofList write xs) = some xs := by
  simp only [asList, ofList]
  induction xs with
  | nil => rfl
  | cons x xs ih => simp [mapM_cons, inverse, ih]

theorem asList_ofList_ite {readable : α → Bool}
    (inverse : ∀ x, read (write x) = if readable x then some x else none) (xs : List α) :
    asList read (ofList write xs) = if xs.all readable then some xs else none := by
  simp only [asList, ofList]
  induction xs with
  | nil => rfl
  | cons x xs ih =>
    simp only [map_cons, mapM_cons, ih, inverse, all_cons]
    by_cases first : readable x = true <;> by_cases others : xs.all readable = true <;>
      simp [first, others]

@[simp] theorem asOption_ofString (s : Option String) :
    asOption asString (ofOption ofString s) = some s := by
  cases s with
  | none => rfl
  | some s => simp [asOption, ofOption, ofString, asString]

@[simp] theorem asOption_num (n : Option Int) : asOption asInt (ofOption .num n) = some n := by
  cases n <;> rfl

theorem field_record (name : String) (fields : List (String × Json)) :
    field name (record fields) = fields.lookup name := by
  simp only [field, record]
  induction fields with
  | nil => rfl
  | cons f rest ih =>
    obtain ⟨k, v⟩ := f
    by_cases equal : name = k
    · subst equal
      simp [lookup]
    · have different : name.toList ≠ k.toList := fun h => equal (String.toList_injective h)
      have left : (name.toList == k.toList) = false := by simpa using different
      have right : (name == k) = false := by simpa using equal
      simp only [map_cons, lookup, left, right, ih]

theorem mapM_fields (inverse : ∀ x, read (write x) = some x) (entries : List (String × α)) :
    ((entries.map fun e => (e.1, write e.2)).map fun f => (f.1.toList, f.2)).mapM
      (fun f => (read f.2).map fun value => (String.ofList f.1, value)) = some entries := by
  induction entries with
  | nil => rfl
  | cons e rest ih => simp_all [mapM_cons]

def asU32 : Option UInt32 := ((asNat v).filter (· < 2 ^ 32)).map UInt32.ofNat

def asU64 : Option UInt64 := ((asNat v).filter (· < 2 ^ 64)).map UInt64.ofNat

@[simp] theorem asU32_ofNat (n : UInt32) : asU32 (ofNat n.toNat) = some n := by
  have bound := n.toNat_lt
  simp [asU32, Option.filter, bound]

@[simp] theorem asU64_ofNat (n : UInt64) : asU64 (ofNat n.toNat) = some n := by
  have bound := n.toNat_lt
  simp [asU64, Option.filter, bound]

def hexFixed : Nat → Nat → List Char
  | 0, _ => []
  | width + 1, n => hexFixed width (n / 16) ++ [hexDigit (n % 16)]

def readHex (digits : List Char) : Option Nat :=
  digits.foldlM (fun acc c => (hexValue c).map fun v => acc * 16 + v) 0

variable (width n : Nat)

@[simp] theorem length_hexFixed : (hexFixed width n).length = width := by
  induction width generalizing n with
  | zero => rfl
  | succ width ih => simp [hexFixed, ih]

theorem readHex_hexFixed : readHex (hexFixed width n) = some (n % 16 ^ width) := by
  induction width generalizing n with
  | zero => simp [hexFixed, readHex, Nat.mod_one]
  | succ width ih =>
    have digit : hexValue (hexDigit (n % 16)) = some (n % 16) :=
      hexValue_hexDigit (Nat.mod_lt n (by decide))
    have high := ih (n / 16)
    simp only [readHex] at high ⊢
    simp only [hexFixed, foldlM_append, high, foldlM_cons, foldlM_nil, digit,
      Option.map_some, Option.bind_eq_bind, Option.bind_some, Option.pure_def, Option.some.injEq]
    rw [Nat.pow_succ', Nat.mod_mul]
    omega

theorem hexDigit_ne_hyphen (n : Nat) (bound : n < 16) : hexDigit n ≠ '-' := by
  revert n
  decide

theorem hyphen_not_mem_hexFixed : '-' ∉ hexFixed width n := by
  induction width generalizing n with
  | zero => simp [hexFixed]
  | succ width ih =>
    simp only [hexFixed, mem_append, mem_singleton, not_or]
    refine ⟨ih (n / 16), ?_⟩
    exact (hexDigit_ne_hyphen (n % 16) (Nat.mod_lt n (by decide))).symm

def hyphenate : List Nat → List Char → List Char
  | [], digits => digits
  | k :: groups, digits => digits.take k ++ '-' :: hyphenate groups (digits.drop k)

theorem filter_hyphenate (groups : List Nat) (digits : List Char) (free : '-' ∉ digits) :
    (hyphenate groups digits).filter (· ≠ '-') = digits := by
  induction groups generalizing digits with
  | nil =>
    refine filter_eq_self.mpr fun c member => ?_
    have different : c ≠ '-' := fun equal => free (equal ▸ member)
    simpa using different
  | cons k groups ih =>
    have tail := ih (digits.drop k) fun member => free (mem_of_mem_drop member)
    have head : (digits.take k).filter (· ≠ '-') = digits.take k := by
      refine filter_eq_self.mpr fun c member => ?_
      have different : c ≠ '-' := fun equal => free (equal ▸ mem_of_mem_take member)
      simpa using different
    simp only [hyphenate, filter_append, head, filter_cons, ne_eq, not_true_eq_false,
      decide_false, Bool.false_eq_true, if_false] at tail ⊢
    rw [tail, take_append_drop]

def ofUuid (u : BitVec 128) : Json := .str (hyphenate [8, 4, 4, 4] (hexFixed 32 u.toNat))

def asUuid : Option (BitVec 128) := do
  let text ← asString v
  let digits := text.toList.filter (· ≠ '-')
  if digits.length = 32 then (readHex digits).map (BitVec.ofNat 128) else none

@[simp] theorem asUuid_ofUuid (u : BitVec 128) : asUuid (ofUuid u) = some u := by
  have digits := filter_hyphenate [8, 4, 4, 4] _ (hyphen_not_mem_hexFixed 32 u.toNat)
  have value := readHex_hexFixed 32 u.toNat
  have bound : u.toNat % 16 ^ 32 = u.toNat := Nat.mod_eq_of_lt u.isLt
  rw [bound] at value
  simp only [asUuid, ofUuid, asString, Option.bind_eq_bind, Option.bind_some,
    String.toList_ofList, digits, length_hexFixed, if_true, value, Option.map_some,
    BitVec.ofNat_toNat, BitVec.setWidth_eq]

end WowDb.Lib.Json

namespace WowDb.Lib

structure Codec (α : Type) where
  write : α → Bytes
  read : Bytes → Option α
  read_write : ∀ a, read (write a) = some a

def Codec.json {α : Type} (toJson : α → Json) (ofJson : Json → Option α)
    (inverse : ∀ a, ofJson (toJson a) = some a) : Codec α where
  write a := Text.encode (Json.print (toJson a))
  read octets := (Text.decode octets).bind fun text => (Json.parse text).bind ofJson
  read_write a := by
    rw [Text.decode_encode, Option.bind_some, Json.parse_print, Option.bind_some, inverse]

end WowDb.Lib
