import WowDb.Lib.Bytes

/-!
# Signed 64-bit integers

Their order, the least and the greatest of a list as kept along it, and their eight octets
with the least significant first.
-/
namespace WowDb.Lib

instance instLinearOrderInt64 : LinearOrder Int64 where
  toOrd := inferInstance
  toMin := inferInstance
  toMax := inferInstance
  le_refl := Int64.le_refl
  le_trans _ _ _ := Int64.le_trans
  le_antisymm _ _ := Int64.le_antisymm
  le_total := Int64.le_total
  lt_iff_le_not_ge a b := by
    rw [Int64.le_iff_toInt_le, Int64.le_iff_toInt_le, Int64.lt_iff_toInt_lt]
    omega
  toDecidableEq := inferInstance
  toDecidableLE := inferInstance
  toDecidableLT := inferInstance

def leastWith (least : Option Int64) (v : Int64) : Int64 := least.elim v fun m => min m v

def greatestWith (greatest : Option Int64) (v : Int64) : Int64 := greatest.elim v fun m => max m v

theorem min?_append_singleton (values : List Int64) (v : Int64) :
    (values ++ [v]).min? = some (leastWith values.min? v) := by
  cases values with
  | nil => rfl
  | cons first rest => simp [List.min?, leastWith]

theorem max?_append_singleton (values : List Int64) (v : Int64) :
    (values ++ [v]).max? = some (greatestWith values.max? v) := by
  cases values with
  | nil => rfl
  | cons first rest => simp [List.max?, greatestWith]

variable (v : Int64)

def int64Bytes : Bytes := Bytes.leBytes 8 v.toBitVec.toNat

def int64OfBytes (bs : Bytes) : Int64 := .ofBitVec (.ofNat 64 (Bytes.ofLeBytes bs))

@[simp] theorem length_int64Bytes : (int64Bytes v).length = 8 :=
  Bytes.length_leBytes 8 _

theorem int64OfBytes_int64Bytes : int64OfBytes (int64Bytes v) = v := by
  have bound : v.toBitVec.toNat < 256 ^ 8 := v.toBitVec.isLt
  rw [int64OfBytes, int64Bytes, Bytes.ofLeBytes_leBytes_of_lt bound, BitVec.ofNat_toNat,
    BitVec.setWidth_eq, Int64.ofBitVec_toBitVec]

end WowDb.Lib
