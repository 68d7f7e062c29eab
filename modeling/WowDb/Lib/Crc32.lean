import WowDb.Lib.Bytes

/-!
# CRC-32

The reflected CRC-32 with polynomial `0xEDB88320`, bit by bit.
-/
namespace WowDb.Lib.Crc32

def stepBit (c : UInt32) : UInt32 :=
  if c &&& 1 = 1 then (c >>> 1) ^^^ 0xEDB88320 else c >>> 1

def stepOctet (c : UInt32) (b : UInt8) : UInt32 :=
  (List.range 8).foldl (fun c _ => stepBit c) (c ^^^ b.toUInt32)

def crc32 (octets : Bytes) : UInt32 := (octets.foldl stepOctet 0xFFFFFFFF) ^^^ 0xFFFFFFFF

/-- The check value of the algorithm, on `123456789`. -/
example : crc32 [49, 50, 51, 52, 53, 54, 55, 56, 57] = 0xCBF43926 := by decide +kernel

end WowDb.Lib.Crc32
