import WowDb.Lib.Bytes

/-!
# LZ4 blocks

The block format with the uncompressed size in front.
-/
namespace WowDb.Lib.Lz4
open WowDb.Lib.Bytes

def readExtension : Bytes → Option (Nat × Bytes)
  | [] => none
  | b :: rest =>
    if b = 255 then (readExtension rest).map fun p => (p.1 + 255, p.2) else some (b.toNat, rest)

def readLength (nibble : Nat) (input : Bytes) : Option (Nat × Bytes) :=
  if nibble = 15 then (readExtension input).map fun p => (p.1 + 15, p.2) else some (nibble, input)

def copyMatch (offset : Nat) : Nat → Bytes → Option Bytes
  | 0, out => some out
  | len + 1, out =>
    match out[out.length - offset]? with
    | some b => copyMatch offset len (out ++ [b])
    | none => none

def decodeBlock : (fuel : Nat) → (input out : Bytes) → Option Bytes
  | 0, _, _ => none
  | _ + 1, [], _ => none
  | fuel + 1, token :: input, out => do
    let (literalLen, input) ← readLength (token.toNat / 16) input
    let (literals, input) ← readExact literalLen input
    let out := out ++ literals
    match input with
    | [] => some out
    | [_] => none
    | lo :: hi :: input =>
      let offset := lo.toNat + 256 * hi.toNat
      if offset = 0 ∨ out.length < offset then none
      else
        let (matchLen, input) ← readLength (token.toNat % 16) input
        let out ← copyMatch offset (matchLen + 4) out
        decodeBlock fuel input out

def decompressSizePrepended (data : Bytes) : Option Bytes := do
  let (size, block) ← readExact 4 data
  let out ← decodeBlock (block.length + 1) block []
  if out.length ≤ ofLeBytes size then some out else none

structure Compressor where
  compressPrependSize : Bytes → Bytes
  decompress : ∀ raw : Bytes, raw.length < 2 ^ 32 →
    decompressSizePrepended (compressPrependSize raw) = some raw

def extension (n : Nat) : Bytes := List.replicate (n / 255) 255 ++ [UInt8.ofNat (n % 255)]

theorem readExtension_extension (n : Nat) (rest : Bytes) :
    readExtension (extension n ++ rest) = some (n, rest) := by
  have last : readExtension (UInt8.ofNat (n % 255) :: rest) = some (n % 255, rest) := by
    have small : n % 255 < 255 := Nat.mod_lt n (by decide)
    have value : (UInt8.ofNat (n % 255)).toNat = n % 255 := by
      rw [UInt8.toNat_ofNat', Nat.mod_eq_of_lt (by omega)]
    have other : UInt8.ofNat (n % 255) ≠ 255 := by
      intro same
      rw [same] at value
      have : (255 : UInt8).toNat = 255 := rfl
      omega
    rw [readExtension, if_neg other, value]
  have full : ∀ k, readExtension (List.replicate k 255 ++ (UInt8.ofNat (n % 255) :: rest)) =
      some (255 * k + n % 255, rest) := by
    intro k
    induction k with
    | zero => simpa using last
    | succ k ih =>
      rw [List.replicate_succ, List.cons_append, readExtension, if_pos rfl, ih]
      simp only [Option.map_some, Option.some.injEq, Prod.mk.injEq, and_true]
      omega
  have whole := full (n / 255)
  rw [Nat.div_add_mod] at whole
  simpa [extension] using whole

def literalBlock (raw : Bytes) : Bytes :=
  if raw.length < 15 then UInt8.ofNat (16 * raw.length) :: raw
  else 240 :: (extension (raw.length - 15) ++ raw)

theorem decodeBlock_literalBlock (raw : Bytes) (fuel : Nat) :
    decodeBlock (fuel + 1) (literalBlock raw) [] = some raw := by
  have exact_ : readExact raw.length raw = some (raw, []) := by
    simpa using readExact_append raw []
  rw [literalBlock]
  split
  · next short =>
    have nibble : 16 * raw.length % 256 / 16 = raw.length := by omega
    have length : readLength raw.length raw = some (raw.length, raw) := if_neg (by omega)
    simp [decodeBlock, nibble, length, exact_]
  · next long =>
    have length : readLength 15 (extension (raw.length - 15) ++ raw) = some (raw.length, raw) := by
      have restored : raw.length - 15 + 15 = raw.length := by omega
      rw [readLength, if_pos rfl, readExtension_extension, Option.map_some, restored]
    simp [decodeBlock, length, exact_]

def storing : Compressor where
  compressPrependSize raw := leBytes 4 raw.length ++ literalBlock raw
  decompress raw small := by
    have size : ofLeBytes (leBytes 4 raw.length) = raw.length := ofLeBytes_leBytes_of_lt small
    rw [decompressSizePrepended, readExact_of_length (length_leBytes 4 _)]
    simp [decodeBlock_literalBlock, size]

theorem decompress_zero_offset (size₀ size₁ size₂ size₃ token a b c d : UInt8) (rest : Bytes)
    (literals : token.toNat / 16 = 4) :
    decompressSizePrepended
      (size₀ :: size₁ :: size₂ :: size₃ :: token :: a :: b :: c :: d :: 0 :: 0 :: rest) = none := by
  have split : readExact 4
      (size₀ :: size₁ :: size₂ :: size₃ :: token :: a :: b :: c :: d :: 0 :: 0 :: rest) =
      some ([size₀, size₁, size₂, size₃], token :: a :: b :: c :: d :: 0 :: 0 :: rest) :=
    readExact_append [size₀, size₁, size₂, size₃] _
  have length : readLength 4 (a :: b :: c :: d :: 0 :: 0 :: rest) =
      some (4, a :: b :: c :: d :: 0 :: 0 :: rest) := rfl
  have run : readExact 4 (a :: b :: c :: d :: 0 :: 0 :: rest) =
      some ([a, b, c, d], 0 :: 0 :: rest) := readExact_append [a, b, c, d] _
  simp [decompressSizePrepended, split, decodeBlock, literals, length, run]

end WowDb.Lib.Lz4
