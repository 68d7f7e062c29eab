import WowDb.Lib.Granules
import WowDb.Storage.ShardScan

/-!
# Bloom filters

`storage-node/src/lsm/bloom.rs` and `index/bloom_index.rs`.
-/
namespace WowDb.Storage
open WowDb.Lib Granules

inductive BloomHashFn where
  | xxHash3 | murmurHash3
  deriving DecidableEq

structure BloomFilterConfig where
  bitsPerKey : UInt32
  falsePositiveRate : F64
  hashFn : BloomHashFn
  deriving DecidableEq

namespace BloomFilterConfig

def default : BloomFilterConfig := ⟨10, .round F64.one 100, .xxHash3⟩

def ln2 : F64 := .finite (6243314768165359 * 2 ^ 1021)

def optimalK (config : BloomFilterConfig) : UInt32 :=
  UInt32.ofNat (max ((F64.ofNat config.bitsPerKey.toNat).mul ln2).roundU32 1)

example : default.optimalK = 7 := by decide +kernel

end BloomFilterConfig

/-- `BitVec`: the bitmap and the number of bits it is used for. -/
structure BloomBitVec where
  bits : Bytes
  numBits : Nat
  deriving DecidableEq

namespace BloomBitVec

def withCapacity (numBits : Nat) : BloomBitVec := ⟨List.replicate ((numBits + 7) / 8) 0, numBits⟩

def set (v : BloomBitVec) (bit : Nat) : Option BloomBitVec :=
  if v.numBits = 0 then none
  else (Bitmap.set v.bits (bit % v.numBits)).map fun bits => { v with bits }

def get (v : BloomBitVec) (bit : Nat) : Option Bool :=
  if v.numBits = 0 then none else Bitmap.get v.bits (bit % v.numBits)

end BloomBitVec

def doubleHashes (h1 h2 : UInt64) (k : UInt32) (numBits : Nat) : List Nat :=
  (List.range k.toNat).map fun i => (h1 + h2 * (UInt64.ofNat i + 1)).toNat % numBits

def xxh3Hashes (xxh3 : Bytes → BitVec 128) (key : Bytes) (k : UInt32) (numBits : Nat) : List Nat :=
  let h128 := xxh3 key
  doubleHashes (.ofBitVec (h128.extractLsb' 0 64)) (.ofBitVec (h128.extractLsb' 64 64)) k numBits

def murmur3Hashes (key : Bytes) (k : UInt32) (numBits : Nat) : List Nat :=
  let hashes := key.foldl
    (fun (h : UInt64 × UInt64) b =>
      (h.1 * 0x100000001b3 + b.toUInt64,
        (h.2 <<< 5 ||| h.2 >>> 59) + b.toUInt64 + 0x5555555555555555))
    (0xcbf29ce484222325, 0x517cc1b727220a95)
  doubleHashes hashes.1 hashes.2 k numBits

structure SsTableBloom where
  bitmap : BloomBitVec
  k : UInt32
  config : BloomFilterConfig
  deriving DecidableEq

structure BloomSerialized where
  bitsPerKey : UInt32
  hashFn : BloomHashFn
  k : UInt32
  numBits : UInt64
  bitmap : Bytes
  deriving DecidableEq

inductive BloomError where
  | tooShort (length : Nat)
  | magicMismatch
  | crcMismatch (stored computed : Nat)
  | json
  deriving DecidableEq

def bloomMagic : Bytes := [0x57, 0x4F, 0x57, 0x42, 0x4C, 0x4F, 0x4F, 0x4D]

namespace SsTableBloom

def bitCount (bitsPerKey : UInt32) (expectedItems : Nat) : Nat :=
  (max (max expectedItems 1 * bitsPerKey.toNat) 64 + 7) / 8 * 8

def new (expectedItems : Nat) (config : BloomFilterConfig) : SsTableBloom :=
  ⟨.withCapacity (bitCount config.bitsPerKey expectedItems), config.optimalK, config⟩

def withDefaults (expectedItems : Nat) : SsTableBloom := new expectedItems .default

section Hashed

variable (xxh3 : Bytes → BitVec 128)

def probes (bf : SsTableBloom) (key : Bytes) : List Nat :=
  match bf.config.hashFn with
  | .xxHash3 => xxh3Hashes xxh3 key bf.k bf.bitmap.numBits
  | .murmurHash3 => murmur3Hashes key bf.k bf.bitmap.numBits

def hashIndices (bf : SsTableBloom) (key : Bytes) : Option (List Nat) :=
  if bf.bitmap.numBits = 0 ∧ bf.k ≠ 0 then none else some (bf.probes xxh3 key)

def insert (bf : SsTableBloom) (key : Bytes) : Option SsTableBloom := do
  let indices ← bf.hashIndices xxh3 key
  let bitmap ← indices.foldlM BloomBitVec.set bf.bitmap
  some { bf with bitmap }

def mayContain (bf : SsTableBloom) (key : Bytes) : Option Bool := do
  let indices ← bf.hashIndices xxh3 key
  indices.allM bf.bitmap.get

def insertAll (bf : SsTableBloom) (keys : List Bytes) : Option SsTableBloom :=
  keys.foldlM (insert xxh3) bf

end Hashed

section Format

variable (codec : Codec BloomSerialized)

def serialized (bf : SsTableBloom) : BloomSerialized :=
  ⟨bf.config.bitsPerKey, bf.config.hashFn, bf.k, UInt64.ofNat bf.bitmap.numBits, bf.bitmap.bits⟩

def framed (s : BloomSerialized) : Bytes :=
  let data := codec.write s
  bloomMagic ++ Bytes.leBytes 2 1 ++ Bytes.leBytes 4 (Crc32.crc32 data).toNat ++ data

def toBytes (bf : SsTableBloom) : Bytes := framed codec bf.serialized

def restored (s : BloomSerialized) : SsTableBloom :=
  ⟨⟨s.bitmap, s.numBits.toNat⟩, s.k, ⟨s.bitsPerKey, .finite 0, s.hashFn⟩⟩

def fromBytes (raw : Bytes) : Except BloomError SsTableBloom :=
  if raw.length < 14 then .error (.tooShort raw.length)
  else if raw.take 8 ≠ bloomMagic then .error .magicMismatch
  else
    let storedCrc := Bytes.ofLeBytes ((raw.drop 10).take 4)
    let data := raw.drop 14
    let computedCrc := (Crc32.crc32 data).toNat
    if storedCrc ≠ computedCrc then .error (.crcMismatch storedCrc computedCrc)
    else
      match codec.read data with
      | none => .error .json
      | some s => .ok (restored s)

end Format

end SsTableBloom

structure GranuleBloomIndex where
  granuleSize : Nat
  filters : List SsTableBloom
  config : BloomFilterConfig

namespace GranuleBloomIndex

def withConfig (granuleSize : Nat) (config : BloomFilterConfig) : GranuleBloomIndex :=
  ⟨granuleSize, [], config⟩

def build (xxh3 : Bytes → BitVec 128) (index : GranuleBloomIndex) (keys : List Bytes) :
    Option GranuleBloomIndex := do
  let filters ← (chunks index.granuleSize keys).mapM fun chunk =>
    (SsTableBloom.new chunk.length index.config).insertAll xxh3 chunk
  some { index with filters }

def candidateGranules (xxh3 : Bytes → BitVec 128) (index : GranuleBloomIndex) (key : Bytes) :
    Option (List Nat) :=
  (index.filters.mapM fun bf : SsTableBloom => bf.mayContain xxh3 key).map trueIndices

end GranuleBloomIndex

structure GranuleBloomEntry where
  granuleIdx : Nat
  rowOffset : Nat
  rowCount : Nat
  bloomBytes : Bytes
  deriving DecidableEq

structure BloomFilterIndex where
  entries : List GranuleBloomEntry
  granuleSize : Nat
  deriving DecidableEq

def BloomFilterIndex.entry (codec : Codec BloomSerialized) (xxh3 : Bytes → BitVec 128)
    (granuleSize : Nat) (granule : List (Option Bytes) × Nat) : Option GranuleBloomEntry := do
  let nonNull := granule.1.filterMap id
  let bf ← (SsTableBloom.withDefaults (max nonNull.length 1)).insertAll xxh3 nonNull
  some
    { granuleIdx := granule.2 % 2 ^ 32
      rowOffset := granule.2 * granuleSize
      rowCount := granule.1.length % 2 ^ 32
      bloomBytes := bf.toBytes codec }

def BloomIndexBuilder.build (codec : Codec BloomSerialized) (xxh3 : Bytes → BitVec 128)
    (granuleSize : Nat) (values : List (Option Bytes)) : Option BloomFilterIndex := do
  let entries ← (chunks granuleSize values).zipIdx.mapM (BloomFilterIndex.entry codec xxh3 granuleSize)
  some ⟨entries, granuleSize⟩

def BloomFilterIndex.mayContain (codec : Codec BloomSerialized) (xxh3 : Bytes → BitVec 128)
    (key : Bytes) (entry : GranuleBloomEntry) : Option Bool :=
  match SsTableBloom.fromBytes codec entry.bloomBytes with
  | .error _ => some false
  | .ok bf => bf.mayContain xxh3 key

def BloomFilterIndex.candidateGranules (codec : Codec BloomSerialized) (xxh3 : Bytes → BitVec 128)
    (index : BloomFilterIndex) (key : Bytes) : Option (List Nat) :=
  (index.entries.mapM (mayContain codec xxh3 key)).map trueIndices

def BloomHashFn.json : BloomHashFn → Json
  | xxHash3 => Json.ofString "xx_hash3"
  | murmurHash3 => Json.ofString "murmur_hash3"

def asBloomHashFn (v : Json) : Option BloomHashFn :=
  match Json.asString v with
  | some "xx_hash3" => some .xxHash3
  | some "murmur_hash3" => some .murmurHash3
  | _ => none

def bloomJson : Codec BloomSerialized :=
  .json
    (fun s => Json.record [("bits_per_key", Json.ofNat s.bitsPerKey.toNat), ("hash_fn", s.hashFn.json),
      ("k", Json.ofNat s.k.toNat), ("num_bits", Json.ofNat s.numBits.toNat),
      ("bitmap", Json.ofList Json.ofOctet s.bitmap)])
    (fun v => do
      let bitsPerKey ← (← Json.field "bits_per_key" v) |> Json.asU32
      let hashFn ← (← Json.field "hash_fn" v) |> asBloomHashFn
      let k ← (← Json.field "k" v) |> Json.asU32
      let numBits ← (← Json.field "num_bits" v) |> Json.asU64
      let bitmap ← (← Json.field "bitmap" v) |> Json.asList Json.asOctet
      return ⟨bitsPerKey, hashFn, k, numBits, bitmap⟩)
    (by
      rintro ⟨bitsPerKey, hashFn, k, numBits, bitmap⟩
      have fn : asBloomHashFn hashFn.json = some hashFn := by cases hashFn <;> rfl
      simp [Json.field_record, List.lookup, fn, Json.asList_ofList Json.asOctet_ofOctet])

open List

theorem doubleHashes_lt {numBits : Nat} (pos : 0 < numBits) (h1 h2 : UInt64) (k : UInt32) :
    ∀ i ∈ doubleHashes h1 h2 k numBits, i < numBits := by
  intro i mem
  obtain ⟨j, -, rfl⟩ := mem_map.mp mem
  exact Nat.mod_lt _ pos

namespace BloomBitVec

variable {v : BloomBitVec} {indices : List Nat} (small : ∀ i ∈ indices, i < v.numBits)

include small

theorem foldlM_set :
    indices.foldlM set v = (Bitmap.setAll v.bits indices).map fun bits => { v with bits } := by
  induction indices generalizing v with
  | nil => rfl
  | cons i rest ih =>
    have first := small i (by simp)
    have step : v.set i = (Bitmap.set v.bits i).map fun bits => { v with bits } := by
      rw [set, if_neg (by omega), Nat.mod_eq_of_lt first]
    rw [foldlM_cons, step, Bitmap.setAll, foldlM_cons]
    cases Bitmap.set v.bits i with
    | none => rfl
    | some bits => exact ih (v := { v with bits }) fun j mem => small j (by simp [mem])

theorem allM_get : indices.allM v.get = Bitmap.getAll v.bits indices := by
  induction indices with
  | nil => rfl
  | cons i rest ih =>
    have first := small i (by simp)
    have step : v.get i = Bitmap.get v.bits i := by
      rw [get, if_neg (by omega), Nat.mod_eq_of_lt first]
    have later := ih fun j mem => small j (by simp [mem])
    simp only [allM, step, Bitmap.getAll]
    cases Bitmap.get v.bits i with
    | none => rfl
    | some bit =>
      cases bit with
      | false => rfl
      | true => exact later

end BloomBitVec

namespace SsTableBloom

variable (xxh3 : Bytes → BitVec 128)

structure Sized (bf : SsTableBloom) : Prop where
  pos : 0 < bf.bitmap.numBits
  room : bf.bitmap.numBits ≤ 8 * bf.bitmap.bits.length

structure SameShape (a b : SsTableBloom) : Prop where
  numBits : a.bitmap.numBits = b.bitmap.numBits
  k : a.k = b.k
  config : a.config = b.config

theorem SameShape.probes {a b : SsTableBloom} (same : SameShape a b) (key : Bytes) :
    a.probes xxh3 key = b.probes xxh3 key := by
  simp only [SsTableBloom.probes, same.numBits, same.k, same.config]

variable {bf : SsTableBloom}

variable (pos : 0 < bf.bitmap.numBits)

include pos

theorem probes_lt (key : Bytes) : ∀ i ∈ bf.probes xxh3 key, i < bf.bitmap.numBits := by
  unfold probes
  split
  · exact doubleHashes_lt pos _ _ _
  · exact doubleHashes_lt pos _ _ _

theorem hashIndices_of_pos (key : Bytes) : bf.hashIndices xxh3 key = some (bf.probes xxh3 key) := by
  rw [hashIndices, if_neg fun empty => by omega]

theorem mayContain_of_pos (key : Bytes) :
    bf.mayContain xxh3 key = Bitmap.getAll bf.bitmap.bits (bf.probes xxh3 key) := by
  rw [mayContain, hashIndices_of_pos xxh3 pos, Option.bind_eq_bind, Option.bind_some,
    BloomBitVec.allM_get (probes_lt xxh3 pos key)]

omit pos

def Covers (bf : SsTableBloom) (key : Bytes) : Prop :=
  ∀ i ∈ bf.probes xxh3 key, i ∈ Bitmap.members bf.bitmap.bits

theorem mayContain_of_covers (sized : bf.Sized) {key : Bytes} (covers : bf.Covers xxh3 key) :
    bf.mayContain xxh3 key = some true := by
  rw [mayContain_of_pos xxh3 sized.pos]
  exact Bitmap.getAll_of_members covers

theorem sized_new (expectedItems : Nat) (config : BloomFilterConfig) :
    (new expectedItems config).Sized := by
  constructor
  · simp only [new, BloomBitVec.withCapacity, bitCount]
    omega
  · simp only [new, BloomBitVec.withCapacity, bitCount, length_replicate]
    omega

theorem insert_spec (sized : bf.Sized) (key : Bytes) :
    ∃ after, bf.insert xxh3 key = some after ∧ after.Sized ∧ SameShape after bf ∧
      Bitmap.members after.bitmap.bits =
        Bitmap.members bf.bitmap.bits ∪ {i | i ∈ bf.probes xxh3 key} := by
  have small := probes_lt xxh3 sized.pos key
  obtain ⟨bits, set, length, added⟩ := Bitmap.setAll_spec bf.bitmap.bits
    fun i mem => Nat.lt_of_lt_of_le (small i mem) sized.room
  refine ⟨{ bf with bitmap := { bf.bitmap with bits } }, ?_, ⟨sized.pos, ?_⟩, ⟨rfl, rfl, rfl⟩, added⟩
  · simp [insert, hashIndices_of_pos xxh3 sized.pos, BloomBitVec.foldlM_set small, set]
  · rw [length]
    exact sized.room

theorem insertAll_spec (sized : bf.Sized) (keys : List Bytes) :
    ∃ after, bf.insertAll xxh3 keys = some after ∧ after.Sized ∧ SameShape after bf ∧
      Bitmap.members bf.bitmap.bits ⊆ Bitmap.members after.bitmap.bits ∧
      ∀ key ∈ keys, after.Covers xxh3 key := by
  induction keys generalizing bf with
  | nil => exact ⟨bf, rfl, sized, ⟨rfl, rfl, rfl⟩, subset_rfl, by simp⟩
  | cons key rest ih =>
    obtain ⟨next, inserted, nextSized, nextShape, added⟩ := insert_spec xxh3 sized key
    obtain ⟨after, later, afterSized, afterShape, grows, covers⟩ := ih nextSized
    rw [added] at grows
    refine ⟨after, ?_, afterSized, ⟨afterShape.numBits.trans nextShape.numBits,
      afterShape.k.trans nextShape.k, afterShape.config.trans nextShape.config⟩,
      fun i mem => grows (Or.inl mem), ?_⟩
    · simpa only [insertAll, foldlM_cons, inserted, Option.bind_eq_bind, Option.bind_some]
        using later
    · intro other mem
      rcases mem_cons.mp mem with rfl | mem
      · intro i probe
        rw [afterShape.probes, nextShape.probes] at probe
        exact grows (Or.inr probe)
      · exact covers other mem

variable (codec : Codec BloomSerialized)

theorem fromBytes_framed (s : BloomSerialized) : fromBytes codec (framed codec s) = .ok (restored s) := by
  have crc : Bytes.ofLeBytes (Bytes.leBytes 4 (Crc32.crc32 (codec.write s)).toNat) =
      (Crc32.crc32 (codec.write s)).toNat := Bytes.ofLeBytes_leBytes_of_lt (UInt32.toNat_lt _)
  have long : ¬ (framed codec s).length < 14 := by
    simp only [framed, bloomMagic, length_append, Bytes.length_leBytes, length_cons,
      length_nil]
    omega
  have magic : (framed codec s).take 8 = bloomMagic := by simp [framed, bloomMagic]
  have checksum : ((framed codec s).drop 10).take 4 =
      Bytes.leBytes 4 (Crc32.crc32 (codec.write s)).toNat := by
    simp [framed, bloomMagic, Bytes.leBytes]
  have data : (framed codec s).drop 14 = codec.write s := by
    simp [framed, bloomMagic, Bytes.leBytes]
  simp [fromBytes, if_neg long, magic, checksum, data, crc, codec.read_write]

theorem mayContain_restored (fits : bf.bitmap.numBits < 2 ^ 64) (key : Bytes) :
    (restored bf.serialized).mayContain xxh3 key = bf.mayContain xxh3 key := by
  have count : (UInt64.ofNat bf.bitmap.numBits).toNat = bf.bitmap.numBits := by
    rw [UInt64.toNat_ofNat']
    omega
  simp only [mayContain, hashIndices, probes, restored, serialized, count]

theorem exists_mayContain (sized : bf.Sized) (key : Bytes) :
    ∃ answer, bf.mayContain xxh3 key = some answer := by
  rw [mayContain_of_pos xxh3 sized.pos, ← Option.ne_none_iff_exists']
  intro fails
  obtain ⟨before, i, after, split, -, outside⟩ := (Bitmap.getAll_eq_none_iff _ _).mp fails
  have small := probes_lt xxh3 sized.pos key i (by simp [split])
  have room := sized.room
  omega

theorem bitCount_mono (bitsPerKey : UInt32) {m n : Nat} (le : m ≤ n) :
    bitCount bitsPerKey m ≤ bitCount bitsPerKey n := by
  have product : max m 1 * bitsPerKey.toNat ≤ max n 1 * bitsPerKey.toNat :=
    Nat.mul_le_mul_right _ (by omega)
  unfold bitCount
  omega

theorem filled_spec (expectedItems : Nat) (config : BloomFilterConfig) (keys : List Bytes) :
    ∃ bf, (new expectedItems config).insertAll xxh3 keys = some bf ∧ bf.Sized ∧
      bf.bitmap.numBits = bitCount config.bitsPerKey expectedItems ∧
      ∀ key ∈ keys, bf.mayContain xxh3 key = some true := by
  obtain ⟨bf, filled, sized, shape, -, covers⟩ :=
    insertAll_spec xxh3 (sized_new expectedItems config) keys
  exact ⟨bf, filled, sized, shape.numBits, fun key mem =>
    mayContain_of_covers xxh3 sized (covers key mem)⟩

end SsTableBloom

section Indexes

variable (xxh3 : Bytes → BitVec 128) {granuleSize r : Nat} {key : Bytes}

theorem GranuleBloomIndex.mem_candidates (pos : 1 ≤ granuleSize) (config : BloomFilterConfig)
    {keys : List Bytes} (row : keys[r]? = some key) :
    ∃ index candidates, (withConfig granuleSize config).build xxh3 keys = some index ∧
      index.candidateGranules xxh3 key = some candidates ∧ r / granuleSize ∈ candidates := by
  obtain ⟨filters, built, sized, at_chunk⟩ := exists_mapM (chunks granuleSize keys)
    fun chunk _ => SsTableBloom.filled_spec xxh3 chunk.length config chunk
  obtain ⟨chunk, at_g, mem⟩ := exists_chunk_of_row pos row
  obtain ⟨bf, here, -, -, contains⟩ := at_chunk _ chunk at_g
  obtain ⟨candidates, answer, inside⟩ := mem_trueIndices_of_mapM
    (fun bf : SsTableBloom => bf.mayContain xxh3 key)
    (fun bf member => by
      obtain ⟨-, -, sized, -⟩ := sized bf member
      exact SsTableBloom.exists_mayContain xxh3 sized key) here (contains key mem)
  refine ⟨⟨granuleSize, filters, config⟩, candidates, ?_, answer, inside⟩
  simp [build, withConfig, built]

variable (codec : Codec BloomSerialized)

theorem BloomFilterIndex.mayContain_toBytes {bf : SsTableBloom} (fits : bf.bitmap.numBits < 2 ^ 64)
    {entry : GranuleBloomEntry} (stored : entry.bloomBytes = bf.toBytes codec) (key : Bytes) :
    mayContain codec xxh3 key entry = bf.mayContain xxh3 key := by
  rw [mayContain, stored, SsTableBloom.toBytes, SsTableBloom.fromBytes_framed]
  exact SsTableBloom.mayContain_restored xxh3 fits key

theorem BloomFilterIndex.entry_spec (granuleSize : Nat) (granule : List (Option Bytes) × Nat)
    (fits : SsTableBloom.bitCount BloomFilterConfig.default.bitsPerKey granule.1.length < 2 ^ 64) :
    ∃ entry, BloomFilterIndex.entry codec xxh3 granuleSize granule = some entry ∧
      (∀ key, ∃ b, mayContain codec xxh3 key entry = some b) ∧
      ∀ key, some key ∈ granule.1 → mayContain codec xxh3 key entry = some true := by
  obtain ⟨bf, filled, sized, count, contains⟩ := SsTableBloom.filled_spec xxh3
    (max (granule.1.filterMap id).length 1) .default (granule.1.filterMap id)
  have shorter : (granule.1.filterMap id).length ≤ granule.1.length := length_filterMap_le _ _
  have small : bf.bitmap.numBits < 2 ^ 64 := by
    rw [count]
    by_cases empty : granule.1.length = 0
    · rw [Nat.max_eq_right (by omega)]
      decide
    · exact Nat.lt_of_le_of_lt (SsTableBloom.bitCount_mono _ (by omega)) fits
  refine ⟨⟨granule.2 % 2 ^ 32, granule.2 * granuleSize, granule.1.length % 2 ^ 32, bf.toBytes codec⟩,
    ?_, fun key => ?_, fun key mem => ?_⟩
  · simp only [BloomFilterIndex.entry, SsTableBloom.withDefaults, filled, Option.bind_eq_bind,
      Option.bind_some]
  · rw [mayContain_toBytes xxh3 codec small rfl]
    exact SsTableBloom.exists_mayContain xxh3 sized key
  · rw [mayContain_toBytes xxh3 codec small rfl]
    exact contains key (mem_filterMap.mpr ⟨some key, mem, rfl⟩)

theorem BloomFilterIndex.mem_candidates (pos : 1 ≤ granuleSize) {values : List (Option Bytes)}
    (fits : SsTableBloom.bitCount BloomFilterConfig.default.bitsPerKey
      (min granuleSize values.length) < 2 ^ 64) (row : values[r]? = some (some key)) :
    ∃ index candidates, BloomIndexBuilder.build codec xxh3 granuleSize values = some index ∧
      index.candidateGranules codec xxh3 key = some candidates ∧ r / granuleSize ∈ candidates := by
  obtain ⟨entries, built, total, at_chunk⟩ := exists_mapM (chunks granuleSize values).zipIdx
    fun granule member => entry_spec xxh3 codec granuleSize granule (by
      have chunk := length_of_mem_chunks (fst_mem_of_mem_zipIdx member)
      exact Nat.lt_of_le_of_lt (SsTableBloom.bitCount_mono _ chunk) fits)
  obtain ⟨chunk, at_g, mem⟩ := exists_chunk_of_row pos row
  obtain ⟨entry, here, -, contains⟩ := at_chunk (r / granuleSize) (chunk, r / granuleSize)
    (by simp [getElem?_zipIdx, at_g])
  obtain ⟨candidates, answer, inside⟩ := mem_trueIndices_of_mapM (mayContain codec xxh3 key)
    (fun entry member => by
      obtain ⟨-, -, answers, -⟩ := total entry member
      exact answers key) here (contains key mem)
  refine ⟨⟨entries, granuleSize⟩, candidates, ?_, answer, inside⟩
  simp [BloomIndexBuilder.build, built]

/-- An inserted key is always answered with yes. -/
theorem no_false_negatives (config : BloomFilterConfig) (key : Bytes) :
    (∀ expectedItems (keys : List Bytes),
      SsTableBloom.bitCount config.bitsPerKey expectedItems < 2 ^ 64 → key ∈ keys →
      ∃ bf back, (SsTableBloom.new expectedItems config).insertAll xxh3 keys = some bf ∧
        bf.mayContain xxh3 key = some true ∧
        SsTableBloom.fromBytes codec (bf.toBytes codec) = .ok back ∧
        back.mayContain xxh3 key = some true) ∧
    (∀ granuleSize (keys : List Bytes) r, 1 ≤ granuleSize →
      SsTableBloom.bitCount config.bitsPerKey (min granuleSize keys.length) < 2 ^ 64 →
      keys[r]? = some key →
      ∃ index candidates,
        (GranuleBloomIndex.withConfig granuleSize config).build xxh3 keys = some index ∧
        index.candidateGranules xxh3 key = some candidates ∧ r / granuleSize ∈ candidates) ∧
    (∀ granuleSize (values : List (Option Bytes)) r, 1 ≤ granuleSize →
      SsTableBloom.bitCount BloomFilterConfig.default.bitsPerKey
        (min granuleSize values.length) < 2 ^ 64 →
      values[r]? = some (some key) →
      ∃ index candidates, BloomIndexBuilder.build codec xxh3 granuleSize values = some index ∧
        index.candidateGranules codec xxh3 key = some candidates ∧
        r / granuleSize ∈ candidates) := by
  refine ⟨fun expectedItems keys fits mem => ?_, fun granuleSize keys r pos _ row => ?_,
    fun granuleSize values r pos fits row => ?_⟩
  · obtain ⟨bf, filled, -, count, contains⟩ := SsTableBloom.filled_spec xxh3 expectedItems config keys
    have answer := contains key mem
    refine ⟨bf, _, filled, answer, SsTableBloom.fromBytes_framed codec bf.serialized, ?_⟩
    rw [SsTableBloom.mayContain_restored xxh3 (by rw [count]; exact fits), answer]
  · exact GranuleBloomIndex.mem_candidates xxh3 pos config row
  · exact BloomFilterIndex.mem_candidates xxh3 codec pos fits row

end Indexes

theorem third_key_found : ∃ index candidates,
      (GranuleBloomIndex.withConfig 2 .default).build (fun _ => 5) [[1], [2], [3]] = some index ∧
      index.candidateGranules (fun _ => 5) [3] = some candidates ∧ 1 ∈ candidates :=
  (no_false_negatives (fun _ => 5) bloomJson .default [3]).2.1 2 [[1], [2], [3]] 2 (by decide)
    (by decide) rfl

def SsTableBloom.decoder (codec : Codec BloomSerialized) (xxh3 : Bytes → BitVec 128) (raw : Bytes) :
    Option (Bytes → Option Bool) :=
  match fromBytes codec raw with
  | .error _ => none
  | .ok bf => some (bf.mayContain xxh3)

variable (codec : Codec BloomSerialized) (xxh3 : Bytes → BitVec 128)

/-- Stored octets leave nothing out for a key. -/
structure Conservative (raw key : Bytes) : Prop where
  returns : ∀ bf, SsTableBloom.fromBytes codec raw = .ok bf → bf.mayContain xxh3 key ≠ none
  candidate : ∀ e, SsTableBloom.fromBytes codec raw = .error e →
    ∀ (index : BloomFilterIndex) (i : Nat) entry candidates, index.entries[i]? = some entry →
    entry.bloomBytes = raw → index.candidateGranules codec xxh3 key = some candidates →
    i ∈ candidates
  notSkipped : ∀ e, SsTableBloom.fromBytes codec raw = .error e →
    ∀ dir sst probeKeys, ShardScanner.bloomFile dir sst = some raw →
    ShardScanner.canSkipByBloom (SsTableBloom.decoder codec xxh3) dir sst probeKeys = some false

structure SsTableBloom.ReadsInside (bf : SsTableBloom) (key : Bytes) : Prop where
  divides : bf.bitmap.numBits = 0 → bf.k = 0
  inside : ∀ before i after, bf.probes xxh3 key = before ++ i :: after →
    (∀ j ∈ before, j ∈ Bitmap.members bf.bitmap.bits) → i < 8 * bf.bitmap.bits.length

theorem SsTableBloom.probes_of_zero {bf : SsTableBloom} (none : bf.k = 0) (key : Bytes) :
    bf.probes xxh3 key = [] := by
  unfold probes
  split <;> simp [xxh3Hashes, murmur3Hashes, doubleHashes, none]

theorem SsTableBloom.mayContain_ne_none_iff (bf : SsTableBloom) (key : Bytes) :
    bf.mayContain xxh3 key ≠ none ↔ bf.ReadsInside xxh3 key := by
  by_cases pos : 0 < bf.bitmap.numBits
  · rw [mayContain_of_pos xxh3 pos, Ne, Bitmap.getAll_eq_none_iff]
    constructor
    · intro inside
      refine ⟨fun zero => by omega, fun before i after split set => ?_⟩
      by_contra outside
      exact inside ⟨before, i, after, split, set, by omega⟩
    · rintro reads ⟨before, i, after, split, set, outside⟩
      have inside := reads.inside before i after split set
      omega
  · have zero : bf.bitmap.numBits = 0 := by omega
    by_cases none : bf.k = 0
    · have empty := probes_of_zero xxh3 none key
      refine iff_of_true ?_ ⟨fun _ => none, fun before i after split => ?_⟩
      · simp [mayContain, hashIndices, none, empty, List.allM]
      · simp [empty] at split
    · refine iff_of_false ?_ fun reads => none (reads.divides zero)
      simp [mayContain, hashIndices, zero, none]

theorem candidateGranules_of_error {raw : Bytes} {e : BloomError}
    (fails : SsTableBloom.fromBytes codec raw = .error e) (key : Bytes) :
    BloomFilterIndex.candidateGranules codec xxh3 ⟨[⟨0, 0, 1, raw⟩], 8192⟩ key = some [] := by
  simp [BloomFilterIndex.candidateGranules, BloomFilterIndex.mayContain, fails, trueIndices]

/-- Exactly when the filter is read inside its bitmap. -/
theorem conservative_iff_reads_inside (raw key : Bytes) : Conservative codec xxh3 raw key ↔
      ∃ bf, SsTableBloom.fromBytes codec raw = .ok bf ∧ bf.ReadsInside xxh3 key := by
  constructor
  · intro harmless
    cases read : SsTableBloom.fromBytes codec raw with
    | error e =>
      have missing := harmless.candidate e read ⟨[⟨0, 0, 1, raw⟩], 8192⟩ 0 _ _ rfl rfl
        (candidateGranules_of_error codec xxh3 read key)
      cases missing
    | ok bf => exact ⟨bf, rfl, (bf.mayContain_ne_none_iff xxh3 key).mp (harmless.returns bf read)⟩
  · rintro ⟨bf, read, inside⟩
    refine ⟨fun other decoded => ?_, fun e fails => ?_, fun e fails => ?_⟩
    · rw [read, Except.ok.injEq] at decoded
      subst decoded
      exact (bf.mayContain_ne_none_iff xxh3 key).mpr inside
    · rw [read] at fails
      cases fails
    · rw [read] at fails
      cases fails

def noBits : BloomSerialized := ⟨10, .xxHash3, 7, 0, []⟩

theorem damaged_filters_diverge : SsTableBloom.fromBytes bloomJson [] = .error (.tooShort 0) ∧
      BloomFilterIndex.candidateGranules bloomJson (fun _ => 0) ⟨[⟨0, 0, 1, []⟩], 8192⟩ [1] =
        some [] ∧
      ¬ Conservative bloomJson (fun _ => 0) [] [1] ∧
      SsTableBloom.fromBytes bloomJson (SsTableBloom.framed bloomJson noBits) =
        .ok (SsTableBloom.restored noBits) ∧
      (SsTableBloom.restored noBits).mayContain (fun _ => 0) [1] = none ∧
      ¬ Conservative bloomJson (fun _ => 0) (SsTableBloom.framed bloomJson noBits) [1] := by
  have short : SsTableBloom.fromBytes bloomJson [] = .error (.tooShort 0) := rfl
  have dropped := candidateGranules_of_error bloomJson (fun _ => 0) short [1]
  have decoded := SsTableBloom.fromBytes_framed bloomJson noBits
  have panics : (SsTableBloom.restored noBits).mayContain (fun _ => 0) [1] = none := rfl
  refine ⟨short, dropped, fun harmless => ?_, decoded, panics, fun harmless => ?_⟩
  · have missing := harmless.candidate _ short _ 0 _ _ rfl rfl dropped
    cases missing
  · exact harmless.returns _ decoded panics

end WowDb.Storage
