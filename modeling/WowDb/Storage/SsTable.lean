import WowDb.Lib.Crc32
import WowDb.Lib.Lz4
import WowDb.Lib.Serde
import WowDb.Storage.MemTable

/-!
# Column files of an SSTable

The writer of `storage-node/src/lsm/sstable.rs`, the index file reader of `index/minmax.rs` and the
column readers of `grpc/scan.rs`.
-/
namespace WowDb.Storage
open WowDb.Lib
open WowDb.Lib.Bytes

def colMagic : Bytes := [0x57, 0x4F, 0x57, 0x44, 0x42, 0x43, 0x4F, 0x4C]

def minMaxMagic : Bytes := [0x57, 0x4F, 0x57, 0x4D, 0x49, 0x4E, 0x4D, 0x58]

def fileFormatVersion : Nat := 1

structure MinMaxRecord where
  min : Bytes
  max : Bytes
  nullCount : Nat
  rowCount : Nat

structure ColumnFileMeta where
  name : String
  colFile : String
  bloomFile : Option String
  minMaxFile : Option String
  minBytes : Option Bytes
  maxBytes : Option Bytes
  nullCount : Nat
  rowCount : Nat
  compressedBytes : Nat

abbrev PartitionFiles := OrdMap (String ×ₗ String) Bytes

def writeColHeader (columnId sstSequence rowCount granuleCount : Nat) : Bytes :=
  let fields := colMagic ++ leBytes 2 fileFormatVersion ++ leBytes 2 0 ++ leBytes 4 columnId ++
    leBytes 8 sstSequence ++ leBytes 8 rowCount ++ leBytes 4 granuleCount
  fields ++ List.replicate (120 - fields.length) 0

def verifyColMagic (data : Bytes) : Bool :=
  decide (10 ≤ data.length) && data.take 8 == colMagic &&
    ofLeBytes ((data.drop 8).take 2) == fileFormatVersion

def minMaxJson (r : MinMaxRecord) : Json :=
  Json.record [("min", Json.ofList Json.ofOctet r.min), ("max", Json.ofList Json.ofOctet r.max),
    ("null_count", Json.ofNat r.nullCount), ("row_count", Json.ofNat r.rowCount)]

def writeMinMaxFile (r : MinMaxRecord) : Bytes :=
  let payload := Text.encode (Json.print (minMaxJson r))
  minMaxMagic ++ leBytes 2 fileFormatVersion ++ leBytes 4 (Crc32.crc32 payload).toNat ++ payload

def granuleCount (rows : Nat) : Nat := (rows - 1) / 8192 + 1

def segStem (seq : Nat) : String := "seg-" ++ Text.pad10 seq

def colFile (lz4 : Lz4.Compressor) (values : List Bytes) (sequenceNum columnId : Nat) : Bytes :=
  let body := writeColHeader columnId sequenceNum values.length (granuleCount values.length) ++
    lz4.compressPrependSize values.flatten
  body ++ leBytes 4 (Crc32.crc32 body).toNat

def least (values : List Bytes) : Option Bytes :=
  match values with
  | [] => none
  | first :: rest => some (rest.foldl Min.min first)

def greatest (values : List Bytes) : Option Bytes :=
  match values with
  | [] => none
  | first :: rest => some (rest.foldl Max.max first)

def flushColumn (lz4 : Lz4.Compressor) (bloom : List Bytes → Bytes) (files : PartitionFiles)
    (colName : String) (values : List Bytes) (seq sequenceNum columnId : Nat) :
    PartitionFiles × ColumnFileMeta :=
  let col := colFile lz4 values sequenceNum columnId
  let mm := writeMinMaxFile
    ⟨(least values).getD [], (greatest values).getD [], 0, values.length⟩
  (((files.insert (toLex (colName, segStem seq ++ ".col")) col).insert
      (toLex (colName, segStem seq ++ ".bloom")) (bloom values)).insert
      (toLex (colName, segStem seq ++ ".min_max")) mm,
    { name := colName
      colFile := colName ++ "/" ++ segStem seq ++ ".col"
      bloomFile := some (colName ++ "/" ++ segStem seq ++ ".bloom")
      minMaxFile := some (colName ++ "/" ++ segStem seq ++ ".min_max")
      minBytes := least values
      maxBytes := greatest values
      nullCount := 0
      rowCount := values.length
      compressedBytes := col.length })

def colData (imm : ImmutableMemTable) : OrdMap String (List Bytes) :=
  (imm.entries.filter fun e => !e.2.deleted).foldl
    (fun m e => e.2.columns.foldl (fun m c => m.push c.1 c.2) m) .empty

def columnValues (imm : ImmutableMemTable) (colName : String) : List Bytes :=
  ((colData imm).get? colName).getD []

structure GranuleMinMax where
  granuleIdx : Nat
  rowOffset : Nat
  rowCount : Nat
  minVal : Option Bytes
  maxVal : Option Bytes
  deriving DecidableEq

structure MinMaxIndex where
  granules : List GranuleMinMax
  deriving DecidableEq

def asOptional {α : Type} (read : Json → Option α) : Option Json → Option (Option α)
  | none | some .null => some none
  | some v => (read v).map some

def asUnsigned (bits : Nat) (v : Json) : Option Nat := (Json.asNat v).filter (· < 2 ^ bits)

def asGranule (v : Json) : Option GranuleMinMax := do
  let granuleIdx ← (← Json.field "granule_idx" v) |> asUnsigned 32
  let rowOffset ← (← Json.field "row_offset" v) |> asUnsigned 64
  let rowCount ← (← Json.field "row_count" v) |> asUnsigned 32
  let minVal ← asOptional (Json.asList Json.asOctet) (Json.field "min_val" v)
  let maxVal ← asOptional (Json.asList Json.asOctet) (Json.field "max_val" v)
  return ⟨granuleIdx, rowOffset, rowCount, minVal, maxVal⟩

namespace MinMaxIndex

def fromBytes (data : Bytes) : Option MinMaxIndex := do
  let text ← Text.decode data
  let v ← Json.parse text
  let granules ← (← Json.field "granules" v) |> Json.asList asGranule
  return ⟨granules⟩

def granuleCount (index : MinMaxIndex) : Nat := index.granules.length

def granuleMinMax (index : MinMaxIndex) (g : Nat) : Option (Bytes × Bytes) := do
  let granule ← index.granules[g]?
  match granule.minVal, granule.maxVal with
  | some mn, some mx => some (mn, mx)
  | _, _ => none

end MinMaxIndex

def decompressOrRaw (data : Bytes) : Bytes := (Lz4.decompressSizePrepended data).getD data

def readColumn (files : PartitionFiles) (seq : Nat) (acc : Bytes × Nat) (col : String) :
    Bytes × Nat :=
  match files.get? (toLex (col, segStem seq ++ ".col")) with
  | none => acc
  | some data =>
    let raw := decompressOrRaw data
    (acc.1 ++ raw, if acc.2 = 0 ∧ 4 ≤ raw.length then ofLeBytes (raw.take 4) else acc.2)

def readSegmentArrow (files : PartitionFiles) (segSeq : Nat) (columns : List String) :
    Bytes × Nat :=
  columns.foldl (readColumn files segSeq) ([], 0)

def readSegmentRaw (files : PartitionFiles) (seqNum : Nat) (columns : List String) : Bytes × Nat :=
  columns.foldl (readColumn files seqNum) ([], 0)

/-- Scanners get the values and their number. -/
structure Agrees (files : PartitionFiles) (colName : String) (seq : Nat) (values : List Bytes) :
    Prop where
  arrow : readSegmentArrow files seq [colName] = (values.flatten, values.length)
  raw : readSegmentRaw files seq [colName] = (values.flatten, values.length)
  minMax : ∃ index, (files.get? (toLex (colName, segStem seq ++ ".min_max"))).bind
    MinMaxIndex.fromBytes = some index ∧ (index.granules.map (·.rowCount)).sum = values.length

variable (lz4 : Lz4.Compressor)

theorem colFile_head (values : List Bytes) (sequenceNum columnId : Nat) :
    ∃ rest, colFile lz4 values sequenceNum columnId =
      0x57 :: 0x4F :: 0x57 :: 0x44 :: 0x42 :: 0x43 :: 0x4F :: 0x4C :: 1 :: 0 :: 0 :: 0 :: rest :=
  ⟨_, rfl⟩

theorem decompressOrRaw_colFile (values : List Bytes) (sequenceNum columnId : Nat) :
    decompressOrRaw (colFile lz4 values sequenceNum columnId) =
      colFile lz4 values sequenceNum columnId := by
  obtain ⟨rest, head⟩ := colFile_head lz4 values sequenceNum columnId
  rw [decompressOrRaw, head, Lz4.decompress_zero_offset _ _ _ _ _ _ _ _ _ _ (by decide)]
  rfl

def magicRows : Nat := 1146572631

theorem get?_flushColumn (lz4 : Lz4.Compressor) (bloom : List Bytes → Bytes)
    (files : PartitionFiles) (colName : String) (values : List Bytes)
    (seq sequenceNum columnId : Nat) :
    let written := (flushColumn lz4 bloom files colName values seq sequenceNum columnId).1
    written.get? (toLex (colName, segStem seq ++ ".col")) =
        some (colFile lz4 values sequenceNum columnId) ∧
      written.get? (toLex (colName, segStem seq ++ ".min_max")) = some (writeMinMaxFile
          ⟨(least values).getD [], (greatest values).getD [], 0, values.length⟩) := by
  have apart : ∀ a b : String, a ≠ b →
      (toLex (colName, segStem seq ++ a) : String ×ₗ String) ≠ toLex (colName, segStem seq ++ b) := by
    intro a b different same
    exact different (String.append_right_inj (segStem seq) |>.mp (Prod.mk.inj (toLex.injective same)).2)
  simp only [flushColumn, OrdMap.get?_insert]
  refine ⟨?_, if_pos trivial⟩
  rw [if_neg (apart _ _ (by decide)), if_neg (apart _ _ (by decide)), if_pos trivial]

theorem readColumn_flushColumn (bloom : List Bytes → Bytes)
    (files : PartitionFiles) (colName : String) (values : List Bytes)
    (seq sequenceNum columnId : Nat) :
    readColumn (flushColumn lz4 bloom files colName values seq sequenceNum columnId).1 seq
      ([], 0) colName = (colFile lz4 values sequenceNum columnId, magicRows) := by
  obtain ⟨rest, head⟩ := colFile_head lz4 values sequenceNum columnId
  have four : (colFile lz4 values sequenceNum columnId).take 4 = [0x57, 0x4F, 0x57, 0x44] := by
    rw [head]
    rfl
  have rows : ofLeBytes ((colFile lz4 values sequenceNum columnId).take 4) = magicRows := by
    rw [four]
    decide
  have long : 4 ≤ (colFile lz4 values sequenceNum columnId).length := by
    rw [head]
    simp only [List.length_cons]
    omega
  rw [readColumn, (get?_flushColumn lz4 bloom files colName values seq sequenceNum columnId).1]
  simp only [decompressOrRaw_colFile, List.nil_append, rows, long, and_self, if_pos]

theorem fromBytes_writeMinMaxFile (r : MinMaxRecord) :
    MinMaxIndex.fromBytes (writeMinMaxFile r) = none := by
  obtain ⟨rest, head⟩ : ∃ rest, writeMinMaxFile r = 0x57 :: rest := ⟨_, rfl⟩
  rw [MinMaxIndex.fromBytes, head]
  cases decoded : Text.decode (0x57 :: rest) with
  | none => rfl
  | some text =>
    obtain ⟨c, more, rfl, value⟩ := Text.head_of_ascii decoded (by decide)
    obtain rfl : c = 'W' := Char.toNat_inj.mp value
    have refused : Json.parse ('W' :: more) = none := by
      simp [Json.parse, Json.parseValue, Json.skipSpace, Json.isSpace, Json.readInt, Json.readNat]
    simp [refused]

theorem not_agrees_flushColumn (bloom : List Bytes → Bytes)
    (files : PartitionFiles) (colName : String) (values : List Bytes)
    (seq sequenceNum columnId : Nat) :
    ¬ Agrees (flushColumn lz4 bloom files colName values seq sequenceNum columnId).1 colName seq
      values := by
  intro agrees
  obtain ⟨index, read, -⟩ := agrees.minMax
  rw [(get?_flushColumn lz4 bloom files colName values seq sequenceNum columnId).2,
    Option.bind_some, fromBytes_writeMinMaxFile] at read
  cases read

/-- No column of any memtable is read back. -/
theorem flushed_column_misread (lz4 : Lz4.Compressor) (bloom : List Bytes → Bytes)
    (files : PartitionFiles) (imm : ImmutableMemTable) (colName : String)
    (seq sequenceNum columnId : Nat) :
    let written := (flushColumn lz4 bloom files colName (columnValues imm colName) seq sequenceNum
      columnId).1
    let file := colFile lz4 (columnValues imm colName) sequenceNum columnId
    readSegmentArrow written seq [colName] = (file, magicRows) ∧
      readSegmentRaw written seq [colName] = (file, magicRows) ∧
      (written.get? (toLex (colName, segStem seq ++ ".min_max"))).bind MinMaxIndex.fromBytes =
        none ∧
      ¬ Agrees written colName seq (columnValues imm colName) := by
  have segment := readColumn_flushColumn lz4 bloom files colName (columnValues imm colName) seq
    sequenceNum columnId
  refine ⟨segment, segment, ?_, not_agrees_flushColumn _ _ _ _ _ _ _ _⟩
  rw [(get?_flushColumn lz4 bloom files colName _ seq sequenceNum columnId).2, Option.bind_some]
  exact fromBytes_writeMinMaxFile _

def oneRow : ImmutableMemTable :=
  ⟨[(⟨⟨[⟨"ts", [0]⟩]⟩, 0⟩, ⟨[("v", [1, 2, 3])], 1, false⟩)], 84⟩

theorem oneRow_misread : columnValues oneRow "v" = [[1, 2, 3]] ∧
      (readSegmentArrow (flushColumn Lz4.storing (fun _ => []) .empty "v"
        (columnValues oneRow "v") 1 1 0).1 1 ["v"]).2 = 1146572631 ∧
      (readSegmentArrow (flushColumn Lz4.storing (fun _ => []) .empty "v"
        (columnValues oneRow "v") 1 1 0).1 1 ["v"]).1 ≠ [1, 2, 3] ∧
      ¬ Agrees (flushColumn Lz4.storing (fun _ => []) .empty "v" (columnValues oneRow "v") 1 1 0).1
        "v" 1 (columnValues oneRow "v") :=
  ⟨by decide +kernel, by decide +kernel, by decide +kernel, not_agrees_flushColumn _ _ _ _ _ _ _ _⟩

end WowDb.Storage
