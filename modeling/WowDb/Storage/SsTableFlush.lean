import WowDb.Storage.SsTable
import WowDb.Storage.TabletWriter

/-!
# The flush of a memtable into column files

`SsTableFlusher::flush_with_lineage` of `storage-node/src/lsm/sstable.rs`: the files it writes and
their names. The hash map of the columns is read in any order; the compressor, the Bloom filter and the
JSON of the metadata are parameters.
-/
namespace WowDb.Storage
open WowDb.Lib List

structure SsTableMeta where
  id : Uuid
  seq : Nat
  sequenceNum : Nat
  generation : Nat
  compactedFrom : List Uuid
  rowCount : Nat
  columns : List ColumnFileMeta
  minSortKey : Bytes
  maxSortKey : Bytes

abbrev FileWrite := (String ×ₗ String) × Bytes

def metaKey (seq : Nat) : String ×ₗ String :=
  toLex ("_meta", "sstable-" ++ Text.pad10 seq ++ ".json")

structure Flusher where
  lz4 : Lz4.Compressor
  bloom : List Bytes → Bytes
  metaJson : SsTableMeta → Bytes
  order : HashIteration String (List Bytes)

namespace Flusher

def plain : Flusher := ⟨Lz4.storing, fun _ => [], fun _ => [], .ascending⟩

variable (F : Flusher)

def columnFiles (colName : String) (values : List Bytes) (seq sequenceNum columnId : Nat) :
    List FileWrite :=
  [(toLex (colName, segStem seq ++ ".col"), colFile F.lz4 values sequenceNum columnId),
    (toLex (colName, segStem seq ++ ".bloom"), F.bloom values),
    (toLex (colName, segStem seq ++ ".min_max"), writeMinMaxFile
      ⟨(least values).getD [], (greatest values).getD [], 0, values.length⟩)]

def columnMeta (colName : String) (values : List Bytes) (seq sequenceNum columnId : Nat) :
    ColumnFileMeta :=
  (flushColumn F.lz4 F.bloom .empty colName values seq sequenceNum columnId).2

def columns (imm : ImmutableMemTable) : List ((String × List Bytes) × Nat) :=
  (F.order.iterate (colData imm)).zipIdx

def flushWrites (imm : ImmutableMemTable) (seq sequenceNum generation : Nat)
    (compactedFrom : List Uuid) (id : Uuid) : Option (List FileWrite × SsTableMeta) :=
  match imm.entries.map TabletWriter.keyOf with
  | [] => none
  | first :: rest =>
    let sst : SsTableMeta :=
      { id
        seq
        sequenceNum
        generation
        compactedFrom
        rowCount := (imm.entries.filter fun e => !e.2.deleted).length
        columns := (F.columns imm).map fun c => F.columnMeta c.1.1 c.1.2 seq sequenceNum c.2
        minSortKey := rest.foldl min first
        maxSortKey := rest.foldl max first }
    some ((F.columns imm).flatMap (fun c => F.columnFiles c.1.1 c.1.2 seq sequenceNum c.2) ++
      [(metaKey seq, F.metaJson sst)], sst)

def writeAll (files : PartitionFiles) (writes : List FileWrite) : PartitionFiles :=
  writes.foldl (fun files w => files.insert w.1 w.2) files

def flushWithLineage (files : PartitionFiles) (imm : ImmutableMemTable)
    (seq sequenceNum generation : Nat) (compactedFrom : List Uuid) (id : Uuid) :
    Option (PartitionFiles × SsTableMeta) :=
  (F.flushWrites imm seq sequenceNum generation compactedFrom id).map fun (writes, sst) =>
    (writeAll files writes, sst)

theorem flushedSst_of_meta {imm : ImmutableMemTable} {seq : Nat} {id : Uuid}
    {writes : List FileWrite} {sst : SsTableMeta} (partitionDir : String) (sizeBytes : Nat)
    (planned : F.flushWrites imm seq seq 0 [] id = some (writes, sst)) :
    TabletWriter.flushedSst partitionDir imm seq id sizeBytes = some
      { id := sst.id
        sequenceNum := sst.sequenceNum
        generation := sst.generation
        compactedFrom := sst.compactedFrom
        level := 0
        path := Text.joinPath partitionDir ("_meta/sstable-" ++ Text.pad10 sst.seq ++ ".json")
        sizeBytes
        rowCount := sst.rowCount
        minSortKey := sst.minSortKey
        maxSortKey := sst.maxSortKey } := by
  unfold flushWrites at planned
  unfold TabletWriter.flushedSst
  cases keys : imm.entries.map TabletWriter.keyOf with
  | nil =>
    rw [keys] at planned
    cases planned
  | cons first rest =>
    rw [keys] at planned
    cases planned
    rfl

end Flusher

inductive OfSegment (seq : Nat) : String ×ₗ String → Prop where
  | column (colName ext : String) (known : ext ∈ [".col", ".bloom", ".min_max"]) :
      OfSegment seq (toLex (colName, segStem seq ++ ext))
  | metadata : OfSegment seq (metaKey seq)

variable {m n : Nat}

theorem numbered_inj {front : String} {ext ext' : List Char}
    (same : front.toList ++ (Text.zeroPad 10 m ++ '.' :: ext) =
      front.toList ++ (Text.zeroPad 10 n ++ '.' :: ext')) : m = n ∧ ext = ext' := by
  obtain ⟨number, rest⟩ := Text.separated_inj (Text.notMem_zeroPad (by decide))
    (Text.notMem_zeroPad (by decide)) (append_cancel_left same)
  exact ⟨Text.zeroPad_inj number, rest⟩

theorem toList_segStem (seq : Nat) :
    (segStem seq).toList = "seg-".toList ++ Text.zeroPad 10 seq := by
  simp [segStem, Text.toList_pad10]

theorem dot_of_known {ext : String} (known : ext ∈ [".col", ".bloom", ".min_max"]) :
    ∃ rest, ext.toList = '.' :: rest := by
  simp only [mem_cons, not_mem_nil, or_false] at known
  rcases known with rfl | rfl | rfl
  · exact ⟨_, rfl⟩
  · exact ⟨_, rfl⟩
  · exact ⟨_, rfl⟩

theorem segStem_append_inj {ext ext' : String}
    (known : ext ∈ [".col", ".bloom", ".min_max"]) (known' : ext' ∈ [".col", ".bloom", ".min_max"])
    (same : segStem m ++ ext = segStem n ++ ext') : m = n ∧ ext = ext' := by
  obtain ⟨rest, dot⟩ := dot_of_known known
  obtain ⟨rest', dot'⟩ := dot_of_known known'
  have chars := congrArg String.toList same
  simp only [String.toList_append, toList_segStem, dot, dot', append_assoc] at chars
  obtain ⟨number, tails⟩ := numbered_inj chars
  exact ⟨number, String.toList_injective (by rw [dot, dot', tails])⟩

theorem metaKey_inj (same : metaKey m = metaKey n) : m = n := by
  have chars := congrArg String.toList (Prod.mk.inj (toLex.injective same)).2
  simp only [String.toList_append, Text.toList_pad10, append_assoc] at chars
  exact (numbered_inj chars).1

theorem segment_ne_metaKey (colName : String) (seq n : Nat) (ext : String) :
    (toLex (colName, segStem seq ++ ext) : String ×ₗ String) ≠ metaKey n := by
  intro same
  have chars := congrArg String.toList (Prod.mk.inj (toLex.injective same)).2
  simp [segStem] at chars

theorem OfSegment.seq_eq {key : String ×ₗ String} (first : OfSegment m key)
    (second : OfSegment n key) : m = n := by
  cases first with
  | column colName ext known =>
    generalize given : (toLex (colName, segStem m ++ ext) : String ×ₗ String) = key at second
    cases second with
    | column colName' ext' known' =>
      exact (segStem_append_inj known known' (Prod.mk.inj (toLex.injective given)).2).1
    | metadata => exact absurd given (segment_ne_metaKey _ _ _ _)
  | metadata =>
    generalize given : metaKey m = key at second
    cases second with
    | column colName' ext' known' => exact absurd given.symm (segment_ne_metaKey _ _ _ _)
    | metadata => exact metaKey_inj given

namespace Flusher

variable (F : Flusher)

theorem columnFiles_ofSegment {colName : String} {values : List Bytes}
    {seq sequenceNum columnId : Nat} {w : FileWrite}
    (member : w ∈ F.columnFiles colName values seq sequenceNum columnId) : OfSegment seq w.1 := by
  simp only [columnFiles, mem_cons, not_mem_nil, or_false] at member
  rcases member with rfl | rfl | rfl
  · exact .column colName ".col" (by simp)
  · exact .column colName ".bloom" (by simp)
  · exact .column colName ".min_max" (by simp)

theorem columnFiles_keys (colName : String) (values : List Bytes) (seq sequenceNum columnId : Nat) :
    (F.columnFiles colName values seq sequenceNum columnId).map Prod.fst =
      [".col", ".bloom", ".min_max"].map fun ext => toLex (colName, segStem seq ++ ext) := rfl

theorem nodup_columnFiles (colName : String) (values : List Bytes)
    (seq sequenceNum columnId : Nat) :
    ((F.columnFiles colName values seq sequenceNum columnId).map Prod.fst).Nodup := by
  rw [columnFiles_keys]
  refine List.Nodup.map_on ?_ (by decide)
  intro ext known ext' known' same
  exact (segStem_append_inj known known' (Prod.mk.inj (toLex.injective same)).2).2

theorem columns_nodup (imm : ImmutableMemTable) : ((F.columns imm).map fun c => c.1.1).Nodup := by
  have names : (F.columns imm).map (fun c => c.1.1) =
      (F.order.iterate (colData imm)).map Prod.fst := by
    have twice : (fun c : (String × List Bytes) × Nat => c.1.1) = Prod.fst ∘ Prod.fst := rfl
    rw [columns, twice, ← map_map, zipIdx_map_fst]
  rw [names]
  exact F.order.nodup_keys _

theorem flushWrites_spec {imm : ImmutableMemTable} {seq sequenceNum generation : Nat}
    {compactedFrom : List Uuid} {id : Uuid} {writes : List FileWrite} {sst : SsTableMeta}
    (planned : F.flushWrites imm seq sequenceNum generation compactedFrom id = some (writes, sst)) :
    (∀ w ∈ writes, OfSegment seq w.1) ∧ (writes.map Prod.fst).Nodup := by
  unfold flushWrites at planned
  split at planned
  · cases planned
  · simp only [Option.some.injEq, Prod.mk.injEq] at planned
    obtain ⟨rfl, -⟩ := planned
    constructor
    · intro w member
      rcases mem_append.mp member with column | last
      · obtain ⟨c, -, file⟩ := mem_flatMap.mp column
        exact F.columnFiles_ofSegment file
      · rw [mem_singleton.mp last]
        exact .metadata
    · rw [map_append, map_flatMap]
      refine List.Nodup.append ?_ (nodup_singleton _) ?_
      · -- files of one column differ in their extension, those of two in their directory
        refine nodup_flatMap.mpr ⟨fun c _ => F.nodup_columnFiles _ _ _ _ _, ?_⟩
        refine (pairwise_map.mp (F.columns_nodup imm)).imp ?_
        intro c c' different key inFirst inSecond
        simp only [columnFiles_keys] at inFirst inSecond
        obtain ⟨ext, -, rfl⟩ := mem_map.mp inFirst
        obtain ⟨ext', -, same⟩ := mem_map.mp inSecond
        exact different (Prod.mk.inj (toLex.injective same)).1.symm
      · intro key inColumns isMeta
        obtain ⟨c, -, file⟩ := mem_flatMap.mp inColumns
        rw [columnFiles_keys] at file
        obtain ⟨ext, -, rfl⟩ := mem_map.mp file
        exact segment_ne_metaKey _ _ _ _ (mem_singleton.mp isMeta)

theorem flushWrites_isSome {imm : ImmutableMemTable} (rows : imm.entries ≠ [])
    (seq sequenceNum generation : Nat) (compactedFrom : List Uuid) (id : Uuid) :
    ∃ first rest sst, F.flushWrites imm seq sequenceNum generation compactedFrom id =
      some (first :: rest, sst) := by
  unfold flushWrites
  cases keys : imm.entries.map TabletWriter.keyOf with
  | nil => exact absurd (map_eq_nil_iff.mp keys) rows
  | cons key others =>
    simp only [Option.some.injEq, Prod.mk.injEq]
    cases columns : (F.columns imm).flatMap
        (fun c => F.columnFiles c.1.1 c.1.2 seq sequenceNum c.2) with
    | nil => exact ⟨_, _, _, rfl, rfl⟩
    | cons file more => exact ⟨_, _, _, rfl, rfl⟩

end Flusher

end WowDb.Storage
