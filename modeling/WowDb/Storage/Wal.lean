import WowDb.Lib.Crc32
import WowDb.Lib.Framing
import WowDb.Lib.Run

/-!
# Write-ahead log of one tablet

`storage-node/src/lsm/wal.rs`.
-/
namespace WowDb.Storage
open WowDb.Lib

structure WalEntry where
  txId : UInt64
  payload : Bytes
  deriving DecidableEq

abbrev SegmentFiles := List (Nat × Bytes)

structure Segment where
  size : Nat
  seq : Nat
  deriving DecidableEq

structure SegmentWriter where
  files : SegmentFiles
  segment : Segment
  deriving DecidableEq

structure GroupCommitBuffer where
  pending : List WalEntry
  totalBytes : Nat
  maxBytes : Nat
  deriving DecidableEq

namespace Wal

def defaultMaxSegmentBytes : Nat := 64 * 1024 * 1024

def defaultMaxBatchBytes : Nat := 4 * 1024 * 1024

def recordHeaderSize : Nat := 16

end Wal

namespace GroupCommitBuffer

def new (maxBytes : Nat) : GroupCommitBuffer := ⟨[], 0, maxBytes⟩

variable (buf : GroupCommitBuffer)

def push (entry : WalEntry) : GroupCommitBuffer :=
  { buf with
    pending := buf.pending ++ [entry]
    totalBytes := buf.totalBytes + (Wal.recordHeaderSize + entry.payload.length) }

def shouldFlush : Bool := buf.maxBytes ≤ buf.totalBytes

def takeAll : List WalEntry × GroupCommitBuffer :=
  (buf.pending, { buf with pending := [], totalBytes := 0 })

end GroupCommitBuffer

namespace Wal

def content (files : SegmentFiles) (seq : Nat) : Bytes := (files.lookup seq).getD []

def appendTo (files : SegmentFiles) (seq : Nat) (octets : Bytes) : SegmentFiles :=
  files.map fun f => if f.1 = seq then (f.1, f.2 ++ octets) else f

def allSeqs (files : SegmentFiles) : List Nat := files.map (·.1)

def latestSeq (files : SegmentFiles) : Nat := (allSeqs files).foldl max 0

def openSegment (files : SegmentFiles) (seq : Nat) : SegmentWriter :=
  if seq ∈ allSeqs files then ⟨files, (content files seq).length, seq⟩
  else ⟨files ++ [(seq, [])], 0, seq⟩

def openLatest (files : SegmentFiles) : SegmentWriter := openSegment files (latestSeq files)

variable (crc : Bytes → UInt32)

def checksum (txId : UInt64) (payload : Bytes) : UInt32 :=
  crc (Bytes.leBytes 8 txId.toNat ++ payload)

def record (entry : WalEntry) : Bytes :=
  Bytes.leBytes 4 (checksum crc entry.txId entry.payload).toNat ++
    (Bytes.leBytes 8 entry.txId.toNat ++
      (Bytes.leBytes 4 (entry.payload.length % 2 ^ 32) ++ entry.payload))

def recordLen (entry : WalEntry) : Nat := recordHeaderSize + entry.payload.length

def rotate (maxSeg : Nat) (w : SegmentWriter) (entry : WalEntry) : SegmentWriter :=
  if maxSeg < w.segment.size + recordLen entry then openSegment w.files (w.segment.seq + 1) else w

def writeRecord (maxSeg : Nat) (w : SegmentWriter) (entry : WalEntry) : SegmentWriter :=
  let w := rotate maxSeg w entry
  ⟨appendTo w.files w.segment.seq (record crc entry), w.segment.size + recordLen entry,
    w.segment.seq⟩

def flushBatch (maxSeg : Nat) (w : SegmentWriter) (batch : List WalEntry) : SegmentWriter :=
  batch.foldl (writeRecord crc maxSeg) w

def readRecord (octets : Bytes) : Option (WalEntry × Bytes) := do
  let (header, rest) ← Bytes.readExact recordHeaderSize octets
  let storedCrc := Bytes.ofLeBytes (header.take 4)
  let txId := UInt64.ofNat (Bytes.ofLeBytes ((header.drop 4).take 8))
  let len := Bytes.ofLeBytes (header.drop 12)
  let (data, rest) ← Bytes.readExact len rest
  if (checksum crc txId data).toNat = storedCrc then some (⟨txId, data⟩, rest) else none

theorem readRecord_some {octets rest : Bytes} {entry : WalEntry}
    (read : readRecord crc octets = some (entry, rest)) :
    ∃ header, header.length = recordHeaderSize ∧ octets = header ++ (entry.payload ++ rest) ∧
      entry.payload.length = Bytes.ofLeBytes (header.drop 12) ∧
      entry.txId = UInt64.ofNat (Bytes.ofLeBytes ((header.drop 4).take 8)) ∧
      (checksum crc entry.txId entry.payload).toNat = Bytes.ofLeBytes (header.take 4) := by
  simp only [readRecord, Option.bind_eq_bind, Option.bind_eq_some_iff, Prod.exists] at read
  obtain ⟨header, afterHeader, readHeader, data, after, readData, verified⟩ := read
  obtain ⟨rfl, headerLength⟩ := Bytes.readExact_some readHeader
  obtain ⟨rfl, dataLength⟩ := Bytes.readExact_some readData
  by_cases matching : (checksum crc (UInt64.ofNat (Bytes.ofLeBytes ((header.drop 4).take 8)))
      data).toNat = Bytes.ofLeBytes (header.take 4)
  · rw [if_pos matching] at verified
    simp only [Option.some.injEq, Prod.mk.injEq] at verified
    obtain ⟨rfl, rfl⟩ := verified
    exact ⟨header, headerLength, rfl, dataLength, rfl, matching⟩
  · rw [if_neg matching] at verified
    cases verified

theorem readRecord_of_header {header payload rest : Bytes} {txId : UInt64}
    (headerLength : header.length = recordHeaderSize)
    (length : payload.length = Bytes.ofLeBytes (header.drop 12))
    (tx : txId = UInt64.ofNat (Bytes.ofLeBytes ((header.drop 4).take 8)))
    (matching : (checksum crc txId payload).toNat = Bytes.ofLeBytes (header.take 4)) :
    readRecord crc (header ++ (payload ++ rest)) = some (⟨txId, payload⟩, rest) := by
  have readHeader := Bytes.readExact_of_length headerLength (payload ++ rest)
  have readData := Bytes.readExact_of_length length rest
  simp only [readRecord, readHeader, readData, Option.bind_eq_bind, Option.bind_some, ← tx,
    matching, if_true]

def recordReader : FrameReader UInt8 WalEntry where
  read := readRecord crc
  shrinks read := by
    obtain ⟨header, headerLength, rfl, -⟩ := readRecord_some crc read
    simp only [List.length_append, headerLength, recordHeaderSize]
    omega
  extends_right read more := by
    obtain ⟨header, headerLength, rfl, length, tx, matching⟩ := readRecord_some crc read
    rw [List.append_assoc, List.append_assoc]
    exact readRecord_of_header crc headerLength length tx matching

def replaySegment (octets : Bytes) : List WalEntry := (recordReader crc).readAll octets

def replay (files : SegmentFiles) : List WalEntry :=
  ((allSeqs files).insertionSort (· ≤ ·)).flatMap fun seq => replaySegment crc (content files seq)

def truncateBefore (upToSeq : Nat) (w : SegmentWriter) : SegmentWriter :=
  { w with files := w.files.filter fun f => ¬ (f.1 < upToSeq ∧ f.1 < w.segment.seq) }

def Framed (entry : WalEntry) : Prop := entry.payload.length < 2 ^ 32

instance (entry : WalEntry) : Decidable (Framed entry) :=
  inferInstanceAs (Decidable (entry.payload.length < 2 ^ 32))

theorem readRecord_record {entry : WalEntry} (framed : Framed entry) (rest : Bytes) :
    readRecord crc (record crc entry ++ rest) = some (entry, rest) := by
  let sum := Bytes.leBytes 4 (checksum crc entry.txId entry.payload).toNat
  let tx := Bytes.leBytes 8 entry.txId.toNat
  let len := Bytes.leBytes 4 (entry.payload.length % 2 ^ 32)
  have split : record crc entry ++ rest = (sum ++ (tx ++ len)) ++ (entry.payload ++ rest) := by
    simp [record, sum, tx, len]
  have sumLength : sum.length = 4 := Bytes.length_leBytes 4 _
  have txLength : tx.length = 8 := Bytes.length_leBytes 8 _
  have lenPart : (sum ++ (tx ++ len)).drop 12 = len := by
    simp [List.drop_append, sumLength, txLength]
  have txPart : ((sum ++ (tx ++ len)).drop 4).take 8 = tx := by
    simp [sumLength, txLength]
  have sumPart : (sum ++ (tx ++ len)).take 4 = sum := by
    simp [sumLength]
  rw [split]
  apply readRecord_of_header
  · simp [sum, tx, len, recordHeaderSize]
  · rw [lenPart, Bytes.ofLeBytes_leBytes_of_lt (by omega), Nat.mod_eq_of_lt framed]
  · rw [txPart, Bytes.ofLeBytes_leBytes_of_lt entry.txId.toNat_lt, UInt64.ofNat_toNat]
  · rw [sumPart, Bytes.ofLeBytes_leBytes_of_lt (UInt32.toNat_lt _)]

end Wal
end WowDb.Storage

namespace WowDb.Storage.Wal
open WowDb.Lib List

variable (crc : Bytes → UInt32)

def Ordered (files : SegmentFiles) : Prop := (allSeqs files).Pairwise (· < ·)

structure Current (w : SegmentWriter) (older : SegmentFiles) (octets : Bytes) : Prop where
  files : w.files = older ++ [(w.segment.seq, octets)]
  ordered : Ordered w.files
  size : w.segment.size = octets.length

def Whole (octets : Bytes) : Prop := (replaySegment crc octets).flatMap (record crc) = octets

instance (octets : Bytes) : Decidable (Whole crc octets) :=
  inferInstanceAs (Decidable (_ = octets))

def replayFiles (files : SegmentFiles) : List WalEntry :=
  files.flatMap fun f => replaySegment crc f.2

variable {files : SegmentFiles}

theorem content_of_mem (ordered : Ordered files) {f : Nat × Bytes} (member : f ∈ files) :
    content files f.1 = f.2 := by
  induction files with
  | nil => cases member
  | cons g rest ih =>
    obtain ⟨newer, orderedRest⟩ := pairwise_cons.mp ordered
    cases member with
    | head => simp [content, lookup]
    | tail _ later =>
      have different : f.1 ≠ g.1 := by
        have greater : g.1 < f.1 := newer f.1 (mem_map_of_mem later)
        omega
      have key : (f.1 == g.1) = false := by simpa using different
      have found := ih orderedRest later
      simpa [content, lookup, key] using found

theorem replay_of_ordered (ordered : Ordered files) : replay crc files = replayFiles crc files := by
  have sorted : (allSeqs files).insertionSort (· ≤ ·) = allSeqs files := by
    apply List.Pairwise.insertionSort_eq
    exact ordered.imp fun lt => Nat.le_of_lt lt
  rw [replay, sorted, allSeqs, flatMap_map, replayFiles]
  refine flatMap_congr fun f member => ?_
  rw [content_of_mem ordered member]

variable {older : SegmentFiles} {octets : Bytes}

variable {seq : Nat}

theorem ordered_append_last :
    Ordered (older ++ [(seq, octets)]) ↔ Ordered older ∧ ∀ f ∈ older, f.1 < seq := by
  simp [Ordered, allSeqs, pairwise_append, pairwise_map]

theorem appendTo_current (ordered : Ordered (older ++ [(seq, octets)])) (more : Bytes) :
    appendTo (older ++ [(seq, octets)]) seq more = older ++ [(seq, octets ++ more)] := by
  obtain ⟨-, smaller⟩ := ordered_append_last.mp ordered
  have kept : older.map (fun f => if f.1 = seq then (f.1, f.2 ++ more) else f) = older := by
    refine (map_congr_left fun f member => ?_).trans (map_id older)
    have different : f.1 ≠ seq := by
      have lt := smaller f member
      omega
    simp [different]
  simp only [appendTo, map_append, kept, map_cons, map_nil, if_true]

theorem record_length (entry : WalEntry) : (record crc entry).length = recordLen entry := by
  simp only [record, recordLen, recordHeaderSize, length_append, Bytes.length_leBytes]
  omega

variable {w : SegmentWriter}

theorem current_appendTo (current : Current w older octets) (more : Bytes) (n : Nat)
    (length : more.length = n) :
    Current ⟨appendTo w.files w.segment.seq more, w.segment.size + n, w.segment.seq⟩ older
      (octets ++ more) := by
  obtain ⟨files, ordered, size⟩ := current
  rw [files] at ordered
  have appended := appendTo_current ordered more
  refine ⟨?_, ?_, ?_⟩
  · rw [files, appended]
  · rw [files, appended]
    exact ordered_append_last.mpr (ordered_append_last.mp ordered)
  · simp [size, length]

theorem current_open_next (current : Current w older octets) :
    Current (openSegment w.files (w.segment.seq + 1)) w.files [] := by
  obtain ⟨files, ordered, size⟩ := current
  have smaller : ∀ f ∈ w.files, f.1 < w.segment.seq + 1 := by
    intro f member
    rw [files] at ordered member
    rcases mem_append.mp member with old | last
    · have lt := (ordered_append_last.mp ordered).2 f old
      omega
    · cases mem_singleton.mp last
      omega
  have absent : w.segment.seq + 1 ∉ allSeqs w.files := by
    intro member
    obtain ⟨f, inFiles, equal⟩ := mem_map.mp member
    have lt := smaller f inFiles
    omega
  rw [openSegment, if_neg absent]
  exact ⟨rfl, ordered_append_last.mpr ⟨ordered, smaller⟩, rfl⟩

theorem current_rotate (maxSeg : Nat) (current : Current w older octets) (entry : WalEntry) :
    (¬ maxSeg < w.segment.size + recordLen entry ∧ rotate maxSeg w entry = w) ∨
      (maxSeg < w.segment.size + recordLen entry ∧ Current (rotate maxSeg w entry) w.files []) := by
  by_cases full : maxSeg < w.segment.size + recordLen entry
  · right
    rw [rotate, if_pos full]
    exact ⟨full, current_open_next current⟩
  · left
    rw [rotate, if_neg full]
    exact ⟨full, rfl⟩

theorem readRecord_framed (octets : Bytes) (entry : WalEntry) (rest : Bytes)
    (read : (recordReader crc).read octets = some (entry, rest)) : Framed entry := by
  obtain ⟨header, headerLength, -, length, -⟩ := readRecord_some crc read
  have field : (header.drop 12).length = 4 := by
    simp [headerLength, recordHeaderSize]
  have bound := Bytes.ofLeBytes_lt (header.drop 12)
  rw [field] at bound
  unfold Framed
  omega

theorem readRecord_written (octets : Bytes) (entry : WalEntry) (rest : Bytes)
    (read : (recordReader crc).read octets = some (entry, rest)) :
    octets = record crc entry ++ rest := by
  have framed := readRecord_framed crc octets entry rest read
  obtain ⟨header, headerLength, rfl, length, tx, matching⟩ := readRecord_some crc read
  have txLength : ((header.drop 4).take 8).length = 8 := by simp [headerLength, recordHeaderSize]
  have small := Bytes.ofLeBytes_lt ((header.drop 4).take 8)
  rw [txLength] at small
  have txId : entry.txId.toNat = Bytes.ofLeBytes ((header.drop 4).take 8) := by
    rw [tx, UInt64.toNat_ofNat']
    exact Nat.mod_eq_of_lt small
  rw [record, matching, txId, Nat.mod_eq_of_lt framed, length, Bytes.leBytes_ofLeBytes txLength,
    Bytes.leBytes_ofLeBytes (by simp [headerLength, recordHeaderSize]),
    Bytes.leBytes_ofLeBytes (by simp [headerLength, recordHeaderSize])]
  have fields : header = header.take 4 ++ ((header.drop 4).take 8 ++ header.drop 12) := by
    rw [← drop_drop (i := 8) (j := 4), take_append_drop, take_append_drop]
  simp only [append_assoc] at fields ⊢
  nth_rewrite 1 [fields]
  simp only [append_assoc]

/-- Replay decodes the front of a segment up to the first octets that are no record, whatever the
file holds. -/
theorem replaySegment_longest (octets : Bytes) : ∃ rest,
    octets = (replaySegment crc octets).flatMap (record crc) ++ rest ∧ readRecord crc rest = none :=
  FrameReader.readAll_written (readRecord_written crc) octets

theorem replaySegment_append (whole : Whole crc octets) (more : Bytes) :
    replaySegment crc (octets ++ more) = replaySegment crc octets ++ replaySegment crc more :=
  FrameReader.readAll_append_of_whole (fun _ framed rest => readRecord_record crc framed rest)
    (readRecord_framed crc) whole more

theorem replaySegment_records (entries : List WalEntry) (framed : ∀ e ∈ entries, Framed e) :
    replaySegment crc (entries.flatMap (record crc)) = entries := by
  have decoded := FrameReader.readAll_frames (R := recordReader crc)
    (fun _ framed rest => readRecord_record crc framed rest) framed []
  simpa [replaySegment] using decoded

variable {entry : WalEntry}

theorem replaySegment_record (framed : Framed entry) :
    replaySegment crc (record crc entry) = [entry] := by
  have decoded := replaySegment_records crc [entry] (by simpa using framed)
  simpa using decoded

theorem whole_nil : Whole crc [] := rfl

theorem whole_append_record (whole : Whole crc octets) (framed : Framed entry) :
    Whole crc (octets ++ record crc entry) := by
  have single := replaySegment_record crc framed
  unfold Whole at whole ⊢
  rw [replaySegment_append crc whole, single, flatMap_append, whole]
  simp

def Appendable (maxSeg : Nat) (w : SegmentWriter) (entry : WalEntry) : Prop :=
  maxSeg < w.segment.size + recordLen entry ∨ Whole crc (content w.files w.segment.seq)

theorem writeRecord_spec (maxSeg : Nat) (current : Current w older octets) (framed : Framed entry)
    (appendable : maxSeg < w.segment.size + recordLen entry ∨ Whole crc octets) :
    ∃ before after, Current (writeRecord crc maxSeg w entry) before after ∧ Whole crc after ∧
      replayFiles crc (writeRecord crc maxSeg w entry).files = replayFiles crc w.files ++ [entry] := by
  have single := replaySegment_record crc framed
  rcases current_rotate maxSeg current entry with ⟨fits, same⟩ | ⟨-, rotated⟩
  · have whole := appendable.resolve_left fits
    have written := current_appendTo current (record crc entry) _ (record_length crc entry)
    refine ⟨older, octets ++ record crc entry, ?_, whole_append_record crc whole framed, ?_⟩
    · simpa only [writeRecord, same] using written
    · have files : (writeRecord crc maxSeg w entry).files =
          older ++ [(w.segment.seq, octets ++ record crc entry)] := by
        simpa only [writeRecord, same] using written.files
      rw [files, current.files]
      simp [replayFiles, replaySegment_append crc whole, single]
  · have written := current_appendTo rotated (record crc entry) _ (record_length crc entry)
    refine ⟨w.files, [] ++ record crc entry, written,
      whole_append_record crc (whole_nil crc) framed, ?_⟩
    have files : (writeRecord crc maxSeg w entry).files = _ := written.files
    rw [files]
    simp [replayFiles, single]

theorem flushBatch_spec (maxSeg : Nat) (batch : List WalEntry) (current : Current w older octets)
    (framed : ∀ e ∈ batch, Framed e)
    (appendable : ∀ e ∈ batch.head?, maxSeg < w.segment.size + recordLen e ∨ Whole crc octets) :
    ∃ before after, Current (flushBatch crc maxSeg w batch) before after ∧
      (batch ≠ [] ∨ Whole crc octets → Whole crc after) ∧
      replayFiles crc (flushBatch crc maxSeg w batch).files = replayFiles crc w.files ++ batch := by
  induction batch generalizing w older octets with
  | nil => exact ⟨older, octets, current, fun h => h.resolve_left (by simp), by simp [flushBatch]⟩
  | cons entry rest ih =>
    obtain ⟨before, after, next, whole, replayed⟩ :=
      writeRecord_spec crc maxSeg current (framed entry (by simp)) (appendable entry (by simp))
    obtain ⟨before', after', last, whole', replayed'⟩ :=
      ih next (fun e member => framed e (by simp [member])) (fun _ _ => Or.inr whole)
    refine ⟨before', after', last, fun _ => whole' (Or.inr whole), ?_⟩
    · change replayFiles crc (flushBatch crc maxSeg (writeRecord crc maxSeg w entry) rest).files = _
      rw [replayed', replayed]
      simp

theorem replayFiles_appendTo (current : Current w older octets) (more : Bytes) :
    (replayFiles crc w.files).Sublist (replayFiles crc (appendTo w.files w.segment.seq more)) := by
  have written := current_appendTo current more _ rfl
  have kept := (recordReader crc).readAll_isPrefix octets more
  have files : appendTo w.files w.segment.seq more = _ := written.files
  rw [files, current.files]
  simp only [replayFiles, flatMap_append, flatMap_cons, flatMap_nil, append_nil]
  exact List.Sublist.append_left kept.sublist _

theorem replayFiles_rotate (maxSeg : Nat) (current : Current w older octets) (entry : WalEntry) :
    ∃ before after, Current (rotate maxSeg w entry) before after ∧
      replayFiles crc (rotate maxSeg w entry).files = replayFiles crc w.files := by
  rcases current_rotate maxSeg current entry with ⟨-, same⟩ | ⟨-, rotated⟩
  · rw [same]
    exact ⟨older, octets, current, rfl⟩
  · refine ⟨w.files, [], rotated, ?_⟩
    rw [rotated.files]
    simp [replayFiles, replaySegment]

theorem flushBatch_keeps (maxSeg : Nat) (batch : List WalEntry) (current : Current w older octets) :
    ∃ before after, Current (flushBatch crc maxSeg w batch) before after ∧
      (replayFiles crc w.files).Sublist (replayFiles crc (flushBatch crc maxSeg w batch).files) := by
  induction batch generalizing w older octets with
  | nil => exact ⟨older, octets, current, List.Sublist.refl _⟩
  | cons entry rest ih =>
    obtain ⟨before, after, rotated, same⟩ := replayFiles_rotate crc maxSeg current entry
    have written := current_appendTo rotated (record crc entry) _ (record_length crc entry)
    have kept := replayFiles_appendTo crc rotated (record crc entry)
    rw [same] at kept
    obtain ⟨before', after', last, later⟩ := ih written
    exact ⟨before', after', last, kept.trans later⟩

theorem foldl_max_of_le {ns : List Nat} {start bound : Nat} (first : start ≤ bound)
    (le : ∀ n ∈ ns, n ≤ bound) : ns.foldl max start ≤ bound := by
  induction ns generalizing start with
  | nil => exact first
  | cons n rest ih =>
    have head := le n (by simp)
    exact ih (by omega) fun m member => le m (by simp [member])

theorem latestSeq_append_last (octets : Bytes) (smaller : ∀ f ∈ older, f.1 < seq) :
    latestSeq (older ++ [(seq, octets)]) = seq := by
  have bound : (allSeqs older).foldl max 0 ≤ seq := by
    apply foldl_max_of_le (Nat.zero_le seq)
    intro n member
    obtain ⟨f, inFiles, rfl⟩ := mem_map.mp member
    exact Nat.le_of_lt (smaller f inFiles)
  simp only [latestSeq, allSeqs, map_append, map_cons, map_nil, foldl_append,
    foldl_cons, foldl_nil] at bound ⊢
  omega

theorem openLatest_of_current (current : Current w older octets) : openLatest w.files = w := by
  obtain ⟨files, ⟨size, seq⟩⟩ := w
  obtain ⟨content, ordered, length⟩ := current
  simp only at content ordered length
  subst content length
  have latest := latestSeq_append_last octets (ordered_append_last.mp ordered).2
  have found := content_of_mem ordered (show (seq, octets) ∈ older ++ [(seq, octets)] by simp)
  have inSeqs : seq ∈ allSeqs (older ++ [(seq, octets)]) := by simp [allSeqs]
  rw [openLatest, latest, openSegment, if_pos inSeqs, found]

theorem openLatest_spec (ordered : Ordered files) :
    ∃ before after, Current (openLatest files) before after ∧
      replayFiles crc (openLatest files).files = replayFiles crc files := by
  rcases eq_nil_or_concat files with rfl | ⟨older, last, rfl⟩
  · exact ⟨[], [], ⟨rfl, by simp [openLatest, openSegment, latestSeq, allSeqs, Ordered], rfl⟩, rfl⟩
  · obtain ⟨seq, octets⟩ := last
    rw [concat_eq_append] at ordered ⊢
    have current : Current ⟨older ++ [(seq, octets)], octets.length, seq⟩ older octets :=
      ⟨rfl, ordered, rfl⟩
    have opened := openLatest_of_current current
    simp only at opened
    rw [opened]
    exact ⟨older, octets, current, rfl⟩

structure Process where
  segment : Segment
  groupBuf : GroupCommitBuffer
  taken : List (List WalEntry)
  deriving DecidableEq

structure World where
  files : SegmentFiles
  process : Option Process
  acked : List WalEntry
  deriving DecidableEq

inductive Act where
  | append (entry : WalEntry)
  | take
  | flush (i : Nat)
  | crash
  | tornCrash (i whole cut : Nat)
  | open_
  deriving DecidableEq

variable (crc : Bytes → UInt32) (maxSeg : Nat)

def tornFlush (w : SegmentWriter) (before : List WalEntry) (entry : WalEntry) (cut : Nat) :
    SegmentFiles :=
  let w := rotate maxSeg (flushBatch crc maxSeg w before) entry
  appendTo w.files w.segment.seq ((record crc entry).take cut)

def step (s : World) : Act → Option World
  | .append entry => do
    let p ← s.process
    some { s with process := some { p with groupBuf := p.groupBuf.push entry } }
  | .take => do
    let p ← s.process
    if p.groupBuf.pending = [] then none
    else
      let (batch, groupBuf) := p.groupBuf.takeAll
      some { s with process := some { p with groupBuf, taken := p.taken ++ [batch] } }
  | .flush i => do
    let p ← s.process
    let batch ← p.taken[i]?
    let w := flushBatch crc maxSeg ⟨s.files, p.segment⟩ batch
    some ⟨w.files, some { p with segment := w.segment, taken := p.taken.eraseIdx i },
      s.acked ++ batch⟩
  | .crash => do
    let _ ← s.process
    some { s with process := none }
  | .tornCrash i whole cut => do
    let p ← s.process
    let batch ← p.taken[i]?
    let entry ← batch[whole]?
    if cut < recordLen entry then
      some { s with
        files := tornFlush crc maxSeg ⟨s.files, p.segment⟩ (batch.take whole) entry cut
        process := none }
    else none
  | .open_ =>
    match s.process with
    | some _ => none
    | none =>
      let w := openLatest s.files
      some { s with
        files := w.files
        process := some ⟨w.segment, GroupCommitBuffer.new defaultMaxBatchBytes, []⟩ }

def initial : World := ⟨[], none, []⟩

def SafeFlush (s : World) : Act → Prop
  | .flush i => ∀ p ∈ s.process, ∀ batch ∈ p.taken[i]?, (∀ e ∈ batch, Framed e) ∧
      ∀ e ∈ batch.head?, Appendable crc maxSeg ⟨s.files, p.segment⟩ e
  | _ => True

instance (w : SegmentWriter) (e : WalEntry) : Decidable (Appendable crc maxSeg w e) :=
  inferInstanceAs (Decidable (_ ∨ _))

instance (s : World) (a : Act) : Decidable (SafeFlush crc maxSeg s a) :=
  match a with
  | .flush i => inferInstanceAs (Decidable (∀ p ∈ s.process, ∀ batch ∈ p.taken[i]?,
      (∀ e ∈ batch, Framed e) ∧ ∀ e ∈ batch.head?, Appendable crc maxSeg ⟨s.files, p.segment⟩ e))
  | .append _ | .take | .crash | .tornCrash _ _ _ | .open_ => isTrue trivial

def Durable (s : World) : Prop := s.acked.Sublist (replay crc s.files)

def WellOpened (s : World) : Prop :=
  Ordered s.files ∧ ∀ p ∈ s.process, ∃ older octets, Current ⟨s.files, p.segment⟩ older octets

theorem durable_iff {s : World} (ordered : Ordered s.files) :
    Durable crc s ↔ s.acked.Sublist (replayFiles crc s.files) := by
  rw [Durable, replay_of_ordered crc ordered]

theorem tornFlush_keeps {w : SegmentWriter} {older : SegmentFiles} {octets : Bytes}
    (current : Current w older octets) (before : List WalEntry) (entry : WalEntry) (cut : Nat) :
    Ordered (tornFlush crc maxSeg w before entry cut) ∧ (replayFiles crc w.files).Sublist
        (replayFiles crc (tornFlush crc maxSeg w before entry cut)) := by
  obtain ⟨_, _, flushed, kept⟩ := flushBatch_keeps crc maxSeg before current
  obtain ⟨_, _, rotated, same⟩ := replayFiles_rotate crc maxSeg flushed entry
  have written := current_appendTo rotated ((record crc entry).take cut) _ rfl
  have appended := replayFiles_appendTo crc rotated ((record crc entry).take cut)
  rw [same] at appended
  exact ⟨written.ordered, kept.trans appended⟩

variable {s t : World}

theorem flush_durable {i : Nat} (opened : WellOpened s) (durable : Durable crc s)
    (safe : SafeFlush crc maxSeg s (.flush i)) (ok : step crc maxSeg s (.flush i) = some t) :
    WellOpened t ∧ Durable crc t := by
  obtain ⟨ordered, newest⟩ := opened
  simp only [step, Option.bind_eq_bind, Option.bind_eq_some_iff] at ok
  obtain ⟨p, process, batch, taken, ok⟩ := ok
  cases ok
  obtain ⟨older, octets, current⟩ := newest p process
  obtain ⟨framed, appendable⟩ := safe p process batch taken
  have inCurrent : content s.files p.segment.seq = octets := by
    have member : (p.segment.seq, octets) ∈ s.files := by
      rw [show s.files = _ from current.files]
      simp
    exact content_of_mem ordered member
  obtain ⟨before, after, written, -, replayed⟩ := flushBatch_spec crc maxSeg batch current framed
    (fun e head => by simpa only [Appendable, inCurrent] using appendable e head)
  refine ⟨⟨written.ordered, ?_⟩, ?_⟩
  · intro q same
    cases same
    exact ⟨before, after, written⟩
  · rw [durable_iff crc written.ordered]
    rw [durable_iff crc ordered] at durable
    rw [replayed]
    exact durable.append (List.Sublist.refl batch)

theorem tornCrash_durable {i whole cut : Nat} (opened : WellOpened s)
    (durable : Durable crc s) (ok : step crc maxSeg s (.tornCrash i whole cut) = some t) :
    WellOpened t ∧ Durable crc t := by
  obtain ⟨ordered, newest⟩ := opened
  simp only [step, Option.bind_eq_bind, Option.bind_eq_some_iff] at ok
  obtain ⟨p, process, batch, taken, entry, next, ok⟩ := ok
  split at ok
  · cases ok
    obtain ⟨older, octets, current⟩ := newest p process
    obtain ⟨orderedAfter, kept⟩ := tornFlush_keeps crc maxSeg current (batch.take whole) entry cut
    refine ⟨⟨orderedAfter, fun q impossible => by cases impossible⟩, ?_⟩
    rw [durable_iff crc orderedAfter]
    rw [durable_iff crc ordered] at durable
    exact durable.trans kept
  · cases ok

theorem open_durable (opened : WellOpened s) (durable : Durable crc s)
    (ok : step crc maxSeg s .open_ = some t) : WellOpened t ∧ Durable crc t := by
  obtain ⟨ordered, -⟩ := opened
  simp only [step] at ok
  split at ok
  · cases ok
  · cases ok
    obtain ⟨older, octets, current, same⟩ := openLatest_spec crc ordered
    refine ⟨⟨current.ordered, ?_⟩, ?_⟩
    · intro q process
      cases process
      exact ⟨older, octets, current⟩
    · rw [durable_iff crc current.ordered, same]
      exact (durable_iff crc ordered).mp durable

theorem step_durable (s : World) (a : Act) (t : World) (inv : WellOpened s ∧ Durable crc s)
    (safe : SafeFlush crc maxSeg s a) (ok : step crc maxSeg s a = some t) :
    WellOpened t ∧ Durable crc t := by
  obtain ⟨opened, durable⟩ := inv
  cases a with
  | append entry =>
    simp only [step, Option.bind_eq_bind, Option.bind_eq_some_iff] at ok
    obtain ⟨p, process, ok⟩ := ok
    cases ok
    refine ⟨⟨opened.1, fun q same => ?_⟩, durable⟩
    cases same
    exact opened.2 p process
  | take =>
    simp only [step, Option.bind_eq_bind, Option.bind_eq_some_iff] at ok
    obtain ⟨p, process, ok⟩ := ok
    split at ok
    · cases ok
    · cases ok
      refine ⟨⟨opened.1, fun q same => ?_⟩, durable⟩
      cases same
      exact opened.2 p process
  | flush i => exact flush_durable crc maxSeg opened durable safe ok
  | crash =>
    simp only [step, Option.bind_eq_bind, Option.bind_eq_some_iff] at ok
    obtain ⟨p, process, ok⟩ := ok
    cases ok
    exact ⟨⟨opened.1, fun q impossible => by cases impossible⟩, durable⟩
  | tornCrash i whole cut => exact tornCrash_durable crc maxSeg opened durable ok
  | open_ => exact open_durable crc maxSeg opened durable ok

/-- Safe flushes keep all acknowledged entries. -/
theorem acknowledged_survive_crashes (acts : List Act)
    (safe : Run.EveryStep (step crc maxSeg) (SafeFlush crc maxSeg) initial acts) :
    Run.EveryState (step crc maxSeg) (Durable crc) initial acts := by
  have start : WellOpened initial ∧ Durable crc initial :=
    ⟨⟨List.Pairwise.nil, fun p impossible => by cases impossible⟩, List.Sublist.refl []⟩
  have every := Run.everyState_of_everyStep (step_durable crc maxSeg) acts initial start safe
  intro done t isPrefix executed
  exact (every done t isPrefix executed).2

theorem acknowledged_survive_torn_record :
    Run.EveryState (step Crc32.crc32 defaultMaxSegmentBytes) (Durable Crc32.crc32) initial
      [.open_, .append ⟨1, [7, 7]⟩, .take, .flush 0, .append ⟨2, [8]⟩, .take, .tornCrash 0 0 5,
        .open_] := by
  apply acknowledged_survive_crashes
  decide +kernel

theorem acknowledged_append_lost_behind_torn_record :
    (Run.exec (step Crc32.crc32 defaultMaxSegmentBytes) initial
      [.open_, .append ⟨1, [7]⟩, .take, .tornCrash 0 0 1, .open_, .append ⟨2, [8]⟩, .take,
        .flush 0]).map (fun s => (s.acked, replay Crc32.crc32 s.files)) = some ([⟨2, [8]⟩], []) := by
  decide +kernel

variable (crc : Bytes → UInt32) (maxSeg : Nat)

variable (batches : List (List WalEntry))

def writeBatches : SegmentWriter :=
  batches.foldl (flushBatch crc maxSeg) (openLatest [])

def earlierSegments (files : SegmentFiles) : SegmentFiles :=
  files.filter fun f => decide (f.1 ≠ latestSeq files)

def cutLatest (files : SegmentFiles) (cut : Nat) : SegmentFiles :=
  files.map fun f => if f.1 = latestSeq files then (f.1, f.2.take cut) else f

theorem flushBatches_spec {w : SegmentWriter}
    {older : SegmentFiles} {octets : Bytes} (current : Current w older octets)
    (whole : Whole crc octets) (framed : ∀ e ∈ batches.flatten, Framed e) :
    ∃ before after, Current (batches.foldl (flushBatch crc maxSeg) w) before after ∧
      Whole crc after ∧
      replayFiles crc (batches.foldl (flushBatch crc maxSeg) w).files =
        replayFiles crc w.files ++ batches.flatten := by
  induction batches generalizing w older octets with
  | nil => exact ⟨older, octets, current, whole, by simp⟩
  | cons batch rest ih =>
    obtain ⟨before, after, written, wholeAfter, replayed⟩ := flushBatch_spec crc maxSeg batch current
      (fun e member => framed e (by simp [member])) (fun _ _ => Or.inr whole)
    obtain ⟨before', after', last, wholeLast, replayedRest⟩ :=
      ih written (wholeAfter (Or.inr whole)) fun e member => framed e (by
        rw [flatten_cons]
        exact mem_append_right _ member)
    refine ⟨before', after', last, wholeLast, ?_⟩
    rw [foldl_cons, replayedRest, replayed, flatten_cons, append_assoc]

section Newest

variable {w : SegmentWriter} {older : SegmentFiles} {octets : Bytes}

variable (current : Current w older octets)

include current

theorem latestSeq_of_current : latestSeq w.files = w.segment.seq := by
  obtain ⟨files, ordered, -⟩ := current
  rw [files] at ordered ⊢
  exact latestSeq_append_last octets (ordered_append_last.mp ordered).2

theorem older_ne_latest : ∀ f ∈ older, f.1 ≠ w.segment.seq := by
  intro f member
  have ordered := current.ordered
  rw [current.files] at ordered
  have smaller := (ordered_append_last.mp ordered).2 f member
  omega

theorem earlierSegments_of_current : earlierSegments w.files = older := by
  have kept : older.filter (fun f => decide (f.1 ≠ w.segment.seq)) = older := by
    rw [filter_eq_self]
    intro f member
    exact decide_eq_true (older_ne_latest current f member)
  rw [earlierSegments, latestSeq_of_current current, current.files, filter_append, kept]
  simp

theorem content_latest : content w.files (latestSeq w.files) = octets := by
  have member : (w.segment.seq, octets) ∈ w.files := by
    rw [current.files]
    simp
  rw [latestSeq_of_current current]
  exact content_of_mem current.ordered member

theorem cutLatest_of_current (cut : Nat) :
    cutLatest w.files cut = older ++ [(w.segment.seq, octets.take cut)] := by
  have kept : older.map (fun f => if f.1 = w.segment.seq then (f.1, f.2.take cut) else f) =
      older := by
    refine (map_congr_left fun f member => ?_).trans (map_id older)
    rw [if_neg (older_ne_latest current f member)]
    rfl
  rw [cutLatest, latestSeq_of_current current, current.files, map_append, kept]
  simp

theorem replay_of_current :
    replay crc w.files = replay crc older ++ replaySegment crc octets ∧
      ∀ cut, replay crc (cutLatest w.files cut) =
        replay crc older ++ replaySegment crc (octets.take cut) := by
  have ordered := current.ordered
  rw [current.files] at ordered
  have parts := ordered_append_last.mp ordered
  have withLast : ∀ tail, replay crc (older ++ [(w.segment.seq, tail)]) =
      replay crc older ++ replaySegment crc tail := by
    intro tail
    rw [replay_of_ordered crc (ordered_append_last.mpr parts), replay_of_ordered crc parts.1]
    simp [replayFiles]
  refine ⟨?_, ?_⟩
  · rw [current.files]
    exact withLast octets
  · intro cut
    rw [cutLatest_of_current current]
    exact withLast _

end Newest

/-- All that was written, or all before the cut. -/
structure ReplaysTo (files : SegmentFiles) (entries : List WalEntry) : Prop where
  intact : replay crc files = entries
  cut : ∃ last, content files (latestSeq files) = last.flatMap (record crc) ∧
    entries = replay crc (earlierSegments files) ++ last ∧
    ∀ cut, ∃ kept, FrameReader.LongestWithin (record crc) cut last kept ∧
      replay crc (cutLatest files cut) = replay crc (earlierSegments files) ++ kept

/-- What was written in batches is what replay returns, and a cut of the latest file costs only what
is behind the cut. -/
theorem written_log_replays (batches : List (List WalEntry))
    (framed : ∀ e ∈ batches.flatten, e.payload.length < 2 ^ 32) :
    ReplaysTo crc (writeBatches crc maxSeg batches).files batches.flatten := by
  have fresh : Current (openLatest []) [] [] :=
    ⟨rfl, by simp [openLatest, openSegment, latestSeq, allSeqs, Ordered], rfl⟩
  obtain ⟨older, octets, current, whole, replayed⟩ :=
    flushBatches_spec crc maxSeg batches fresh (whole_nil crc) framed
  have opened : replayFiles crc (openLatest []).files = [] := rfl
  rw [opened, nil_append, ← replay_of_ordered crc current.ordered] at replayed
  obtain ⟨inFull, whenCut⟩ := replay_of_current crc current
  refine ⟨replayed, replaySegment crc octets, ?_, ?_, ?_⟩
  · exact (content_latest current).trans whole.symm
  · unfold writeBatches
    rw [earlierSegments_of_current current, ← replayed, inFull]
  · intro cut
    refine ⟨replaySegment crc (octets.take cut), ?_, ?_⟩
    · -- the octets are the records of what they replay to
      have frames := FrameReader.readAll_take (R := recordReader crc)
        (fun _ framed rest => readRecord_record crc framed rest)
        (FrameReader.readAll_good (readRecord_framed crc) octets) cut
      rwa [show (FrameReader.readAll _ octets).flatMap (record crc) = octets from whole] at frames
    · unfold writeBatches
      rw [earlierSegments_of_current current]
      exact whenCut cut

theorem three_segments_replay : ReplaysTo Crc32.crc32
      (writeBatches Crc32.crc32 20 [[⟨1, [7, 7]⟩, ⟨2, []⟩], [⟨3, [8, 9, 10]⟩]]).files
      [⟨1, [7, 7]⟩, ⟨2, []⟩, ⟨3, [8, 9, 10]⟩] :=
  written_log_replays Crc32.crc32 20 [[⟨1, [7, 7]⟩, ⟨2, []⟩], [⟨3, [8, 9, 10]⟩]] (by decide)

end WowDb.Storage.Wal
