import WowDb.Storage.Levels
import WowDb.Storage.Wal
import WowDb.Storage.WriteBatch

/-!
# Tablet writer

`storage-node/src/grpc/write.rs`, `TabletWriter`.
-/
namespace WowDb.Storage
open WowDb.Lib

inductive FlushTask where
  | spawned (imm : ImmutableMemTable)
  | running (imm : ImmutableMemTable) (seq : Nat)

structure TabletWriter where
  partitionDir : String
  wal : SegmentWriter
  memtable : MemTable
  flushes : List FlushTask
  levels : PartitionLevels
  seqCounter : Nat

namespace TabletWriter

variable (H : HashOrder) (crc : Bytes → UInt32)

variable (w : TabletWriter)

def appendWal (entry : WalEntry) : TabletWriter :=
  { w with wal := Wal.flushBatch crc Wal.defaultMaxSegmentBytes w.wal [entry] }

def insertRows (m : MemTable) (rows : List WriteRow) : MemTable :=
  rows.foldl (fun m row =>
    (m.insert (WriteBatch.toSortKey row) (H.iterate row.columns) row.txId).1) m

def entryRows (entry : WalEntry) : List WriteRow :=
  if WriteBatch.isMarker entry.payload then []
  else
    match WriteBatch.deserializeWriteBatch entry.payload with
    | .ok rows => rows
    | .error _ => []

def replayWal (m : MemTable) (entries : List WalEntry) : MemTable :=
  entries.foldl (fun m entry => insertRows H m (entryRows entry)) m

def new (partitionDir : String) (files : SegmentFiles) : TabletWriter :=
  let wal := Wal.openLatest files
  { partitionDir
    wal
    memtable := replayWal H (.new defaultMemtableThreshold) (Wal.replay crc wal.files)
    flushes := []
    levels := .new {}
    seqCounter := 0 }

def writeRows (rows : List WriteRow) : TabletWriter × Nat :=
  match rows with
  | [] => (w, 0)
  | first :: _ =>
    let w := w.appendWal crc ⟨first.txId, WriteBatch.serializeWriteBatch H rows⟩
    let mem := insertRows H w.memtable rows
    if mem.isFull then
      ({ w with
          memtable := mem.reset
          flushes := w.flushes ++ [.spawned mem.snapshotAsImmutable] }, rows.length)
    else ({ w with memtable := mem }, rows.length)

def mark (m : WriteBatch.Marker) (txId : UInt64) : TabletWriter :=
  w.appendWal crc ⟨txId, WriteBatch.markerPayload m txId⟩

def prepare (txId : UInt64) : TabletWriter := w.mark crc .prepare txId

def commit (txId : UInt64) : TabletWriter := w.mark crc .commit txId

def rollback (txId : UInt64) : TabletWriter :=
  let w := w.mark crc .rollback txId
  let sortKey : SortKey := ⟨[⟨"tx_id", Bytes.leBytes 8 txId.toNat⟩]⟩
  { w with memtable := (w.memtable.delete sortKey txId).1 }

def scanMemtableRows : List (Bytes × OrdMap String Bytes) :=
  w.memtable.iterRows.map fun r => (r.1, OrdMap.ofList r.2)

def startFlush (i : Nat) : Option TabletWriter :=
  match w.flushes[i]? with
  | some (.spawned imm) =>
    some { w with
      flushes := w.flushes.set i (.running imm w.seqCounter)
      seqCounter := w.seqCounter + 1 }
  | _ => none

def keyOf (e : MemKey × MemRow) : Bytes := (e.1.sortKey.values.head?.map (·.encoded)).getD []

def flushedSst (partitionDir : String) (imm : ImmutableMemTable) (seq : Nat) (id : Uuid)
    (sizeBytes : Nat) : Option SstRef :=
  match imm.entries.map keyOf with
  | [] => none
  | first :: rest =>
    some
      { id
        sequenceNum := seq
        generation := 0
        compactedFrom := []
        level := 0
        path := Text.joinPath partitionDir ("_meta/sstable-" ++ Text.pad10 seq ++ ".json")
        sizeBytes
        rowCount := (imm.entries.filter fun e => !e.2.deleted).length
        minSortKey := rest.foldl min first
        maxSortKey := rest.foldl max first }

def finishFlush (i : Nat) (written : Option (Uuid × Nat)) : Option TabletWriter :=
  match w.flushes[i]? with
  | some (.running imm seq) =>
    let w' := { w with flushes := w.flushes.eraseIdx i }
    match written with
    | none => some w'
    | some (id, sizeBytes) =>
      match flushedSst w.partitionDir imm seq id sizeBytes with
      | none => some w'
      | some sst => (w.levels.add sst).map fun levels => { w' with levels }
  | _ => none

open WriteBatch List

structure Tablet where
  writer : TabletWriter
  written : List WriteRow
  rolledBack : List UInt64

inductive Call where
  | writeRows (rows : List WriteRow)
  | prepare (txId : UInt64)
  | commit (txId : UInt64)
  | rollback (txId : UInt64)
  | startFlush (i : Nat)
  | finishFlush (i : Nat) (written : Option (Uuid × Nat))
  | restart

def step (s : Tablet) : Call → Option Tablet
  | .writeRows rows =>
    some { s with writer := (s.writer.writeRows H crc rows).1, written := s.written ++ rows }
  | .prepare txId => some { s with writer := s.writer.prepare crc txId }
  | .commit txId => some { s with writer := s.writer.commit crc txId }
  | .rollback txId =>
    some { s with writer := s.writer.rollback crc txId, rolledBack := s.rolledBack ++ [txId] }
  | .startFlush i => (s.writer.startFlush i).map fun writer => { s with writer }
  | .finishFlush i written => (s.writer.finishFlush i written).map fun writer => { s with writer }
  | .restart => some { s with writer := new H crc s.writer.partitionDir s.writer.wal.files }

def fresh (partitionDir : String) : Tablet := ⟨new H crc partitionDir [], [], []⟩

def view (row : WriteRow) : Bytes × OrdMap String Bytes := (row.sortKeyBytes, row.columns)

structure Logged (s : Tablet) : Prop where
  whole : ∃ older octets, Wal.Current s.writer.wal older octets ∧ Wal.Whole crc octets
  rows : (Wal.replayFiles crc s.writer.wal.files).flatMap entryRows = s.written
  below : s.writer.memtable.SeqBelow

def FramedWrite (_ : Tablet) : Call → Prop
  | .writeRows rows => (serializeWriteBatch H rows).length < 2 ^ 32
  | _ => True

def KeepsMemtable (s : Tablet) : Call → Prop
  | .writeRows rows => rows = [] ∨ (insertRows H s.writer.memtable rows).isFull = false
  | _ => True

theorem insertRows_spec (rows : List WriteRow) {m : MemTable} (below : m.SeqBelow) :
    (insertRows H m rows).SeqBelow ∧ (insertRows H m rows).threshold = m.threshold ∧
      (((insertRows H m rows).iterRows).map fun r => (r.1, OrdMap.ofList r.2)).Perm
        (rows.map view ++ m.iterRows.map fun r => (r.1, OrdMap.ofList r.2)) := by
  induction rows generalizing m with
  | nil => exact ⟨below, rfl, List.Perm.refl _⟩
  | cons row rest ih =>
    have first := MemTable.seqBelow_insert below (toSortKey row) (H.iterate row.columns) row.txId
    have scanned := MemTable.iterRows_insert below (toSortKey row) (H.iterate row.columns) row.txId
    have collected : OrdMap.ofList (H.iterate row.columns) = row.columns :=
      OrdMap.ofList_of_perm (H.iterate_perm row.columns)
    have shown := scanned.map fun r => (r.1, OrdMap.ofList r.2)
    simp only [toSortKey, head?_cons, Option.map_some, Option.getD_some, map_cons,
      collected] at shown
    obtain ⟨belowRest, threshold, perm⟩ := ih first
    refine ⟨belowRest, threshold, perm.trans ?_⟩
    refine (shown.append_left (rest.map view)).trans ?_
    exact perm_middle

theorem replayWal_eq (m : MemTable) (entries : List WalEntry) :
    replayWal H m entries = insertRows H m (entries.flatMap entryRows) := by
  induction entries generalizing m with
  | nil => rfl
  | cons entry rest ih =>
    simp only [replayWal, foldl_cons] at ih ⊢
    rw [ih, flatMap_cons]
    simp only [insertRows, foldl_append]

variable {s : Tablet}

theorem appendWal_spec (entry : WalEntry) (logged : Logged crc s) (framed : Wal.Framed entry) :
    (∃ older octets, Wal.Current (s.writer.appendWal crc entry).wal older octets ∧
      Wal.Whole crc octets) ∧
    (Wal.replayFiles crc (s.writer.appendWal crc entry).wal.files).flatMap entryRows =
      s.written ++ entryRows entry := by
  obtain ⟨older, octets, current, whole⟩ := logged.whole
  obtain ⟨before, after, next, stays, replayed⟩ :=
    Wal.flushBatch_spec crc Wal.defaultMaxSegmentBytes [entry] current
      (by simpa using framed) (fun _ _ => Or.inr whole)
  refine ⟨⟨before, after, next, stays (Or.inr whole)⟩, ?_⟩
  simp [appendWal, replayed, flatMap_append, logged.rows]

variable (m : Marker)

variable (txId : UInt64)

theorem framed_marker : Wal.Framed ⟨txId, markerPayload m txId⟩ := by
  have digits : (Nat.toDigits 10 txId.toNat).length ≤ 20 :=
    (Nat.length_toDigits_le_iff (by decide) (by decide)).mpr
      (Nat.lt_of_lt_of_le txId.toNat_lt (by decide))
  have tag : m.tag.toList.length ≤ 9 := by cases m <;> decide
  have octets := Text.length_encode_le (m.tag.toList ++ Nat.toDigits 10 txId.toNat)
  rw [length_append] at octets
  simp only [Wal.Framed, markerPayload]
  omega

theorem entryRows_marker : entryRows ⟨txId, markerPayload m txId⟩ = [] := by
  rw [entryRows, if_pos (isMarker_markerPayload m txId)]

variable {rows : List WriteRow}

theorem entryRows_batch (bound : (serializeWriteBatch H rows).length < 2 ^ 32) :
    entryRows ⟨txId, serializeWriteBatch H rows⟩ = rows := by
  simp [entryRows, isMarker_serialize H bound, deserialize_serialize H bound]

def Shows (s : Tablet) (rows : List WriteRow) : Prop :=
  (s.writer.scanMemtableRows).Perm (rows.map view)

variable {t : Tablet}

variable (logged : Logged crc s)

include logged

theorem restart_shows (ok : step H crc s .restart = some t) :
    Logged crc t ∧ Shows t s.written ∧ t.written = s.written ∧ t.rolledBack = s.rolledBack := by
  cases ok
  obtain ⟨older, octets, current, whole⟩ := logged.whole
  have opened := Wal.openLatest_of_current current
  have entries := Wal.replay_of_ordered crc current.ordered
  have rebuilt : (new H crc s.writer.partitionDir s.writer.wal.files).memtable =
      insertRows H (.new defaultMemtableThreshold) s.written := by
    simp only [new, opened, entries, replayWal_eq, logged.rows]
  have start := MemTable.seqBelow_new defaultMemtableThreshold
  obtain ⟨below, -, shown⟩ := insertRows_spec H s.written start
  refine ⟨⟨⟨older, octets, ?_, whole⟩, ?_, ?_⟩, ?_, rfl, rfl⟩
  · simp only [new, opened]
    exact current
  · simp only [new, opened]
    exact logged.rows
  · simp only [rebuilt]
    exact below
  · simp only [Shows, scanMemtableRows, rebuilt]
    simpa [MemTable.iterRows, MemTable.new, OrdMap.empty] using shown

theorem logged_append_batch (bound : (serializeWriteBatch H rows).length < 2 ^ 32) (txId : UInt64)
    (wal : t.writer.wal = (s.writer.appendWal crc ⟨txId, serializeWriteBatch H rows⟩).wal)
    (written : t.written = s.written ++ rows) (below : t.writer.memtable.SeqBelow) :
    Logged crc t := by
  obtain ⟨whole, replayed⟩ := appendWal_spec crc ⟨txId, serializeWriteBatch H rows⟩ logged bound
  refine ⟨?_, ?_, below⟩
  · rw [wal]
    exact whole
  · rw [wal, replayed, entryRows_batch H txId bound, written]

omit logged

theorem scan_of_filled (filled : ¬ KeepsMemtable H s (.writeRows rows))
    (ok : step H crc s (.writeRows rows) = some t) :
    rows ≠ [] ∧ t.writer.scanMemtableRows = [] := by
  obtain ⟨nonempty, notKept⟩ := not_or.mp filled
  refine ⟨nonempty, ?_⟩
  cases rows with
  | nil => exact absurd rfl nonempty
  | cons first rest =>
    have full := Bool.not_eq_false _ ▸ notKept
    simp only [step, writeRows, appendWal, full, if_true, Option.some.injEq] at ok
    subst ok
    rfl

include logged

theorem writeRows_shows (bound : (serializeWriteBatch H rows).length < 2 ^ 32)
    (ok : step H crc s (.writeRows rows) = some t) :
    Logged crc t ∧
      (KeepsMemtable H s (.writeRows rows) → ∀ old, Shows s old → Shows t (old ++ rows)) := by
  cases rows with
  | nil =>
    simp only [step, writeRows, append_nil, Option.some.injEq] at ok
    subst ok
    refine ⟨logged, fun _ old shown => ?_⟩
    rw [append_nil]
    exact shown
  | cons first rest =>
    obtain ⟨below, -, shown⟩ := insertRows_spec H (first :: rest) logged.below
    cases full : (insertRows H s.writer.memtable (first :: rest)).isFull with
    | true =>
      simp only [step, writeRows, appendWal, full, if_true, Option.some.injEq] at ok
      subst ok
      refine ⟨logged_append_batch H crc logged bound first.txId rfl rfl MemTable.seqBelow_reset, ?_⟩
      intro kept
      rcases kept with empty | notFull
      · cases empty
      · rw [full] at notFull
        cases notFull
    | false =>
      simp only [step, writeRows, appendWal, full, Bool.false_eq_true, if_false,
        Option.some.injEq] at ok
      subst ok
      refine ⟨logged_append_batch H crc logged bound first.txId rfl rfl below, ?_⟩
      intro _ old before
      simp only [Shows, scanMemtableRows, map_append] at before ⊢
      refine shown.trans ?_
      refine (before.append_left ((first :: rest).map view)).trans ?_
      exact perm_append_comm

theorem mark_logged
    (wal : t.writer.wal = (s.writer.mark crc m txId).wal) (written : t.written = s.written)
    (below : t.writer.memtable.SeqBelow) : Logged crc t := by
  obtain ⟨whole, replayed⟩ := appendWal_spec crc _ logged (framed_marker m txId)
  refine ⟨?_, ?_, below⟩
  · rw [wal]
    exact whole
  · rw [wal, written]
    simp only [mark]
    rw [replayed, entryRows_marker, append_nil]

theorem logged_of_same (wal : t.writer.wal = s.writer.wal)
    (memtable : t.writer.memtable = s.writer.memtable) (written : t.written = s.written) :
    Logged crc t := by
  refine ⟨?_, ?_, ?_⟩
  · rw [wal]
    exact logged.whole
  · rw [wal, written]
    exact logged.rows
  · rw [memtable]
    exact logged.below

omit logged

theorem shows_of_memtable (memtable : t.writer.memtable = s.writer.memtable)
    (shown : Shows s rows) : Shows t rows := by
  simp only [Shows, scanMemtableRows] at shown ⊢
  rw [memtable]
  exact shown

theorem startFlush_frame {i : Nat} (ok : step H crc s (.startFlush i) = some t) :
    t.writer.wal = s.writer.wal ∧ t.writer.memtable = s.writer.memtable ∧
      t.written = s.written ∧ t.rolledBack = s.rolledBack := by
  simp only [step, Option.map_eq_some_iff] at ok
  obtain ⟨w, started, rfl⟩ := ok
  unfold startFlush at started
  split at started
  · cases started
    exact ⟨rfl, rfl, rfl, rfl⟩
  · cases started

theorem finishFlush_frame {i : Nat} {written : Option (Uuid × Nat)}
    (ok : step H crc s (.finishFlush i written) = some t) :
    t.writer.wal = s.writer.wal ∧ t.writer.memtable = s.writer.memtable ∧
      t.written = s.written ∧ t.rolledBack = s.rolledBack := by
  simp only [step, Option.map_eq_some_iff] at ok
  obtain ⟨w, finished, rfl⟩ := ok
  unfold finishFlush at finished
  split at finished
  · cases written with
    | none =>
      cases finished
      exact ⟨rfl, rfl, rfl, rfl⟩
    | some result =>
      simp only at finished
      split at finished
      · cases finished
        exact ⟨rfl, rfl, rfl, rfl⟩
      · simp only [Option.map_eq_some_iff] at finished
        obtain ⟨levels, -, rfl⟩ := finished
        exact ⟨rfl, rfl, rfl, rfl⟩
  · cases finished

theorem step_logged (s : Tablet) (c : Call) (t : Tablet) (logged : Logged crc s)
    (framed : FramedWrite H s c) (ok : step H crc s c = some t) : Logged crc t := by
  cases c with
  | writeRows rows => exact (writeRows_shows H crc logged framed ok).1
  | prepare txId =>
    cases ok
    exact mark_logged crc .prepare txId logged rfl rfl logged.below
  | commit txId =>
    cases ok
    exact mark_logged crc .commit txId logged rfl rfl logged.below
  | rollback txId =>
    cases ok
    exact mark_logged crc .rollback txId logged rfl rfl
      (MemTable.seqBelow_delete logged.below _ txId)
  | startFlush i =>
    obtain ⟨wal, memtable, written, -⟩ := startFlush_frame H crc ok
    exact logged_of_same crc logged wal memtable written
  | finishFlush i result =>
    obtain ⟨wal, memtable, written, -⟩ := finishFlush_frame H crc ok
    exact logged_of_same crc logged wal memtable written
  | restart => exact (restart_shows H crc logged ok).1

def ScansAll (s : Tablet) : Prop := Shows s s.written

theorem step_scansAll_iff (s : Tablet) (c : Call) (t : Tablet) (logged : Logged crc s)
    (framed : FramedWrite H s c) (all : ScansAll s) (ok : step H crc s c = some t) :
    ScansAll t ↔ KeepsMemtable H s c := by
  cases c with
  | writeRows rows =>
    obtain ⟨-, shows⟩ := writeRows_shows H crc logged framed ok
    have written : t.written = s.written ++ rows := by
      cases ok
      rfl
    constructor
    · intro after
      by_contra filled
      obtain ⟨nonempty, nothing⟩ := scan_of_filled H crc filled ok
      have length := List.Perm.length_eq after
      rw [nothing, written] at length
      simp only [length_nil, map_append, length_append, length_map] at length
      exact nonempty (eq_nil_of_length_eq_zero (by omega))
    · intro kept
      rw [ScansAll, written]
      exact shows kept s.written all
  | prepare txId =>
    cases ok
    exact iff_of_true (shows_of_memtable rfl all) trivial
  | commit txId =>
    cases ok
    exact iff_of_true (shows_of_memtable rfl all) trivial
  | rollback txId =>
    cases ok
    refine iff_of_true ?_ trivial
    have rows := MemTable.iterRows_delete logged.below
      ⟨[⟨"tx_id", Bytes.leBytes 8 txId.toNat⟩]⟩ txId
    exact (rows.map _).trans all
  | startFlush i =>
    obtain ⟨-, memtable, written, -⟩ := startFlush_frame H crc ok
    refine iff_of_true ?_ trivial
    rw [ScansAll, written]
    exact shows_of_memtable memtable all
  | finishFlush i result =>
    obtain ⟨-, memtable, written, -⟩ := finishFlush_frame H crc ok
    refine iff_of_true ?_ trivial
    rw [ScansAll, written]
    exact shows_of_memtable memtable all
  | restart =>
    obtain ⟨-, shown, written, -⟩ := restart_shows H crc logged ok
    refine iff_of_true ?_ trivial
    rw [ScansAll, written]
    exact shown

variable (partitionDir : String)

theorem fresh_logged : Logged crc (fresh H crc partitionDir) := by
  refine ⟨⟨[], [], ⟨rfl, ?_, rfl⟩, Wal.whole_nil crc⟩, rfl, ?_⟩
  · simp [fresh, new, Wal.openLatest, Wal.openSegment, Wal.latestSeq, Wal.allSeqs, Wal.Ordered]
  · intro e member
    cases member

theorem fresh_scansAll : ScansAll (fresh H crc partitionDir) :=
  List.Perm.refl _

/-- Exactly when no write fills the MemTable. -/
theorem scan_returns_written_iff (partitionDir : String) (calls : List Call)
    (framed : Run.EveryStep (step H crc) (FramedWrite H) (fresh H crc partitionDir) calls) :
    Run.EveryState (step H crc) ScansAll (fresh H crc partitionDir) calls ↔
      Run.EveryStep (step H crc) (KeepsMemtable H) (fresh H crc partitionDir) calls := by
  apply Run.everyState_iff_everyStep (Logged crc)
  · exact step_logged H crc
  · intro s c t logged fits all ok
    exact step_scansAll_iff H crc s c t logged fits all ok
  · exact fresh_logged H crc partitionDir
  · exact fresh_scansAll H crc partitionDir
  · exact framed

instance decidableFramedWrite (s : Tablet) (c : Call) : Decidable (FramedWrite H s c) := by
  cases c <;> unfold FramedWrite <;> infer_instance

instance decidableKeepsMemtable (s : Tablet) (c : Call) : Decidable (KeepsMemtable H s c) := by
  cases c <;> unfold KeepsMemtable <;> infer_instance

def oneColumn (key : UInt8) (value : Bytes) : WriteRow :=
  ⟨[key], OrdMap.empty.insert "v" value, txId⟩

theorem scan_returns_written_over_restart :
    Run.EveryState (step .ascending Crc32.crc32) ScansAll (fresh .ascending Crc32.crc32 "p0")
      [.writeRows [oneColumn 1 7 [1]], .writeRows [oneColumn 1 7 [2]], .commit 1, .restart,
        .writeRows [oneColumn 2 7 [1]], .rollback 3, .restart] :=
  (scan_returns_written_iff .ascending Crc32.crc32 "p0" _ (by decide +kernel)).mpr (by decide +kernel)

theorem not_keepsMemtable_long (dir : String) (txId : UInt64) (key : UInt8) {value : Bytes}
    (long : defaultMemtableThreshold ≤ value.length) :
    ¬ KeepsMemtable .ascending (fresh .ascending crc dir)
      (.writeRows [oneColumn txId key value]) := by
  have size : (insertRows .ascending (fresh .ascending crc dir).writer.memtable
      [oneColumn txId key value]).sizeBytes =
      0 + (64 + ((Text.encode "v".toList).length + value.length + 16)) := rfl
  simp only [KeepsMemtable, MemTable.isFull, size, reduceCtorEq, false_or, decide_eq_false_iff_not,
    not_not]
  exact Nat.le_trans long (by omega)

theorem filling_write_not_scanned :
    let row := oneColumn 1 7 (List.replicate (64 * 1024 * 1024) 0)
    ∃ t, step .ascending Crc32.crc32 (fresh .ascending Crc32.crc32 "p0") (.writeRows [row]) = some t ∧
      t.written = [row] ∧ t.writer.scanMemtableRows = [] ∧ ¬ ScansAll t := by
  intro row
  have filled : ¬ KeepsMemtable .ascending (fresh .ascending Crc32.crc32 "p0") (.writeRows [row]) := by
    apply not_keepsMemtable_long
    rw [length_replicate]
    decide
  obtain ⟨-, nothing⟩ := scan_of_filled .ascending Crc32.crc32 filled rfl
  refine ⟨_, rfl, rfl, nothing, ?_⟩
  intro all
  have length := List.Perm.length_eq all
  rw [nothing] at length
  cases length

def HidesRolledBack (s : Tablet) : Prop :=
  Shows s (s.written.filter fun row => row.txId ∉ s.rolledBack)

/-- No row is part of a rolled-back transaction. -/
def LeavesNoTrace (s : Tablet) : Call → Prop
  | .writeRows rows => ∀ row ∈ rows, row.txId ∉ s.rolledBack
  | .rollback txId => ∀ row ∈ s.written, row.txId ≠ txId
  | _ => True

theorem hidesRolledBack_iff (all : ScansAll s) :
    HidesRolledBack s ↔ ∀ row ∈ s.written, row.txId ∉ s.rolledBack := by
  constructor
  · intro hides
    have length := (List.Perm.trans (List.Perm.symm all) hides).length_eq
    simp only [length_map] at length
    have kept := length_filter_eq_length_iff.mp length.symm
    intro row member
    simpa using kept row member
  · intro none
    have kept : s.written.filter (fun row => row.txId ∉ s.rolledBack) = s.written :=
      filter_eq_self.mpr fun row member => by simpa using none row member
    rw [HidesRolledBack, kept]
    exact all

theorem step_hidesRolledBack_iff (s : Tablet) (c : Call) (t : Tablet) (all : ScansAll s)
    (after : ScansAll t) (hides : HidesRolledBack s) (ok : step H crc s c = some t) :
    HidesRolledBack t ↔ LeavesNoTrace s c := by
  rw [hidesRolledBack_iff after]
  have none := (hidesRolledBack_iff all).mp hides
  cases c with
  | writeRows rows =>
    cases ok
    simp only [LeavesNoTrace, forall_mem_append]
    exact and_iff_right none
  | prepare txId =>
    cases ok
    exact iff_of_true none trivial
  | commit txId =>
    cases ok
    exact iff_of_true none trivial
  | rollback txId =>
    cases ok
    simp only [LeavesNoTrace, mem_append, mem_singleton, not_or]
    exact ⟨fun both row member => (both row member).2,
      fun distinct row member => ⟨none row member, distinct row member⟩⟩
  | startFlush i =>
    obtain ⟨-, -, written, rolledBack⟩ := startFlush_frame H crc ok
    rw [written, rolledBack]
    exact iff_of_true none trivial
  | finishFlush i result =>
    obtain ⟨-, -, written, rolledBack⟩ := finishFlush_frame H crc ok
    rw [written, rolledBack]
    exact iff_of_true none trivial
  | restart =>
    cases ok
    exact iff_of_true none trivial

/-- Exactly when there is nothing to hide. -/
theorem scan_hides_rolledBack_iff (partitionDir : String) (calls : List Call)
    (fits : Run.EveryStep (step H crc) (fun s c => FramedWrite H s c ∧ KeepsMemtable H s c)
      (fresh H crc partitionDir) calls) :
    Run.EveryState (step H crc) HidesRolledBack (fresh H crc partitionDir) calls ↔
      Run.EveryStep (step H crc) LeavesNoTrace (fresh H crc partitionDir) calls := by
  have keep : ∀ s c t, Logged crc s ∧ ScansAll s → FramedWrite H s c ∧ KeepsMemtable H s c →
      step H crc s c = some t → Logged crc t ∧ ScansAll t := by
    intro s c t inv fits ok
    exact ⟨step_logged H crc s c t inv.1 fits.1 ok,
      (step_scansAll_iff H crc s c t inv.1 fits.1 inv.2 ok).mpr fits.2⟩
  apply Run.everyState_iff_everyStep (fun s => Logged crc s ∧ ScansAll s) keep
  · intro s c t inv fits hides ok
    exact step_hidesRolledBack_iff H crc s c t inv.2 (keep s c t inv fits ok).2 hides ok
  · exact ⟨fresh_logged H crc partitionDir, fresh_scansAll H crc partitionDir⟩
  · exact List.Perm.refl _
  · exact fits

instance decidableLeavesNoTrace (s : Tablet) (c : Call) : Decidable (LeavesNoTrace s c) := by
  cases c <;> unfold LeavesNoTrace <;> infer_instance

theorem scan_hides_empty_transaction :
    Run.EveryState (step .ascending Crc32.crc32) HidesRolledBack (fresh .ascending Crc32.crc32 "p0")
      [.writeRows [oneColumn 1 7 [1]], .prepare 2, .rollback 2, .prepare 1, .commit 1,
        .restart, .writeRows [oneColumn 3 7 [1]], .commit 3] :=
  (scan_hides_rolledBack_iff .ascending Crc32.crc32 "p0" _ (by decide +kernel)).mpr (by decide +kernel)

theorem rolledBack_row_scanned :
    (∃ s, Run.exec (step .ascending Crc32.crc32) (fresh .ascending Crc32.crc32 "p0")
        [.writeRows [oneColumn 5 7 [1]], .rollback 5] = some s ∧
      s.rolledBack = [5] ∧ s.writer.scanMemtableRows = [view (oneColumn 5 7 [1])]) ∧
    ∃ s, Run.exec (step .ascending Crc32.crc32) (fresh .ascending Crc32.crc32 "p0")
        [.writeRows [oneColumn 5 7 [1]], .rollback 5, .restart] = some s ∧
      s.rolledBack = [5] ∧ s.writer.scanMemtableRows = [view (oneColumn 5 7 [1])] :=
  ⟨⟨_, rfl, rfl, by decide +kernel⟩, ⟨_, rfl, rfl, by decide +kernel⟩⟩

end TabletWriter
end WowDb.Storage
