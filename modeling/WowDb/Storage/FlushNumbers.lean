import WowDb.Storage.SsTableFlush

/-!
# Segment numbers across restarts

The background flushes of a tablet, file by file, over the lives of its writer: each
`TabletWriter::new` on the directory starts another life.
-/
namespace WowDb.Storage
open WowDb.Lib List

/-- A file that has been written to its end, and the flush that wrote it: a flush is
known by the life of its writer and its number. -/
structure WrittenFile where
  life : Nat
  seq : Nat
  key : String ×ₗ String
  content : Bytes

/-- A tablet with its directory. `todo` holds what each running flush has yet to write,
`startedBefore` whether a writer of an earlier life has started a flush. -/
structure FlushingTablet where
  writer : TabletWriter
  files : PartitionFiles
  todo : OrdMap Nat (List FileWrite)
  life : Nat
  startedBefore : Bool
  log : List WrittenFile

/-- Outcome of one `tokio::fs::write`: a failed one leaves some first octets. -/
inductive FileIo where
  | complete
  | fails (cut : Nat)

namespace FlushingTablet

inductive Action where
  | writeRows (rows : List WriteRow)
  | prepare (txId : UInt64)
  | commit (txId : UInt64)
  | rollback (txId : UInt64)
  | startFlush (i : Nat) (id : Uuid)
  | writeFile (i : Nat) (io : FileIo)
  | failFlush (i : Nat)
  | finishFlush (i : Nat) (id : Uuid) (sizeBytes : Nat)
  | restart

def runningSeq (s : FlushingTablet) (i : Nat) : Option Nat :=
  match s.writer.flushes[i]? with
  | some (.running _ seq) => some seq
  | _ => none

variable (H : HashOrder) (crc : Bytes → UInt32) (F : Flusher)

def plan (s : FlushingTablet) (i : Nat) (id : Uuid) : List FileWrite :=
  match s.writer.flushes[i]? with
  | some (.spawned imm) =>
    match F.flushWrites imm s.writer.seqCounter s.writer.seqCounter 0 [] id with
    | some (writes, _) => writes
    | none => []
  | _ => []

/-- A call, a file operation of a flush, or a restart. -/
def step (s : FlushingTablet) : Action → Option FlushingTablet
  | .writeRows rows => some { s with writer := (s.writer.writeRows H crc rows).1 }
  | .prepare txId => some { s with writer := s.writer.prepare crc txId }
  | .commit txId => some { s with writer := s.writer.commit crc txId }
  | .rollback txId => some { s with writer := s.writer.rollback crc txId }
  | .startFlush i id =>
    (s.writer.startFlush i).map fun writer =>
      { s with writer, todo := s.todo.insert s.writer.seqCounter (s.plan F i id) }
  | .writeFile i io => do
    let seq ← s.runningSeq i
    match s.todo.get? seq with
    | some (w :: rest) =>
      match io with
      | .complete =>
        some { s with
          files := s.files.insert w.1 w.2
          todo := s.todo.insert seq rest
          log := s.log ++ [⟨s.life, seq, w.1, w.2⟩] }
      | .fails cut =>
        (s.writer.finishFlush i none).map fun writer =>
          { s with writer, files := s.files.insert w.1 (w.2.take cut), todo := s.todo.erase seq }
    | _ => none
  | .failFlush i => do
    let seq ← s.runningSeq i
    (s.writer.finishFlush i none).map fun writer => { s with writer, todo := s.todo.erase seq }
  | .finishFlush i id sizeBytes => do
    let seq ← s.runningSeq i
    match s.todo.get? seq with
    | some [] =>
      (s.writer.finishFlush i (some (id, sizeBytes))).map fun writer =>
        { s with writer, todo := s.todo.erase seq }
    | _ => none
  | .restart =>
    some
      { s with
        writer := .new H crc s.writer.partitionDir s.writer.wal.files
        todo := .empty
        life := s.life + 1
        startedBefore := s.startedBefore || decide (0 < s.writer.seqCounter) }

def fresh (partitionDir : String) : FlushingTablet :=
  ⟨.new H crc partitionDir [], .empty, .empty, 0, false, []⟩

/-- No number is used twice, and files keep their content. -/
structure NeverOverwritten (s : FlushingTablet) : Prop where
  numbers : ∀ a ∈ s.log, ∀ b ∈ s.log, a.seq = b.seq → a.life = b.life
  kept : ∀ a ∈ s.log, s.files.get? a.key = some a.content

def FirstWriter (s : FlushingTablet) : Action → Prop
  | .startFlush _ _ => s.startedBefore = false
  | _ => True

variable (w : TabletWriter)

theorem seqCounter_appendWal (entry : WalEntry) :
    (w.appendWal crc entry).seqCounter = w.seqCounter := by
  unfold TabletWriter.appendWal
  rfl

theorem seqCounter_mark (m : WriteBatch.Marker) (txId : UInt64) :
    (w.mark crc m txId).seqCounter = w.seqCounter := by
  simp only [TabletWriter.mark, seqCounter_appendWal]

theorem seqCounter_rollback (txId : UInt64) : (w.rollback crc txId).seqCounter = w.seqCounter := by
  simp only [TabletWriter.rollback, seqCounter_mark]

theorem seqCounter_writeRows (rows : List WriteRow) :
    (w.writeRows H crc rows).1.seqCounter = w.seqCounter := by
  unfold TabletWriter.writeRows
  cases rows with
  | nil => rfl
  | cons row rest =>
    simp only
    split
    · simp only [seqCounter_appendWal]
    · simp only [seqCounter_appendWal]

theorem seqCounter_startFlush {w v : TabletWriter} {i : Nat} (ok : w.startFlush i = some v) :
    v.seqCounter = w.seqCounter + 1 := by
  unfold TabletWriter.startFlush at ok
  split at ok
  · cases ok
    rfl
  · cases ok

theorem seqCounter_finishFlush {w v : TabletWriter} {i : Nat} {written : Option (Uuid × Nat)}
    (ok : w.finishFlush i written = some v) : v.seqCounter = w.seqCounter := by
  unfold TabletWriter.finishFlush at ok
  split at ok
  · cases written with
    | none =>
      cases ok
      rfl
    | some pair =>
      simp only at ok
      split at ok
      · cases ok
        rfl
      · obtain ⟨levels, -, rfl⟩ := Option.map_eq_some_iff.mp ok
        rfl
  · cases ok

variable (s : FlushingTablet)

theorem plan_spec (i : Nat) (id : Uuid) :
    (∀ w ∈ s.plan F i id, OfSegment s.writer.seqCounter w.1) ∧
      ((s.plan F i id).map Prod.fst).Nodup := by
  unfold plan
  split
  · split
    · next writes _ planned => exact F.flushWrites_spec planned
    · exact ⟨by simp, nodup_nil⟩
  · exact ⟨by simp, nodup_nil⟩

/-- The files of the running flushes and of the log are told apart by their numbers: all
numbers of the log come from one counter, unless an earlier life has used it up. -/
structure Tidy (s : FlushingTablet) : Prop where
  owned : ∀ seq writes, s.todo.get? seq = some writes → seq < s.writer.seqCounter ∧
    (∀ w ∈ writes, OfSegment seq w.1) ∧ (writes.map Prod.fst).Nodup
  ahead : ∀ seq writes, s.todo.get? seq = some writes → ∀ w ∈ writes, ∀ a ∈ s.log, a.key ≠ w.1
  named : ∀ a ∈ s.log, OfSegment a.seq a.key
  current : s.startedBefore = false → ∀ a ∈ s.log, a.life = s.life ∧ a.seq < s.writer.seqCounter
  idle : s.startedBefore = true → s.writer.seqCounter = 0
  single : ∀ a ∈ s.log, ∀ b ∈ s.log, a.life = b.life
  kept : ∀ a ∈ s.log, s.files.get? a.key = some a.content

variable (partitionDir : String)

theorem fresh_tidy : Tidy (fresh H crc partitionDir) := by
  refine ⟨?_, ?_, ?_, ?_, ?_, ?_, ?_⟩
  · intro seq writes found
    cases found
  · intro seq writes found
    cases found
  · intro a member
    cases member
  · intro _ a member
    cases member
  · intro started
    cases started
  · intro a member
    cases member
  · intro a member
    cases member

theorem Tidy.of_same {s t : FlushingTablet} (tidy : Tidy s)
    (counter : t.writer.seqCounter = s.writer.seqCounter) (files : t.files = s.files)
    (todo : ∀ seq writes, t.todo.get? seq = some writes → s.todo.get? seq = some writes)
    (life : t.life = s.life) (started : t.startedBefore = s.startedBefore) (log : t.log = s.log) :
    Tidy t := by
  refine ⟨?_, ?_, ?_, ?_, ?_, ?_, ?_⟩
  · intro seq writes found
    rw [counter]
    exact tidy.owned seq writes (todo seq writes found)
  · rw [log]
    exact fun seq writes found => tidy.ahead seq writes (todo seq writes found)
  · rw [log]
    exact tidy.named
  · rw [started, log, life, counter]
    exact tidy.current
  · rw [started, counter]
    exact tidy.idle
  · rw [log]
    exact tidy.single
  · rw [log, files]
    exact tidy.kept

variable {writer : TabletWriter}

theorem startFlush_tidy {s : FlushingTablet} {i : Nat} {id : Uuid}
    (tidy : Tidy s) (first : s.startedBefore = false) (ok : s.writer.startFlush i = some writer) :
    Tidy { s with writer, todo := s.todo.insert s.writer.seqCounter (s.plan F i id) } := by
  have counter := seqCounter_startFlush ok
  obtain ⟨segment, distinct⟩ := plan_spec F s i id
  refine ⟨?_, ?_, tidy.named, ?_, ?_, tidy.single, tidy.kept⟩
  · intro seq writes found
    simp only at found ⊢
    rw [OrdMap.get?_insert] at found
    split at found
    · next same =>
      cases found
      subst same
      exact ⟨by omega, segment, distinct⟩
    · have old := tidy.owned seq writes found
      exact ⟨by omega, old.2⟩
  · intro seq writes found w member a logged
    simp only at found logged
    rw [OrdMap.get?_insert] at found
    split at found
    · next same =>
      cases found
      -- a logged file has a smaller number
      intro equal
      have number := (tidy.named a logged).seq_eq (equal ▸ segment w member)
      have below := (tidy.current first a logged).2
      omega
    · exact tidy.ahead seq writes found w member a logged
  · intro notStarted a logged
    have old := tidy.current notStarted a logged
    simp only
    exact ⟨old.1, by omega⟩
  · intro started
    simp only at started
    rw [first] at started
    cases started

variable {rest : List FileWrite}

theorem writeFile_tidy {s : FlushingTablet} {seq : Nat} {w : FileWrite}
    (tidy : Tidy s) (next : s.todo.get? seq = some (w :: rest)) :
    Tidy { s with files := s.files.insert w.1 w.2, todo := s.todo.insert seq rest,
                  log := s.log ++ [⟨s.life, seq, w.1, w.2⟩] } := by
  obtain ⟨below, segment, distinct⟩ := tidy.owned seq _ next
  have first : s.startedBefore = false := by
    by_contra started
    have zero := tidy.idle (by simpa using started)
    omega
  obtain ⟨unique, restDistinct⟩ := nodup_cons.mp distinct
  refine ⟨?_, ?_, ?_, ?_, ?_, ?_, ?_⟩
  · intro seq' writes found
    simp only at found ⊢
    rw [OrdMap.get?_insert] at found
    split at found
    · next same =>
      cases found
      subst same
      exact ⟨below, fun v member => segment v (mem_cons_of_mem _ member), restDistinct⟩
    · exact tidy.owned seq' writes found
  · intro seq' writes found v member a logged
    simp only at found logged
    rw [OrdMap.get?_insert] at found
    rcases mem_append.mp logged with old | new
    · split at found
      · cases found
        exact tidy.ahead seq _ next v (mem_cons_of_mem _ member) a old
      · exact tidy.ahead seq' writes found v member a old
    · rw [mem_singleton.mp new]
      simp only
      split at found
      · cases found
        intro equal
        exact unique (equal ▸ mem_map_of_mem member)
      · next other =>
        intro equal
        have number := ((tidy.owned seq' writes found).2.1 v member).seq_eq
          (equal ▸ segment w mem_cons_self)
        exact other number
  · intro a logged
    rcases mem_append.mp logged with old | new
    · exact tidy.named a old
    · rw [mem_singleton.mp new]
      exact segment w mem_cons_self
  · intro _ a logged
    rcases mem_append.mp logged with old | new
    · exact tidy.current first a old
    · rw [mem_singleton.mp new]
      exact ⟨rfl, below⟩
  · intro started
    rw [first] at started
    cases started
  · have lives : ∀ a ∈ s.log ++ [⟨s.life, seq, w.1, w.2⟩], a.life = s.life := by
      intro a logged
      rcases mem_append.mp logged with old | new
      · exact (tidy.current first a old).1
      · rw [mem_singleton.mp new]
    intro a inA b inB
    rw [lives a inA, lives b inB]
  · intro a logged
    simp only
    rw [OrdMap.get?_insert]
    rcases mem_append.mp logged with old | new
    · rw [if_neg (tidy.ahead seq _ next w mem_cons_self a old)]
      exact tidy.kept a old
    · rw [mem_singleton.mp new, if_pos rfl]

theorem failedWrite_tidy {s : FlushingTablet} {i seq cut : Nat} {w : FileWrite} (tidy : Tidy s)
    (next : s.todo.get? seq = some (w :: rest)) (ok : s.writer.finishFlush i none = some writer) :
    Tidy { s with writer, files := s.files.insert w.1 (w.2.take cut),
                  todo := s.todo.erase seq } := by
  have counter := seqCounter_finishFlush ok
  have given : Tidy { s with writer, todo := s.todo.erase seq } :=
    tidy.of_same counter rfl (fun _ _ found => OrdMap.get?_of_erase found) rfl rfl rfl
  refine ⟨given.owned, given.ahead, given.named, given.current, given.idle, given.single, ?_⟩
  intro a logged
  simp only
  rw [OrdMap.get?_insert, if_neg (tidy.ahead seq _ next w mem_cons_self a logged)]
  exact tidy.kept a logged

theorem restart_tidy {s t : FlushingTablet} (tidy : Tidy s)
    (ok : step H crc F s .restart = some t) : Tidy t := by
  cases ok
  refine ⟨?_, ?_, tidy.named, ?_, ?_, tidy.single, tidy.kept⟩
  · intro seq writes found
    cases found
  · intro seq writes found
    cases found
  · -- a log entry of this life would have made the counter positive
    intro notStarted a logged
    simp only [Bool.or_eq_false_iff, decide_eq_false_iff_not] at notStarted
    have below := (tidy.current notStarted.1 a logged).2
    omega
  · intro _
    rfl

theorem step_tidy (act : Action) (t : FlushingTablet) (tidy : Tidy s)
    (first : FirstWriter s act) (ok : step H crc F s act = some t) : Tidy t := by
  cases act with
  | writeRows rows =>
    cases ok
    exact tidy.of_same (seqCounter_writeRows H crc _ rows) rfl (fun _ _ found => found) rfl rfl rfl
  | prepare txId =>
    cases ok
    exact tidy.of_same (seqCounter_mark crc _ .prepare txId) rfl (fun _ _ found => found) rfl rfl rfl
  | commit txId =>
    cases ok
    exact tidy.of_same (seqCounter_mark crc _ .commit txId) rfl (fun _ _ found => found) rfl rfl rfl
  | rollback txId =>
    cases ok
    exact tidy.of_same (seqCounter_rollback crc _ txId) rfl (fun _ _ found => found) rfl rfl rfl
  | startFlush i id =>
    obtain ⟨writer, started, rfl⟩ := Option.map_eq_some_iff.mp ok
    exact startFlush_tidy F tidy first started
  | writeFile i io =>
    simp only [step, Option.bind_eq_bind, Option.bind_eq_some_iff] at ok
    obtain ⟨seq, -, ok⟩ := ok
    split at ok
    · next w rest next =>
      cases io with
      | complete =>
        cases ok
        exact writeFile_tidy tidy next
      | fails cut =>
        obtain ⟨writer, ended, rfl⟩ := Option.map_eq_some_iff.mp ok
        exact failedWrite_tidy tidy next ended
    · cases ok
  | failFlush i =>
    simp only [step, Option.bind_eq_bind, Option.bind_eq_some_iff] at ok
    obtain ⟨seq, -, ok⟩ := ok
    obtain ⟨writer, ended, rfl⟩ := Option.map_eq_some_iff.mp ok
    exact tidy.of_same (seqCounter_finishFlush ended) rfl
      (fun _ _ found => OrdMap.get?_of_erase found) rfl rfl rfl
  | finishFlush i id sizeBytes =>
    simp only [step, Option.bind_eq_bind, Option.bind_eq_some_iff] at ok
    obtain ⟨seq, -, ok⟩ := ok
    split at ok
    · obtain ⟨writer, ended, rfl⟩ := Option.map_eq_some_iff.mp ok
      exact tidy.of_same (seqCounter_finishFlush ended) rfl
        (fun _ _ found => OrdMap.get?_of_erase found) rfl rfl rfl
    · cases ok
  | restart => exact restart_tidy H crc F tidy ok

/-- Files are kept when no flush overlaps an earlier life. -/
theorem flush_files_kept (partitionDir : String) (acts : List Action)
    (first : Run.EveryStep (step H crc F) FirstWriter (fresh H crc partitionDir) acts) :
    Run.EveryState (step H crc F) NeverOverwritten (fresh H crc partitionDir) acts := by
  have every := Run.everyState_of_everyStep (step_tidy H crc F) acts _
    (fresh_tidy H crc partitionDir) first
  exact every.imp fun t tidy => ⟨fun a inA b inB _ => tidy.single a inA b inB, tidy.kept⟩

def fillingRow : WriteRow := TabletWriter.oneColumn 1 7 (List.replicate (64 * 1024 * 1024) 0)

def oneFile (row : WriteRow) : List Action :=
  [.writeRows [row], .startFlush 0 7, .writeFile 0 .complete]

def Fills (row : WriteRow) : Prop :=
  ∀ m : MemTable, m.threshold = defaultMemtableThreshold →
    (TabletWriter.insertRows .ascending m [row]).isFull = true ∧
      (TabletWriter.insertRows .ascending m [row]).snapshotAsImmutable.entries ≠ []

theorem fills_fillingRow : Fills fillingRow := by
  intro m threshold
  constructor
  · have grows : ∀ value : Bytes, defaultMemtableThreshold ≤ value.length →
        (TabletWriter.insertRows .ascending m [TabletWriter.oneColumn 1 7 value]).isFull = true := by
      intro value long
      have size : (TabletWriter.insertRows .ascending m [TabletWriter.oneColumn 1 7 value]).sizeBytes
          = m.sizeBytes + (64 + ((Text.encode "v".toList).length + value.length + 16)) := rfl
      have same : (TabletWriter.insertRows .ascending m
          [TabletWriter.oneColumn 1 7 value]).threshold = m.threshold := rfl
      rw [MemTable.isFull, size, same, threshold, decide_eq_true_eq]
      omega
    exact grows _ (by rw [length_replicate]; decide)
  · have entered : ∀ row : WriteRow,
        (TabletWriter.insertRows .ascending m [row]).snapshotAsImmutable.entries ≠ [] := by
      intro row
      have found := OrdMap.get?_insert m.map ⟨WriteBatch.toSortKey row, m.seqGen⟩
        ⟨WriteBatch.toSortKey row, m.seqGen⟩
        ⟨HashOrder.ascending.iterate row.columns, row.txId, false⟩
      rw [if_pos rfl] at found
      exact ne_nil_of_mem ((OrdMap.mem_entries_iff _ _ _).mpr found)
    exact entered fillingRow

theorem new_threshold (files : SegmentFiles) :
    (TabletWriter.new H crc partitionDir files).memtable.threshold = defaultMemtableThreshold := by
  have kept := (TabletWriter.insertRows_spec H ((Wal.replay crc (Wal.openLatest files).files).flatMap
    TabletWriter.entryRows) (MemTable.seqBelow_new defaultMemtableThreshold)).2.1
  rw [← TabletWriter.replayWal_eq] at kept
  exact kept

theorem restart_spec :
    ∃ u, step H crc F s .restart = some u ∧ u.writer.flushes = [] ∧ u.writer.seqCounter = 0 ∧
      u.writer.memtable.threshold = defaultMemtableThreshold ∧ u.log = s.log ∧
      u.life = s.life + 1 :=
  ⟨_, rfl, rfl, rfl, new_threshold H crc _ _, rfl, rfl⟩

theorem writeRows_filled {w : TabletWriter} {row : WriteRow}
    (full : (TabletWriter.insertRows H w.memtable [row]).isFull = true) :
    (w.writeRows H crc [row]).1.flushes = w.flushes ++
      [.spawned (TabletWriter.insertRows H w.memtable [row]).snapshotAsImmutable] := by
  unfold TabletWriter.writeRows
  simp only
  split
  · rfl
  · next notFull => exact absurd full notFull

theorem oneFile_logged {row : WriteRow} (fills : Fills row) (s : FlushingTablet)
    (idle : s.writer.flushes = []) (zero : s.writer.seqCounter = 0)
    (threshold : s.writer.memtable.threshold = defaultMemtableThreshold) :
    ∃ t key content, Run.exec (step .ascending crc F) s (oneFile row) = some t ∧
      t.log = s.log ++ [⟨s.life, 0, key, content⟩] := by
  obtain ⟨full, rows⟩ := fills s.writer.memtable threshold
  have spawned := writeRows_filled .ascending crc full
  have counter := seqCounter_writeRows .ascending crc s.writer [row]
  generalize TabletWriter.insertRows .ascending s.writer.memtable [row] = mem at rows spawned
  obtain ⟨first, rest, sst, planned⟩ := F.flushWrites_isSome rows 0 0 0 [] 7
  rw [idle, nil_append] at spawned
  rw [zero] at counter
  generalize written : (s.writer.writeRows .ascending crc [row]).1 = w at spawned counter
  have started : w.startFlush 0 = some { w with
      flushes := [.running mem.snapshotAsImmutable 0], seqCounter := 1 } := by
    simp [TabletWriter.startFlush, spawned, counter]
  have plans : plan F { s with writer := w } 0 7 = first :: rest := by
    simp only [plan, spawned, getElem?_cons_zero, counter, planned]
  let flushing : FlushingTablet :=
    { s with
      writer := { w with flushes := [.running mem.snapshotAsImmutable 0], seqCounter := 1 }
      todo := s.todo.insert 0 (first :: rest) }
  have filling : step .ascending crc F s (.writeRows [row]) = some { s with writer := w } := by
    simp only [step, written]
  have starting : step .ascending crc F { s with writer := w } (.startFlush 0 7) = some flushing := by
    simp only [step, started, plans, counter, Option.map_some, flushing]
  have next : flushing.todo.get? 0 = some (first :: rest) := by
    simp only [flushing, OrdMap.get?_insert, if_true]
  have running : flushing.runningSeq 0 = some 0 := rfl
  have writing : step .ascending crc F flushing (.writeFile 0 .complete) = some { flushing with
        files := flushing.files.insert first.1 first.2
        todo := flushing.todo.insert 0 rest
        log := s.log ++ [⟨s.life, 0, first.1, first.2⟩] } := by
    simp only [step, running, next, Option.bind_eq_bind, Option.bind_some]
    rfl
  have executed : Run.exec (step .ascending crc F) s (oneFile row) = some { flushing with
        files := flushing.files.insert first.1 first.2
        todo := flushing.todo.insert 0 rest
        log := s.log ++ [⟨s.life, 0, first.1, first.2⟩] } := by
    simp only [oneFile, Run.exec, filling, starting, writing, Option.bind_some]
  exact ⟨_, first.1, first.2, executed, rfl⟩

theorem flush_files_kept_over_restart :
    Run.EveryState (step .ascending Crc32.crc32 Flusher.plain) NeverOverwritten
      (fresh .ascending Crc32.crc32 "p")
      (oneFile fillingRow ++ [.restart, .writeRows [fillingRow]]) := by
  generalize fillingRow = row
  apply flush_files_kept
  refine fun s written => ⟨trivial, fun t _ => ⟨?_, fun _ _ => ⟨trivial, fun _ _ =>
    ⟨trivial, fun _ _ => ⟨trivial, trivial⟩⟩⟩⟩⟩
  cases written
  rfl

theorem restarted_flush_reuses_number :
    ∃ t, Run.exec (step .ascending Crc32.crc32 Flusher.plain) (fresh .ascending Crc32.crc32 "p")
      (oneFile fillingRow ++ .restart :: oneFile fillingRow) = some t ∧ ¬ NeverOverwritten t := by
  have fills := fills_fillingRow
  generalize fillingRow = row at fills ⊢
  obtain ⟨s, key, content, first, logged⟩ := oneFile_logged Crc32.crc32 Flusher.plain fills
    (fresh .ascending Crc32.crc32 "p") rfl rfl (new_threshold _ _ _ _)
  obtain ⟨u, again, idle, zero, threshold, sameLog, nextLife⟩ :=
    restart_spec .ascending Crc32.crc32 Flusher.plain s
  obtain ⟨t, key', content', rerun, relogged⟩ :=
    oneFile_logged Crc32.crc32 Flusher.plain fills u idle zero threshold
  refine ⟨t, ?_, fun kept => ?_⟩
  · rw [Run.exec_append, first, Option.bind_some, Run.exec, again, Option.bind_some, rerun]
  · have early : ⟨0, 0, key, content⟩ ∈ t.log := by
      rw [relogged, sameLog, logged]
      simp [fresh]
    have late : ⟨u.life, 0, key', content'⟩ ∈ t.log := by
      rw [relogged]
      simp
    have lives := kept.numbers _ early _ late rfl
    simp only at lives
    omega

end FlushingTablet
end WowDb.Storage
