import WowDb.Lib.BufWriter
import WowDb.Lib.OrdMap
import WowDb.Storage.Wal

/-!
# Group commit of the write-ahead log

`Wal::append`, the background flusher, `sync` and `flush_batch` of `storage-node/src/lsm/wal.rs`,
with every write able to fail.
-/
namespace WowDb.Storage.WalGroupCommit
open WowDb.Lib List
open WowDb.Lib.Bytes

structure Octet where
  call : Option Nat
  value : UInt8
  deriving DecidableEq

structure PendingWrite where
  call : Nat
  entry : WalEntry
  deriving DecidableEq

structure Segment where
  writer : BufWriter Octet
  size : Nat
  seq : Nat

structure LogDir where
  files : OrdMap Nat (List Octet)
  segment : Segment

def LogDir.segmentFiles (d : LogDir) : OrdMap Nat (List Octet) :=
  d.files.insert d.segment.seq d.segment.writer.file

structure FlushIo where
  room : Option Nat
  opens : Nat → Bool

def openSegment (files : OrdMap Nat (List Octet)) (room : Option Nat) (seq : Nat) : Segment :=
  let file := (files.get? seq).getD []
  ⟨⟨file, [], 256 * 1024, room⟩, file.length, seq⟩

variable (crc : Bytes → UInt32) (maxSeg : Nat)

def fields (pw : PendingWrite) : List (List Octet) :=
  [leBytes 4 (Wal.checksum crc pw.entry.txId pw.entry.payload).toNat,
    leBytes 8 pw.entry.txId.toNat, leBytes 4 (pw.entry.payload.length % 2 ^ 32),
    pw.entry.payload].map (·.map (Octet.mk (some pw.call)))

def rotate (opens : Nat → Bool) (d : LogDir) (entry : WalEntry) : LogDir × Bool :=
  if maxSeg < d.segment.size + Wal.recordLen entry then
    let (writer, flushed) := d.segment.writer.flush
    let d := { d with segment := { d.segment with writer } }
    let newSeq := d.segment.seq + 1
    if flushed && opens newSeq then
      (⟨d.segmentFiles, openSegment d.segmentFiles writer.room newSeq⟩, true)
    else (d, false)
  else (d, true)

def writeRecord (opens : Nat → Bool) (d : LogDir) (pw : PendingWrite) : LogDir × Bool :=
  let (d, rotated) := rotate maxSeg opens d pw.entry
  if rotated then
    let (writer, ok) := d.segment.writer.writeEach (fields crc pw)
    let size := if ok then d.segment.size + Wal.recordLen pw.entry else d.segment.size
    ({ d with segment := { d.segment with writer, size } }, ok)
  else (d, false)

def writeBatch (opens : Nat → Bool) (d : LogDir) : List PendingWrite → LogDir × Bool
  | [] => (d, true)
  | pw :: rest =>
    let (d, ok) := writeRecord crc maxSeg opens d pw
    if ok then writeBatch opens d rest else (d, false)

def flushSegment (d : LogDir) : LogDir × Bool :=
  let (writer, ok) := d.segment.writer.flush
  ({ d with segment := { d.segment with writer } }, ok)

def LogDir.withRoom (d : LogDir) (room : Option Nat) : LogDir :=
  { d with segment := { d.segment with writer := { d.segment.writer with room } } }

def flushBatch (io : FlushIo) (d : LogDir) (batch : List PendingWrite) : LogDir × Bool :=
  let (d, ok) := writeBatch crc maxSeg io.opens (d.withRoom io.room) batch
  if ok then flushSegment d else (d, false)

inductive FlusherTask where
  | waiting
  | flushing (batch : List PendingWrite)
  | notifying (rest : List PendingWrite)

/-- A call of `sync`: `flush_group_buf`, then the flush of the segment. -/
inductive SyncTask where
  | flushing (batch : List PendingWrite)
  | notifying (rest : List PendingWrite)
  | closing
  | returned (ok : Bool)

structure State where
  pending : List PendingWrite
  dir : LogDir
  flusher : FlusherTask
  syncs : List SyncTask
  /-- Calls whose `Notify` holds a permit. -/
  notified : List PendingWrite
  /-- Calls of `append` that returned `Ok`. -/
  returned : List PendingWrite
  calls : Nat

inductive Action where
  | append (entry : WalEntry)
  | take
  | flush (io : FlushIo)
  | notify
  | sync
  | flushSync (i : Nat) (io : FlushIo)
  | notifySync (i : Nat)
  | closeSync (i : Nat) (room : Option Nat)
  | resume (pw : PendingWrite)

def step (s : State) : Action → Option State
  | .append entry => some { s with
      pending := s.pending ++ [⟨s.calls, entry⟩]
      calls := s.calls + 1 }
  | .take =>
    match s.flusher, s.pending with
    | .waiting, _ :: _ => some { s with pending := [], flusher := .flushing s.pending }
    | _, _ => none
  | .flush io =>
    match s.flusher with
    | .flushing batch =>
      -- the result is looked at when the waiters have been woken, and then only logged
      some { s with
        dir := (flushBatch crc maxSeg io s.dir batch).1
        flusher := .notifying batch }
    | _ => none
  | .notify =>
    match s.flusher with
    | .notifying (pw :: rest) => some { s with
        notified := pw :: s.notified
        flusher := .notifying rest }
    | .notifying [] => some { s with flusher := .waiting }
    | _ => none
  | .sync => some { s with
      pending := []
      syncs := s.syncs ++ [if s.pending = [] then .closing else .flushing s.pending] }
  | .flushSync i io =>
    match s.syncs[i]? with
    | some (.flushing batch) =>
      let (dir, ok) := flushBatch crc maxSeg io s.dir batch
      some { s with
        dir
        syncs := s.syncs.set i (if ok then .notifying batch else .returned false) }
    | _ => none
  | .notifySync i =>
    match s.syncs[i]? with
    | some (.notifying (pw :: rest)) => some { s with
        notified := pw :: s.notified
        syncs := s.syncs.set i (.notifying rest) }
    | some (.notifying []) => some { s with syncs := s.syncs.set i .closing }
    | _ => none
  | .closeSync i room =>
    match s.syncs[i]? with
    | some .closing =>
      let (dir, ok) := flushSegment (s.dir.withRoom room)
      some { s with dir, syncs := s.syncs.set i (.returned ok) }
    | _ => none
  | .resume pw =>
    if pw ∈ s.notified then
      some { s with notified := s.notified.erase pw, returned := pw :: s.returned }
    else none

def opened (files : OrdMap Nat Bytes) : State where
  pending := []
  dir :=
    let files := files.map (·.map (Octet.mk none))
    ⟨files, openSegment files none ((files.entries.map (·.1)).foldl max 0)⟩
  flusher := .waiting
  syncs := []
  notified := []
  returned := []
  calls := 0

def Grows (m m' : OrdMap Nat (List Octet)) : Prop :=
  ∀ n content, m.get? n = some content → ∃ content', m'.get? n = some content' ∧ content <+: content'

namespace Grows

variable {m m' m'' : OrdMap Nat (List Octet)}

theorem refl (m : OrdMap Nat (List Octet)) : Grows m m :=
  fun _ content found => ⟨content, found, prefix_refl content⟩

theorem trans (first : Grows m m') (second : Grows m' m'') : Grows m m'' := by
  intro n content found
  obtain ⟨content', found', front⟩ := first n content found
  obtain ⟨content'', found'', front'⟩ := second n content' found'
  exact ⟨content'', found'', front.trans front'⟩

theorem insert (m : OrdMap Nat (List Octet)) (seq : Nat) {file file' : List Octet}
    (front : file <+: file') : Grows (m.insert seq file) (m.insert seq file') := by
  intro n content found
  simp only [OrdMap.get?_insert] at found ⊢
  by_cases same : n = seq
  · rw [if_pos same] at found ⊢
    cases found
    exact ⟨file', rfl, front⟩
  · rw [if_neg same] at found ⊢
    exact ⟨content, found, prefix_refl content⟩

theorem opened (m : OrdMap Nat (List Octet)) (seq : Nat) :
    Grows m (m.insert seq ((m.get? seq).getD [])) := by
  intro n content found
  refine ⟨content, ?_, prefix_refl content⟩
  rw [OrdMap.get?_insert]
  split
  · next same =>
    rw [← same, found]
    rfl
  · exact found

end Grows

theorem rotate_grows (opens : Nat → Bool) (d : LogDir) (entry : WalEntry) :
    Grows d.segmentFiles (rotate maxSeg opens d entry).1.segmentFiles := by
  have flushed := Grows.insert d.files d.segment.seq d.segment.writer.flush_grows
  unfold rotate
  split
  · simp only
    split
    · exact flushed.trans (.opened _ _)
    · exact flushed
  · exact .refl _

theorem writeRecord_grows (opens : Nat → Bool) (d : LogDir) (pw : PendingWrite) :
    Grows d.segmentFiles (writeRecord crc maxSeg opens d pw).1.segmentFiles := by
  have rotated := rotate_grows maxSeg opens d pw.entry
  unfold writeRecord
  simp only
  split
  · exact rotated.trans (.insert _ _ (BufWriter.writeEach_grows _))
  · exact rotated

theorem writeBatch_grows (opens : Nat → Bool) (d : LogDir) (batch : List PendingWrite) :
    Grows d.segmentFiles (writeBatch crc maxSeg opens d batch).1.segmentFiles := by
  induction batch generalizing d with
  | nil => exact .refl _
  | cons pw rest ih =>
    have first := writeRecord_grows crc maxSeg opens d pw
    unfold writeBatch
    simp only
    split
    · exact first.trans (ih _)
    · exact first

theorem flushSegment_grows (d : LogDir) : Grows d.segmentFiles (flushSegment d).1.segmentFiles :=
  .insert _ _ d.segment.writer.flush_grows

theorem flushBatch_grows (io : FlushIo) (d : LogDir) (batch : List PendingWrite) :
    Grows d.segmentFiles (flushBatch crc maxSeg io d batch).1.segmentFiles := by
  have written := writeBatch_grows crc maxSeg io.opens (d.withRoom io.room) batch
  unfold flushBatch
  simp only
  split
  · exact written.trans (flushSegment_grows _)
  · exact written

theorem step_grows {s t : State} {a : Action} (executed : step crc maxSeg s a = some t) :
    Grows s.dir.segmentFiles t.dir.segmentFiles := by
  cases a with
  | flush io | flushSync i io =>
    simp only [step] at executed
    split at executed <;> cases executed
    exact flushBatch_grows crc maxSeg io s.dir _
  | closeSync i room =>
    simp only [step] at executed
    split at executed <;> cases executed
    exact flushSegment_grows (s.dir.withRoom room)
  | append | sync =>
    cases executed
    exact .refl _
  | take | notify | notifySync | resume =>
    simp only [step] at executed
    split at executed <;> cases executed <;> exact .refl _

/-- What reached a segment file is never rewritten, whichever writes fail. -/
theorem log_append_only (s : State) (acts : List Action) :
    Run.EveryState (step crc maxSeg) (fun t => Grows s.dir.segmentFiles t.dir.segmentFiles) s acts :=
  Run.everyState_of_step (fun _ _ _ before executed => before.trans (step_grows crc maxSeg executed))
    acts s (.refl _)

def recordOf (pw : PendingWrite) : List Octet :=
  (Wal.record crc pw.entry).map (Octet.mk (some pw.call))

theorem flatten_fields (pw : PendingWrite) : (fields crc pw).flatten = recordOf crc pw := by
  simp [fields, recordOf, Wal.record]

def Holds (m : OrdMap Nat (List Octet)) (pw : PendingWrite) : Prop :=
  ∃ n content, m.get? n = some content ∧ recordOf crc pw <:+: content

variable {pw : PendingWrite}

theorem Holds.mono {m m' : OrdMap Nat (List Octet)} (held : Holds crc m pw) (grows : Grows m m') :
    Holds crc m' pw := by
  obtain ⟨n, content, found, part⟩ := held
  obtain ⟨content', found', front⟩ := grows n content found
  exact ⟨n, content', found', part.trans front.isInfix⟩

def LogDir.streams (d : LogDir) : OrdMap Nat (List Octet) :=
  d.files.insert d.segment.seq d.segment.writer.stream

variable {opens : Nat → Bool}

theorem rotate_streams {d : LogDir} {entry : WalEntry}
    (ok : (rotate maxSeg opens d entry).2 = true) :
    Grows d.streams (rotate maxSeg opens d entry).1.streams := by
  unfold rotate at ok ⊢
  split
  · next full =>
    simp only [if_pos full] at ok ⊢
    split
    · next both =>
      have flushed := (Bool.and_eq_true_iff.mp both).1
      have whole := d.segment.writer.file_flush flushed
      simp only [LogDir.streams, LogDir.segmentFiles, openSegment, BufWriter.stream,
        append_nil, whole]
      exact .opened _ _
    · next either => simp [either] at ok
  · exact .refl _

theorem writeRecord_streams {d : LogDir} (ok : (writeRecord crc maxSeg opens d pw).2 = true) :
    Grows d.streams (writeRecord crc maxSeg opens d pw).1.streams ∧
      Holds crc (writeRecord crc maxSeg opens d pw).1.streams pw := by
  unfold writeRecord at ok ⊢
  cases rotated : (rotate maxSeg opens d pw.entry).2 with
  | false => simp [rotated] at ok
  | true =>
    simp only [rotated, if_true] at ok ⊢
    have stream := BufWriter.stream_writeEach ok
    rw [flatten_fields] at stream
    constructor
    · refine (rotate_streams maxSeg rotated).trans (.insert _ _ ?_)
      rw [stream]
      exact prefix_append _ _
    · refine ⟨_, _, (OrdMap.get?_insert _ _ _ _).trans (if_pos rfl), ?_⟩
      rw [stream]
      exact (suffix_append _ _).isInfix

variable {batch : List PendingWrite}

theorem writeBatch_streams {d : LogDir} (ok : (writeBatch crc maxSeg opens d batch).2 = true) :
    Grows d.streams (writeBatch crc maxSeg opens d batch).1.streams ∧
      ∀ pw ∈ batch, Holds crc (writeBatch crc maxSeg opens d batch).1.streams pw := by
  induction batch generalizing d with
  | nil => exact ⟨.refl _, nofun⟩
  | cons pw rest ih =>
    unfold writeBatch at ok ⊢
    cases wrote : (writeRecord crc maxSeg opens d pw).2 with
    | false => simp [wrote] at ok
    | true =>
      simp only [wrote, if_true] at ok ⊢
      obtain ⟨grows, held⟩ := writeRecord_streams crc maxSeg wrote
      obtain ⟨later, others⟩ := ih ok
      refine ⟨grows.trans later, ?_⟩
      rintro q (_ | ⟨_, member⟩)
      · exact held.mono crc later
      · exact others q member

theorem flushBatch_holds {io : FlushIo} {d : LogDir}
    (ok : (flushBatch crc maxSeg io d batch).2 = true) (member : pw ∈ batch) :
    Holds crc (flushBatch crc maxSeg io d batch).1.segmentFiles pw := by
  unfold flushBatch at ok ⊢
  cases wrote : (writeBatch crc maxSeg io.opens (d.withRoom io.room) batch).2 with
  | false => simp [wrote] at ok
  | true =>
    simp only [wrote, if_true] at ok ⊢
    have held := (writeBatch_streams crc maxSeg wrote).2 pw member
    have whole := BufWriter.file_flush _ ok
    simp only [LogDir.segmentFiles, flushSegment, whole]
    exact held

structure Refines (d : LogDir) (w : SegmentWriter) : Prop where
  size : d.segment.size = w.segment.size
  seq : d.segment.seq = w.segment.seq
  octets : ∀ n, (d.streams.get? n).map (·.map Octet.value) = w.files.lookup n

variable (files : SegmentFiles)

theorem lookup_appendTo (seq : Nat) (octets : Bytes) (n : Nat) :
    (Wal.appendTo files seq octets).lookup n =
      (files.lookup n).map fun old => if n = seq then old ++ octets else old := by
  induction files with
  | nil => rfl
  | cons f rest ih =>
    obtain ⟨k, old⟩ := f
    have head : Wal.appendTo ((k, old) :: rest) seq octets =
        (k, if k = seq then old ++ octets else old) :: Wal.appendTo rest seq octets := by
      simp only [Wal.appendTo, map_cons, cons.injEq, and_true]
      split <;> rfl
    rw [head, lookup_cons, lookup_cons, ih]
    by_cases same : n = k
    · subst same
      simp
    · simp [beq_false_of_ne same]

theorem openSegment_spec (seq : Nat) :
    (Wal.openSegment files seq).segment = ⟨(Wal.content files seq).length, seq⟩ ∧
      ∀ n, (Wal.openSegment files seq).files.lookup n =
        if n = seq then some (Wal.content files seq) else files.lookup n := by
  have listed : files.lookup seq = none ↔ seq ∉ Wal.allSeqs files := by
    simp only [Wal.allSeqs, lookup_eq_none_iff, bne_iff_ne, mem_map, not_exists, not_and]
    exact forall₂_congr fun f _ => not_congr eq_comm
  unfold Wal.openSegment
  by_cases present : seq ∈ Wal.allSeqs files
  · obtain ⟨content, found⟩ := Option.ne_none_iff_exists'.mp fun none => listed.mp none present
    rw [if_pos present]
    refine ⟨rfl, fun n => ?_⟩
    split
    · next same => rw [same, Wal.content, found, Option.getD_some]
    · rfl
  · have missing := listed.mpr present
    rw [if_neg present]
    refine ⟨by rw [Wal.content, missing]; rfl, fun n => ?_⟩
    rw [lookup_append, lookup_cons, lookup_nil]
    by_cases same : n = seq
    · subst same
      simp [Wal.content, missing]
    · simp [beq_false_of_ne same, same]

theorem record_octets (pw : PendingWrite) :
    (recordOf crc pw).map Octet.value = Wal.record crc pw.entry := by
  rw [recordOf, map_map]
  exact map_id _

namespace Refines

variable {d : LogDir} {w : SegmentWriter}

theorem openSegment {files : OrdMap Nat (List Octet)} {old : SegmentFiles}
    (same : ∀ n, (files.get? n).map (·.map Octet.value) = old.lookup n) (room : Option Nat)
    (seq : Nat) : Refines ⟨files, openSegment files room seq⟩ (Wal.openSegment old seq) := by
  obtain ⟨segment, lookups⟩ := openSegment_spec old seq
  have content : ((files.get? seq).getD []).map Octet.value = Wal.content old seq := by
    rw [Wal.content, ← same seq]
    cases files.get? seq <;> rfl
  refine ⟨?_, ?_, fun n => ?_⟩
  · rw [segment, ← content, length_map]
    rfl
  · rw [segment]
    rfl
  · rw [lookups, LogDir.streams, OrdMap.get?_insert, ← content, ← same n]
    simp only [WalGroupCommit.openSegment, BufWriter.stream, append_nil]
    split <;> rfl

variable (same : Refines d w)

include same

theorem rotate {entry : WalEntry} (ok : (rotate maxSeg opens d entry).2 = true) :
    Refines (WalGroupCommit.rotate maxSeg opens d entry).1 (Wal.rotate maxSeg w entry) := by
  unfold WalGroupCommit.rotate at ok ⊢
  unfold Wal.rotate
  rw [same.size] at ok ⊢
  by_cases full : maxSeg < w.segment.size + Wal.recordLen entry
  · simp only [if_pos full] at ok ⊢
    split
    · next both =>
      have whole := d.segment.writer.file_flush (Bool.and_eq_true_iff.mp both).1
      have files : ({ d with segment := { d.segment with writer := d.segment.writer.flush.1 } } :
          LogDir).segmentFiles = d.streams := by
        simp only [LogDir.segmentFiles, LogDir.streams, whole]
      simp only [files, ← same.seq]
      exact .openSegment same.octets _ _
    · next either => simp [either] at ok
  · simp only [if_neg full]
    exact same

theorem writeRecord (ok : (writeRecord crc maxSeg opens d pw).2 = true) :
    Refines (WalGroupCommit.writeRecord crc maxSeg opens d pw).1
      (Wal.writeRecord crc maxSeg w pw.entry) := by
  unfold WalGroupCommit.writeRecord at ok ⊢
  unfold Wal.writeRecord
  cases rotated : (WalGroupCommit.rotate maxSeg opens d pw.entry).2 with
  | false => simp [rotated] at ok
  | true =>
    have same := same.rotate maxSeg rotated
    simp only [rotated, if_true] at ok ⊢
    have stream := BufWriter.stream_writeEach ok
    rw [flatten_fields] at stream
    refine ⟨?_, same.seq, fun n => ?_⟩
    · simp only [ok, if_true, same.size]
    · have before := same.octets n
      simp only [LogDir.streams, OrdMap.get?_insert, stream] at before ⊢
      rw [lookup_appendTo, ← before, ← same.seq]
      split
      · simp [record_octets]
      · simp [Function.comp_def]

theorem writeBatch (ok : (writeBatch crc maxSeg opens d batch).2 = true) :
    Refines (WalGroupCommit.writeBatch crc maxSeg opens d batch).1
      (Wal.flushBatch crc maxSeg w (batch.map PendingWrite.entry)) := by
  induction batch generalizing d w with
  | nil => exact same
  | cons pw rest ih =>
    unfold WalGroupCommit.writeBatch at ok ⊢
    cases wrote : (WalGroupCommit.writeRecord crc maxSeg opens d pw).2 with
    | false => simp [wrote] at ok
    | true =>
      simp only [wrote, if_true] at ok ⊢
      exact ih (same.writeRecord crc maxSeg wrote) ok

theorem flushBatch {io : FlushIo} (ok : (flushBatch crc maxSeg io d batch).2 = true) :
    Refines (WalGroupCommit.flushBatch crc maxSeg io d batch).1
        (Wal.flushBatch crc maxSeg w (batch.map PendingWrite.entry)) ∧
      (WalGroupCommit.flushBatch crc maxSeg io d batch).1.segment.writer.buf = [] := by
  have ready : Refines (d.withRoom io.room) w := ⟨same.size, same.seq, same.octets⟩
  unfold WalGroupCommit.flushBatch at ok ⊢
  cases wrote : (WalGroupCommit.writeBatch crc maxSeg io.opens (d.withRoom io.room) batch).2 with
  | false => simp [wrote] at ok
  | true =>
    simp only [wrote, if_true] at ok ⊢
    have written := ready.writeBatch crc maxSeg wrote
    refine ⟨⟨written.size, written.seq, fun n => ?_⟩, BufWriter.buf_flush _ ok⟩
    have before := written.octets n
    simp only [LogDir.streams, flushSegment, BufWriter.stream_flush] at before ⊢
    exact before

end Refines

def FlusherTask.woken : FlusherTask → List PendingWrite
  | .notifying rest => rest
  | _ => []

def SyncTask.woken : SyncTask → List PendingWrite
  | .notifying rest => rest
  | _ => []

def State.acknowledged (s : State) : List PendingWrite :=
  s.returned ++ s.notified ++ s.flusher.woken ++ s.syncs.flatMap SyncTask.woken

def ReturnedWritten (s : State) : Prop := ∀ pw ∈ s.returned, Holds crc s.dir.segmentFiles pw

def AcknowledgedWritten (s : State) : Prop :=
  ∀ pw ∈ s.acknowledged, Holds crc s.dir.segmentFiles pw

def FlusherSucceeds (s : State) (a : Action) : Prop :=
  match a, s.flusher with
  | .flush io, .flushing batch => (flushBatch crc maxSeg io s.dir batch).2 = true
  | _, _ => True

instance (s : State) (a : Action) : Decidable (FlusherSucceeds crc maxSeg s a) := by
  unfold FlusherSucceeds
  split <;> infer_instance

variable {s : State}

theorem AcknowledgedWritten.step_of {t : State} (before : AcknowledgedWritten crc s)
    (grows : Grows s.dir.segmentFiles t.dir.segmentFiles)
    (new : ∀ pw ∈ t.acknowledged, pw ∈ s.acknowledged ∨ Holds crc t.dir.segmentFiles pw) :
    AcknowledgedWritten crc t := by
  intro pw member
  rcases new pw member with old | held
  · exact (before pw old).mono crc grows
  · exact held

theorem mem_acknowledged :
    pw ∈ s.acknowledged ↔ pw ∈ s.returned ∨ pw ∈ s.notified ∨ pw ∈ s.flusher.woken ∨
      pw ∈ s.syncs.flatMap SyncTask.woken := by
  simp only [State.acknowledged, mem_append, or_assoc]

theorem mem_acknowledged_of_flusher (woken : pw ∈ s.flusher.woken) : pw ∈ s.acknowledged :=
  mem_acknowledged.mpr (.inr (.inr (.inl woken)))

theorem mem_acknowledged_of_sync {task : SyncTask} (running : task ∈ s.syncs)
    (woken : pw ∈ task.woken) : pw ∈ s.acknowledged :=
  mem_acknowledged.mpr (.inr (.inr (.inr (mem_flatMap.mpr ⟨task, running, woken⟩))))

theorem acknowledged_flusher (s : State) (dir : LogDir) {task : FlusherTask}
    (member : pw ∈ ({ s with dir, flusher := task } : State).acknowledged) :
    pw ∈ s.acknowledged ∨ pw ∈ task.woken := by
  simp only [mem_acknowledged] at member ⊢
  tauto

theorem acknowledged_sync (s : State) (dir : LogDir) {i : Nat} {task : SyncTask}
    (member : pw ∈ ({ s with dir, syncs := s.syncs.set i task } : State).acknowledged) :
    pw ∈ s.acknowledged ∨ pw ∈ task.woken := by
  rcases mem_acknowledged.mp member with old | old | old | woken
  · exact .inl (mem_acknowledged.mpr (.inl old))
  · exact .inl (mem_acknowledged.mpr (.inr (.inl old)))
  · exact .inl (mem_acknowledged_of_flusher old)
  · obtain ⟨other, listed, here⟩ := mem_flatMap.mp woken
    rcases mem_or_eq_of_mem_set listed with old | rfl
    · exact .inl (mem_acknowledged_of_sync old here)
    · exact .inr here

theorem acknowledged_notified {q : PendingWrite} {rest : List PendingWrite}
    (listed : ∀ q ∈ pw :: rest, q ∈ s.acknowledged)
    (member : q ∈ ({ s with notified := pw :: s.notified } : State).acknowledged ∨ q ∈ rest) :
    q ∈ s.acknowledged := by
  rcases member with either | later
  · have old : q ∈ s.acknowledged ∨ q = pw := by
      simp only [mem_acknowledged, mem_cons] at either ⊢
      tauto
    exact old.elim id fun same => listed q (same ▸ mem_cons_self)
  · exact listed q (mem_cons_of_mem _ later)

theorem step_acknowledgedWritten {t : State} {a : Action} (before : AcknowledgedWritten crc s)
    (succeeds : FlusherSucceeds crc maxSeg s a) (executed : step crc maxSeg s a = some t) :
    AcknowledgedWritten crc t := by
  cases a with
  | append entry =>
    cases executed
    exact before
  | take =>
    simp only [step] at executed
    split at executed
    · cases executed
      refine before.step_of crc (.refl _) fun pw member => .inl ?_
      exact (acknowledged_flusher s s.dir member).resolve_right nofun
    · cases executed
  | flush io =>
    simp only [step] at executed
    split at executed
    · next batch running =>
      cases executed
      simp only [FlusherSucceeds, running] at succeeds
      refine before.step_of crc (flushBatch_grows crc maxSeg io s.dir batch) fun pw member => ?_
      exact (acknowledged_flusher s _ member).imp_right (flushBatch_holds crc maxSeg succeeds)
    · cases executed
  | notify =>
    simp only [step] at executed
    split at executed
    · next pw rest running =>
      have listed : ∀ q ∈ pw :: rest, q ∈ s.acknowledged := fun q member =>
        mem_acknowledged_of_flusher (by rwa [running])
      cases executed
      refine before.step_of crc (.refl _) fun q member => .inl ?_
      exact acknowledged_notified listed
        (acknowledged_flusher { s with notified := pw :: s.notified } s.dir member)
    · cases executed
      refine before.step_of crc (.refl _) fun q member => .inl ?_
      exact (acknowledged_flusher s s.dir member).resolve_right nofun
    · cases executed
  | sync =>
    cases executed
    refine before.step_of crc (.refl _) fun q member => .inl ?_
    have none : (if s.pending = [] then SyncTask.closing else .flushing s.pending).woken = [] := by
      split <;> rfl
    simpa [State.acknowledged, none] using member
  | flushSync i io =>
    simp only [step] at executed
    split at executed
    · next batch running =>
      cases executed
      refine before.step_of crc (flushBatch_grows crc maxSeg io s.dir batch) fun pw member => ?_
      refine (acknowledged_sync s _ member).imp_right fun new => ?_
      -- a batch that failed is dropped, and its waiters are not woken
      split at new
      · next ok => exact flushBatch_holds crc maxSeg ok new
      · cases new
    · cases executed
  | notifySync i =>
    simp only [step] at executed
    split at executed
    · next pw rest running =>
      have listed : ∀ q ∈ pw :: rest, q ∈ s.acknowledged := fun q member =>
        mem_acknowledged_of_sync (mem_of_getElem? running) member
      cases executed
      refine before.step_of crc (.refl _) fun q member => .inl ?_
      exact acknowledged_notified listed
        (acknowledged_sync { s with notified := pw :: s.notified } s.dir member)
    · cases executed
      refine before.step_of crc (.refl _) fun q member => .inl ?_
      exact (acknowledged_sync s s.dir member).resolve_right nofun
    · cases executed
  | closeSync i room =>
    simp only [step] at executed
    split at executed
    · cases executed
      refine before.step_of crc (flushSegment_grows (s.dir.withRoom room)) fun pw member => .inl ?_
      exact (acknowledged_sync s _ member).resolve_right nofun
    · cases executed
  | resume pw =>
    simp only [step] at executed
    split at executed
    · next waiting =>
      cases executed
      refine before.step_of crc (.refl _) fun q member => .inl ?_
      rcases mem_acknowledged.mp member with new | old | old | old
      · rcases mem_cons.mp new with rfl | old
        · exact mem_acknowledged.mpr (.inr (.inl waiting))
        · exact mem_acknowledged.mpr (.inl old)
      · exact mem_acknowledged.mpr (.inr (.inl (mem_of_mem_erase old)))
      · exact mem_acknowledged_of_flusher old
      · exact mem_acknowledged.mpr (.inr (.inr (.inr old)))
    · cases executed

/-- A call that returned has its record in a file. -/
theorem returned_written (files : OrdMap Nat Bytes) (acts : List Action)
    (steps : Run.EveryStep (step crc maxSeg) (FlusherSucceeds crc maxSeg) (opened files) acts) :
    Run.EveryState (step crc maxSeg) (ReturnedWritten crc) (opened files) acts := by
  have start : AcknowledgedWritten crc (opened files) := nofun
  refine (Run.everyState_of_everyStep ?_ acts (opened files) start steps).imp ?_
  · exact fun s a t before succeeds executed =>
      step_acknowledgedWritten crc maxSeg before succeeds executed
  · exact fun s all pw member => all pw (mem_acknowledged.mpr (.inl member))

def oneEntry : WalEntry := ⟨7, [1, 2, 3]⟩

/-- A call whose batch the flusher takes and writes; a second one that a failing `sync` takes. -/
def failingSync : List Action :=
  [.append oneEntry, .take, .flush ⟨none, fun _ => true⟩, .notify, .resume ⟨0, oneEntry⟩,
    .append oneEntry, .sync, .flushSync 0 ⟨some 5, fun _ => true⟩]

theorem returned_written_despite_sync :
    Run.EveryState (step Crc32.crc32 Wal.defaultMaxSegmentBytes) (ReturnedWritten Crc32.crc32)
      (opened .empty) failingSync :=
  returned_written Crc32.crc32 Wal.defaultMaxSegmentBytes .empty failingSync (by decide +kernel)

theorem failed_flush_acknowledged : (do
      let s ← Run.exec (step Crc32.crc32 Wal.defaultMaxSegmentBytes) (opened .empty)
        [.append oneEntry, .take, .flush ⟨some 0, fun _ => true⟩, .notify, .resume ⟨0, oneEntry⟩]
      some (s.returned, s.dir.segmentFiles.entries)) = some ([⟨0, oneEntry⟩], [(0, [])]) := by
  decide +kernel

end WowDb.Storage.WalGroupCommit
