import WowDb.Lib.Serde
import WowDb.Storage.Levels

/-!
# MANIFEST log of one partition

`storage-node/src/lsm/manifest.rs`.
-/
namespace WowDb.Storage
open WowDb.Lib

inductive ManifestEvent where
  | add (sst : SstRef)
  | remove (id : Uuid) (level : Nat)
  | compactionBegin (compactionId : Uuid) (inputIds : List Uuid) (outputLevel : Nat)
  | compactionEnd (compactionId : Uuid) (outputIds : List Uuid)
  deriving DecidableEq

structure EventCodec where
  toString : ManifestEvent → List Char
  fromStr : List Char → Option ManifestEvent
  fromStr_toString : ∀ e, fromStr (toString e) = some e
  toString_object : ∀ e, ∃ body, toString e = '{' :: (body ++ ['}'])
  toString_printable : ∀ e, ∀ c ∈ toString e, 32 ≤ c.toNat

structure PendingCompaction where
  id : Uuid
  inputIds : List Uuid
  deriving DecidableEq

structure Manifest where
  active : List SstRef
  pendingCompactions : List PendingCompaction
  deriving DecidableEq

inductive AppendIo where
  | succeeds | openFails | writeFails (written : Nat)
  deriving DecidableEq

structure CompleteIo where
  append : AppendIo
  metadata : Bool
  rewrite : Bool
  deriving DecidableEq

structure ManifestState where
  manifest : Manifest
  file : Option Bytes
  deriving DecidableEq

namespace Manifest

def empty : Manifest := ⟨[], []⟩

def activeSstables (m : Manifest) : List SstRef := m.active

def hasPendingCompactions (m : Manifest) : Bool := !m.pendingCompactions.isEmpty

def pendingCompactionIds (m : Manifest) : List Uuid := m.pendingCompactions.map (·.id)

def applyEvent (m : Manifest) : ManifestEvent → Manifest
  | .add sst => { m with active := m.active ++ [sst] }
  | .remove id _ => { m with active := m.active.filter fun s => s.id ≠ id }
  | .compactionBegin cid inputIds _ =>
    { m with pendingCompactions := m.pendingCompactions ++ [⟨cid, inputIds⟩] }
  | .compactionEnd cid _ =>
    { m with pendingCompactions := m.pendingCompactions.filter fun p => p.id ≠ cid }

variable (C : EventCodec)

def replayLines (m : Manifest) : List Bytes → Option Manifest
  | [] => some m
  | line :: rest =>
    match Text.decode line with
    | none => none
    | some text =>
      if Text.trim text = [] then replayLines m rest
      else
        match C.fromStr (Text.trim text) with
        | some e => replayLines (m.applyEvent e) rest
        | none => some m

def recover (file : Bytes) : Option Manifest := replayLines C empty (Text.lines file)

def openFile : Option Bytes → Option Manifest
  | none => some empty
  | some file => recover C file

def eventLine (e : ManifestEvent) : Bytes := Text.encode (C.toString e) ++ [10]

variable (io : AppendIo)

def appendEvent (e : ManifestEvent) (file : Option Bytes) : Option Bytes × Bool :=
  match io with
  | .succeeds => (some (file.getD [] ++ eventLine C e), true)
  | .openFails => (file, false)
  | .writeFails written => (some (file.getD [] ++ (eventLine C e).take written), false)

def shouldRewrite (metadata : Bool) (file : Option Bytes) : Bool :=
  metadata && decide (16 * 1024 * 1024 < (file.getD []).length)

def snapshotLines (m : Manifest) : Bytes := m.active.flatMap fun sst => eventLine C (.add sst)

def addSst (sst : SstRef) (s : ManifestState) : ManifestState × Bool :=
  match appendEvent C io (.add sst) s.file with
  | (file, true) => (⟨{ s.manifest with active := s.manifest.active ++ [sst] }, file⟩, true)
  | (file, false) => (⟨s.manifest, file⟩, false)

def removeSst (id : Uuid) (level : Nat) (s : ManifestState) : ManifestState × Bool :=
  match appendEvent C io (.remove id level) s.file with
  | (file, true) =>
    (⟨{ s.manifest with active := s.manifest.active.filter fun t => t.id ≠ id }, file⟩, true)
  | (file, false) => (⟨s.manifest, file⟩, false)

def beginCompaction (cid : Uuid) (inputIds : List Uuid) (outputLevel : Nat)
    (s : ManifestState) : ManifestState × Bool :=
  match appendEvent C io (.compactionBegin cid inputIds outputLevel) s.file with
  | (file, true) =>
    (⟨{ s.manifest with
        pendingCompactions := s.manifest.pendingCompactions ++ [⟨cid, inputIds⟩] }, file⟩, true)
  | (file, false) => (⟨s.manifest, file⟩, false)

def completed (m : Manifest) (cid : Uuid) (removedIds : List Uuid) (addedSsts : List SstRef) :
    Manifest :=
  ⟨removedIds.foldl (fun active id => active.filter fun t => t.id ≠ id) m.active ++ addedSsts,
    m.pendingCompactions.filter fun p => p.id ≠ cid⟩

def completeCompaction (io : CompleteIo) (cid : Uuid) (outputIds removedIds : List Uuid)
    (addedSsts : List SstRef) (s : ManifestState) : ManifestState × Bool :=
  let m := completed s.manifest cid removedIds addedSsts
  match appendEvent C io.append (.compactionEnd cid outputIds) s.file with
  | (file, false) => (⟨m, file⟩, false)
  | (file, true) =>
    if shouldRewrite io.metadata file then
      if io.rewrite then (⟨m, some (snapshotLines C m)⟩, true) else (⟨m, file⟩, false)
    else (⟨m, file⟩, true)

end Manifest
end WowDb.Storage

namespace WowDb.Storage.ManifestJson
open WowDb.Lib WowDb.Lib.Json

def sstToJson (s : SstRef) : Json :=
  record [("id", ofUuid s.id), ("sequence_num", ofNat s.sequenceNum),
    ("generation", ofNat s.generation),
    ("compacted_from", ofList ofUuid s.compactedFrom), ("level", ofNat s.level),
    ("path", ofString s.path), ("size_bytes", ofNat s.sizeBytes),
    ("row_count", ofNat s.rowCount),
    ("min_sort_key", ofList ofOctet s.minSortKey),
    ("max_sort_key", ofList ofOctet s.maxSortKey)]

def sstFromJson (v : Json) : Option SstRef := do
  let id ← (← field "id" v) |> asUuid
  let sequenceNum ← (← field "sequence_num" v) |> asNat
  let generation ← (← field "generation" v) |> asNat
  let compactedFrom ← (← field "compacted_from" v) |> asList asUuid
  let level ← (← field "level" v) |> asNat
  let path ← (← field "path" v) |> asString
  let sizeBytes ← (← field "size_bytes" v) |> asNat
  let rowCount ← (← field "row_count" v) |> asNat
  let minSortKey ← (← field "min_sort_key" v) |> asList asOctet
  let maxSortKey ← (← field "max_sort_key" v) |> asList asOctet
  some { id, sequenceNum, generation, compactedFrom, level, path,
         sizeBytes, rowCount, minSortKey, maxSortKey }

theorem sstFromJson_sstToJson (s : SstRef) : sstFromJson (sstToJson s) = some s := by
  have uuids := asList_ofList asUuid_ofUuid s.compactedFrom
  have minKey := asList_ofList asOctet_ofOctet s.minSortKey
  have maxKey := asList_ofList asOctet_ofOctet s.maxSortKey
  simp [sstFromJson, sstToJson, field_record, List.lookup, uuids, minKey, maxKey]

def tag (name : String) (fields : List (String × Json)) : Json :=
  record (("type", ofString name) :: fields)

def eventToJson : ManifestEvent → Json
  | .add sst => tag "ADD" [("sst", sstToJson sst)]
  | .remove id level => tag "REMOVE" [("id", ofUuid id), ("level", ofNat level)]
  | .compactionBegin cid inputIds outputLevel =>
    tag "COMPACTION_BEGIN" [("compaction_id", ofUuid cid),
      ("input_ids", ofList ofUuid inputIds), ("output_level", ofNat outputLevel)]
  | .compactionEnd cid outputIds =>
    tag "COMPACTION_END" [("compaction_id", ofUuid cid), ("output_ids", ofList ofUuid outputIds)]

def eventFromJson (v : Json) : Option ManifestEvent := do
  let kind ← (← field "type" v) |> asString
  if kind = "ADD" then
    (← field "sst" v) |> sstFromJson |>.map .add
  else if kind = "REMOVE" then
    let id ← (← field "id" v) |> asUuid
    let level ← (← field "level" v) |> asNat
    some (.remove id level)
  else if kind = "COMPACTION_BEGIN" then
    let cid ← (← field "compaction_id" v) |> asUuid
    let inputIds ← (← field "input_ids" v) |> asList asUuid
    let outputLevel ← (← field "output_level" v) |> asNat
    some (.compactionBegin cid inputIds outputLevel)
  else if kind = "COMPACTION_END" then
    let cid ← (← field "compaction_id" v) |> asUuid
    let outputIds ← (← field "output_ids" v) |> asList asUuid
    some (.compactionEnd cid outputIds)
  else none

theorem eventFromJson_eventToJson (e : ManifestEvent) : eventFromJson (eventToJson e) = some e := by
  cases e with
  | add sst =>
    have inverse := sstFromJson_sstToJson sst
    simp [eventFromJson, eventToJson, tag, field_record, List.lookup, inverse]
  | remove id level => simp [eventFromJson, eventToJson, tag, field_record, List.lookup]
  | compactionBegin cid inputIds outputLevel =>
    have uuids := asList_ofList asUuid_ofUuid inputIds
    simp [eventFromJson, eventToJson, tag, field_record, List.lookup, uuids]
  | compactionEnd cid outputIds =>
    have uuids := asList_ofList asUuid_ofUuid outputIds
    simp [eventFromJson, eventToJson, tag, field_record, List.lookup, uuids]

theorem printFields_last (fields : List (List Char × Json)) :
    ∃ body, printFields fields = body ++ ['}'] := by
  induction fields with
  | nil => exact ⟨[], rfl⟩
  | cons f rest ih =>
    obtain ⟨k, v⟩ := f
    obtain ⟨body, printed⟩ := ih
    refine ⟨',' :: (quote k ++ ':' :: (print v ++ body)), ?_⟩
    simp [printFields, printed]

theorem print_tag (name : String) (fields : List (String × Json)) :
    ∃ body, print (tag name fields) = '{' :: (body ++ ['}']) := by
  obtain ⟨body, printed⟩ := printFields_last (fields.map fun f => (f.1.toList, f.2))
  refine ⟨quote "type".toList ++ ':' :: (print (ofString name) ++ body), ?_⟩
  simp [tag, record, print, printed]

def jsonCodec : EventCodec where
  toString e := print (eventToJson e)
  fromStr text := (parse text).bind eventFromJson
  fromStr_toString e := by
    rw [parse_print, Option.bind_some, eventFromJson_eventToJson]
  toString_object e := by
    cases e with
    | add sst => exact print_tag "ADD" _
    | remove id level => exact print_tag "REMOVE" _
    | compactionBegin cid inputIds outputLevel => exact print_tag "COMPACTION_BEGIN" _
    | compactionEnd cid outputIds => exact print_tag "COMPACTION_END" _
  toString_printable e := print_printable (eventToJson e)

end WowDb.Storage.ManifestJson

namespace WowDb.Storage.Manifest
open WowDb.Lib List

variable (C : EventCodec)

def replayEvents (m : Manifest) (events : List ManifestEvent) : Manifest :=
  events.foldl applyEvent m

def eventLines (events : List ManifestEvent) : Bytes := events.flatMap (eventLine C)

theorem newline_not_mem_line (e : ManifestEvent) : (10 : UInt8) ∉ Text.encode (C.toString e) := by
  intro member
  obtain ⟨c, inText, value⟩ := Text.exists_char_of_ascii_mem member (by decide)
  have printable := C.toString_printable e c inText
  have code : c.toNat = 10 := by simpa using value
  omega

theorem trim_line (e : ManifestEvent) : Text.trim (C.toString e) = C.toString e := by
  obtain ⟨body, object⟩ := C.toString_object e
  rw [object]
  exact Text.trim_of_ends (by decide) (by decide)

variable (m : Manifest)

theorem replayLines_line (e : ManifestEvent) (rest : List Bytes) :
    replayLines C m (Text.encode (C.toString e) :: rest) = replayLines C (m.applyEvent e) rest := by
  have nonempty : C.toString e ≠ [] := by
    obtain ⟨body, object⟩ := C.toString_object e
    simp [object]
  simp only [replayLines, Text.decode_encode, trim_line, nonempty, if_false, C.fromStr_toString]

theorem replayLines_append (events : List ManifestEvent) (rest : Bytes) :
    replayLines C m (Text.lines (eventLines C events ++ rest)) =
      replayLines C (replayEvents m events) (Text.lines rest) := by
  induction events generalizing m with
  | nil => rfl
  | cons e later ih =>
    have first : Text.lines (eventLines C (e :: later) ++ rest) =
        Text.encode (C.toString e) :: Text.lines (eventLines C later ++ rest) := by
      simp only [eventLines, flatMap_cons, eventLine, append_assoc, singleton_append]
      exact Text.lines_append_newline (newline_not_mem_line C e) _
    rw [first, replayLines_line, ih]
    rfl

theorem replayLines_eventLines (events : List ManifestEvent) :
    replayLines C m (Text.lines (eventLines C events)) = some (replayEvents m events) := by
  have whole := replayLines_append C m events []
  rw [append_nil] at whole
  rw [whole]
  rfl

theorem recover_eventLines (events : List ManifestEvent) :
    recover C (eventLines C events) = some (replayEvents empty events) :=
  replayLines_eventLines C empty events

inductive Call where
  | addSst (io : AppendIo) (sst : SstRef)
  | removeSst (io : AppendIo) (id : Uuid) (level : Nat)
  | beginCompaction (io : AppendIo) (cid : Uuid) (inputIds : List Uuid) (outputLevel : Nat)
  | completeCompaction (io : CompleteIo) (cid : Uuid) (outputIds removedIds : List Uuid)
      (addedSsts : List SstRef)
  deriving DecidableEq

def call (s : ManifestState) : Call → ManifestState × Bool
  | .addSst io sst => addSst C io sst s
  | .removeSst io id level => removeSst C io id level s
  | .beginCompaction io cid inputIds outputLevel => beginCompaction C io cid inputIds outputLevel s
  | .completeCompaction io cid outputIds removedIds addedSsts =>
    completeCompaction C io cid outputIds removedIds addedSsts s

def okStep (s : ManifestState) (c : Call) : Option ManifestState :=
  match call C s c with
  | (t, true) => some t
  | (_, false) => none

def fresh : ManifestState := ⟨empty, none⟩

def SameView (a b : Manifest) : Prop :=
  (∀ sst, sst ∈ a.activeSstables ↔ sst ∈ b.activeSstables) ∧
    ∀ id, id ∈ a.pendingCompactionIds ↔ id ∈ b.pendingCompactionIds

def Faithful (s : ManifestState) : Prop :=
  ∃ m, openFile C s.file = some m ∧ SameView m s.manifest

/-- Memory and log agree at `complete_compaction`. -/
def Recoverable (s : ManifestState) : Call → Prop
  | .completeCompaction io cid outputIds removedIds addedSsts =>
    let logged := (appendEvent C .succeeds (.compactionEnd cid outputIds) s.file).1
    if shouldRewrite io.metadata logged then ∀ id ∈ s.manifest.pendingCompactionIds, id = cid
    else (∀ sst ∈ s.manifest.activeSstables, sst.id ∈ removedIds → sst ∈ addedSsts) ∧
      ∀ sst ∈ addedSsts, sst ∈ s.manifest.activeSstables
  | _ => True

def Logged (file : Option Bytes) (events : List ManifestEvent) : Prop :=
  file.getD [] = eventLines C events

variable {file : Option Bytes} {events : List ManifestEvent}

theorem openFile_of_logged (logged : Logged C file events) :
    openFile C file = some (replayEvents empty events) := by
  have reopened : openFile C file = recover C (file.getD []) := by
    cases file <;> rfl
  rw [reopened, logged, recover_eventLines]

theorem logged_append (e : ManifestEvent) (logged : Logged C file events) :
    Logged C (appendEvent C .succeeds e file).1 (events ++ [e]) := by
  simp only [Logged, appendEvent, Option.getD_some] at logged ⊢
  rw [logged]
  simp [eventLines]

theorem appendEvent_ok {io : AppendIo} {e : ManifestEvent} {after : Option Bytes}
    (ok : appendEvent C io e file = (after, true)) :
    after = (appendEvent C .succeeds e file).1 := by
  cases io with
  | succeeds =>
    rw [ok]
  | openFails => simp [appendEvent] at ok
  | writeFails written => simp [appendEvent] at ok

theorem mem_foldl_retain (ids : List Uuid) (active : List SstRef) (sst : SstRef) :
    sst ∈ ids.foldl (fun active id => active.filter fun t => t.id ≠ id) active ↔
      sst ∈ active ∧ sst.id ∉ ids := by
  induction ids generalizing active with
  | nil => simp
  | cons id rest ih =>
    rw [foldl_cons, ih]
    simp [not_or, and_assoc]

theorem mem_pendingIds_filter (cid id : Uuid) :
    id ∈ (m.pendingCompactions.filter fun p => p.id ≠ cid).map (·.id) ↔
      id ∈ m.pendingCompactionIds ∧ id ≠ cid := by
  simp only [pendingCompactionIds, mem_map, mem_filter, decide_eq_true_eq]
  constructor
  · rintro ⟨p, ⟨member, different⟩, rfl⟩
    exact ⟨⟨p, member, rfl⟩, different⟩
  · rintro ⟨⟨p, member, rfl⟩, different⟩
    exact ⟨p, ⟨member, different⟩, rfl⟩

def memoryEffect (m : Manifest) : Call → Manifest
  | .addSst _ sst => m.applyEvent (.add sst)
  | .removeSst _ id level => m.applyEvent (.remove id level)
  | .beginCompaction _ cid inputIds outputLevel =>
    m.applyEvent (.compactionBegin cid inputIds outputLevel)
  | .completeCompaction _ cid _ removedIds addedSsts => completed m cid removedIds addedSsts

def loggedEvent : Call → ManifestEvent
  | .addSst _ sst => .add sst
  | .removeSst _ id level => .remove id level
  | .beginCompaction _ cid inputIds outputLevel => .compactionBegin cid inputIds outputLevel
  | .completeCompaction _ cid outputIds _ _ => .compactionEnd cid outputIds

def rewrites (s : ManifestState) : Call → Bool
  | .completeCompaction io cid outputIds _ _ =>
    shouldRewrite io.metadata (appendEvent C .succeeds (.compactionEnd cid outputIds) s.file).1
  | _ => false

variable {s t : ManifestState}

variable {c : Call}

theorem okStep_effect (ok : okStep C s c = some t) :
    t.manifest = memoryEffect s.manifest c ∧
      t.file = if rewrites C s c then some (snapshotLines C t.manifest)
        else (appendEvent C .succeeds (loggedEvent c) s.file).1 := by
  cases c with
  | addSst io sst =>
    cases appended : appendEvent C io (.add sst) s.file with
    | mk file result =>
      cases result <;> simp only [okStep, call, addSst, appended, reduceCtorEq] at ok
      cases ok
      exact ⟨rfl, appendEvent_ok C appended⟩
  | removeSst io id level =>
    cases appended : appendEvent C io (.remove id level) s.file with
    | mk file result =>
      cases result <;> simp only [okStep, call, removeSst, appended, reduceCtorEq] at ok
      cases ok
      exact ⟨rfl, appendEvent_ok C appended⟩
  | beginCompaction io cid inputIds outputLevel =>
    cases appended : appendEvent C io (.compactionBegin cid inputIds outputLevel) s.file with
    | mk file result =>
      cases result <;> simp only [okStep, call, beginCompaction, appended, reduceCtorEq] at ok
      cases ok
      exact ⟨rfl, appendEvent_ok C appended⟩
  | completeCompaction io cid outputIds removedIds addedSsts =>
    cases appended : appendEvent C io.append (.compactionEnd cid outputIds) s.file with
    | mk file result =>
      cases result <;> simp only [okStep, call, completeCompaction, appended, reduceCtorEq] at ok
      have written := appendEvent_ok C appended
      simp only [rewrites, loggedEvent, ← written]
      by_cases long : shouldRewrite io.metadata file = true
      · cases renamed : io.rewrite <;>
          simp only [long, renamed, if_true, Bool.false_eq_true, if_false, reduceCtorEq] at ok
        cases ok
        exact ⟨rfl, by rw [if_pos long]⟩
      · simp only [long, Bool.false_eq_true, if_false] at ok
        cases ok
        exact ⟨rfl, by rw [if_neg long]⟩

theorem replayEvents_append_one (events : List ManifestEvent) (e : ManifestEvent) :
    replayEvents m (events ++ [e]) = (replayEvents m events).applyEvent e := by
  simp [replayEvents]

theorem replayEvents_adds (ssts : List SstRef) :
    replayEvents m (ssts.map .add) = { m with active := m.active ++ ssts } := by
  induction ssts generalizing m with
  | nil => simp [replayEvents]
  | cons sst rest ih =>
    have tail := ih (m.applyEvent (.add sst))
    simp only [replayEvents, map_cons, foldl_cons] at tail ⊢
    rw [tail]
    simp [applyEvent]

theorem okStep_logged (logged : Logged C s.file events) (ok : okStep C s c = some t) :
    ∃ after, Logged C t.file after ∧ replayEvents empty after =
      if rewrites C s c then ⟨t.manifest.active, []⟩
      else (replayEvents empty events).applyEvent (loggedEvent c) := by
  obtain ⟨-, file⟩ := okStep_effect C ok
  by_cases long : rewrites C s c = true
  · rw [if_pos long] at file ⊢
    refine ⟨t.manifest.active.map .add, ?_, ?_⟩
    · simp [Logged, file, snapshotLines, eventLines, flatMap_map]
    · simp [replayEvents_adds, empty]
  · rw [if_neg long] at file ⊢
    refine ⟨events ++ [loggedEvent c], ?_, replayEvents_append_one empty events _⟩
    rw [file]
    exact logged_append C (loggedEvent c) logged

theorem sameView_applyEvent {a b : Manifest} (e : ManifestEvent) (same : SameView a b) :
    SameView (a.applyEvent e) (b.applyEvent e) := by
  obtain ⟨active, pending⟩ := same
  simp only [activeSstables] at active
  cases e with
  | add sst =>
    refine ⟨fun x => ?_, pending⟩
    simp only [activeSstables, applyEvent, mem_append, active]
  | remove id level =>
    refine ⟨fun x => ?_, pending⟩
    simp only [activeSstables, applyEvent, mem_filter, active]
  | compactionBegin cid inputIds outputLevel =>
    refine ⟨active, fun id => ?_⟩
    simp only [pendingCompactionIds, applyEvent, map_append, mem_append] at pending ⊢
    rw [pending]
  | compactionEnd cid outputIds =>
    refine ⟨active, fun id => ?_⟩
    simp only [pendingCompactionIds, applyEvent]
    rw [mem_pendingIds_filter, mem_pendingIds_filter, pending]

theorem sameView_completed_iff {a b : Manifest} (same : SameView a b) (cid : Uuid)
    (outputIds removedIds : List Uuid) (addedSsts : List SstRef) :
    SameView (a.applyEvent (.compactionEnd cid outputIds)) (b.completed cid removedIds addedSsts) ↔
      (∀ sst ∈ b.activeSstables, sst.id ∈ removedIds → sst ∈ addedSsts) ∧
        ∀ sst ∈ addedSsts, sst ∈ b.activeSstables := by
  have pending : ∀ id, id ∈ (a.applyEvent (.compactionEnd cid outputIds)).pendingCompactionIds ↔
      id ∈ (b.completed cid removedIds addedSsts).pendingCompactionIds :=
    (sameView_applyEvent (.compactionEnd cid outputIds) same).2
  have before := same.1
  rw [SameView, and_iff_left pending]
  simp only [activeSstables] at before
  simp only [activeSstables, applyEvent, before, completed, mem_append, mem_foldl_retain]
  constructor
  · intro equal
    refine ⟨fun sst active removed => ?_, fun sst added => (equal sst).mpr (Or.inr added)⟩
    rcases (equal sst).mp active with ⟨-, kept⟩ | added
    · exact absurd removed kept
    · exact added
  · rintro ⟨replaced, known⟩ sst
    constructor
    · intro active
      by_cases removed : sst.id ∈ removedIds
      · exact Or.inr (replaced sst active removed)
      · exact Or.inl ⟨active, removed⟩
    · rintro (⟨active, -⟩ | added)
      · exact active
      · exact known sst added

theorem sameView_snapshot_iff (cid : Uuid) (removedIds : List Uuid) (addedSsts : List SstRef) :
    SameView ⟨(m.completed cid removedIds addedSsts).active, []⟩
        (m.completed cid removedIds addedSsts) ↔ ∀ id ∈ m.pendingCompactionIds, id = cid := by
  have remaining : ∀ id, id ∈ (m.completed cid removedIds addedSsts).pendingCompactionIds ↔
      id ∈ m.pendingCompactionIds ∧ id ≠ cid := mem_pendingIds_filter m cid
  simp only [SameView, activeSstables, iff_self, implies_true, true_and, remaining]
  simp [pendingCompactionIds, not_and]

theorem okStep_faithful_iff (logged : Logged C s.file events) (faithful : Faithful C s)
    (ok : okStep C s c = some t) : Faithful C t ↔ Recoverable C s c := by
  have same : SameView (replayEvents empty events) s.manifest := by
    obtain ⟨m, reopened, view⟩ := faithful
    rw [openFile_of_logged C logged] at reopened
    cases reopened
    exact view
  obtain ⟨after, loggedAfter, replayed⟩ := okStep_logged C logged ok
  obtain ⟨memory, -⟩ := okStep_effect C ok
  have reduced : Faithful C t ↔ SameView (replayEvents empty after) t.manifest := by
    simp [Faithful, openFile_of_logged C loggedAfter]
  rw [reduced, replayed, memory]
  cases c with
  | addSst io sst =>
    exact iff_of_true (sameView_applyEvent (.add sst) same) trivial
  | removeSst io id level =>
    exact iff_of_true (sameView_applyEvent (.remove id level) same) trivial
  | beginCompaction io cid inputIds outputLevel =>
    exact iff_of_true (sameView_applyEvent (.compactionBegin cid inputIds outputLevel) same) trivial
  | completeCompaction io cid outputIds removedIds addedSsts =>
    by_cases long : shouldRewrite io.metadata
        (appendEvent C .succeeds (.compactionEnd cid outputIds) s.file).1 = true
    · have rewritten : rewrites C s (.completeCompaction io cid outputIds removedIds addedSsts) =
        true := long
      rw [if_pos rewritten]
      simp only [Recoverable, if_pos long]
      exact sameView_snapshot_iff s.manifest cid removedIds addedSsts
    · have kept : ¬ rewrites C s (.completeCompaction io cid outputIds removedIds addedSsts) =
        true := long
      rw [if_neg kept]
      simp only [Recoverable, if_neg long]
      exact sameView_completed_iff same cid outputIds removedIds addedSsts

def Inv (s : ManifestState) : Prop := ∃ events, Logged C s.file events

/-- Exactly when each completion is recoverable. -/
theorem recovery_faithful_iff (calls : List Call) :
    Run.EveryState (okStep C) (Faithful C) fresh calls ↔
      Run.EveryStep (okStep C) (Recoverable C) fresh calls := by
  apply Run.everyState_iff_everyStep (Inv C)
  · intro s c t inv _ ok
    obtain ⟨events, logged⟩ := inv
    obtain ⟨after, loggedAfter, -⟩ := okStep_logged C logged ok
    exact ⟨after, loggedAfter⟩
  · intro s c t inv _ faithful ok
    obtain ⟨events, logged⟩ := inv
    exact okStep_faithful_iff C logged faithful ok
  · exact ⟨[], rfl⟩
  · exact ⟨empty, rfl, fun _ => Iff.rfl, fun _ => Iff.rfl⟩
  · exact Run.everyStep_of_forall (fun _ _ => trivial) fresh calls

def Call.succeeds : Call → Bool
  | .addSst io _ => io = .succeeds
  | .removeSst io _ _ => io = .succeeds
  | .beginCompaction io _ _ _ => io = .succeeds
  | .completeCompaction io _ _ _ _ => io = ⟨.succeeds, true, true⟩

theorem okStep_of_succeeds (io : c.succeeds = true) (short : rewrites C s c = false) :
    okStep C s c =
      some ⟨memoryEffect s.manifest c, (appendEvent C .succeeds (loggedEvent c) s.file).1⟩ := by
  cases c with
  | completeCompaction io' cid outputIds removedIds addedSsts =>
    cases of_decide_eq_true io
    simp only [rewrites, appendEvent] at short
    simp [okStep, call, completeCompaction, appendEvent, short, memoryEffect, loggedEvent]
  | _ =>
    cases of_decide_eq_true io
    rfl

theorem completed_compaction_not_recovered :
    let input : SstRef := ⟨1, 1, 0, [], 0, "seg-1.col", 1024, 100, [0], [255]⟩
    let output : SstRef := ⟨2, 1, 1, [1], 1, "seg-2.col", 1024, 100, [0], [255]⟩
    let calls : List Call := [.addSst .succeeds input, .beginCompaction .succeeds 3 [1] 1,
      .completeCompaction ⟨.succeeds, true, true⟩ 3 [2] [1] [output]]
    ∃ t m, Run.exec (okStep ManifestJson.jsonCodec) fresh calls = some t ∧
      openFile ManifestJson.jsonCodec t.file = some m ∧
      t.manifest.activeSstables = [output] ∧ m.activeSstables = [input] := by
  intro input output calls
  have run : Run.exec (okStep ManifestJson.jsonCodec) fresh calls =
      some ⟨⟨[output], []⟩, some (eventLines ManifestJson.jsonCodec (calls.map loggedEvent))⟩ := by
    rw [Run.exec, okStep_of_succeeds _ rfl rfl, Option.bind_some, Run.exec,
      okStep_of_succeeds _ rfl rfl, Option.bind_some, Run.exec,
      okStep_of_succeeds _ rfl (by decide +kernel), Option.bind_some, Run.exec]
    refine congrArg some (congrArg₂ ManifestState.mk rfl (congrArg some ?_))
    simp [calls, eventLines, fresh, appendEvent]
  exact ⟨_, replayEvents empty (calls.map loggedEvent), run,
    openFile_of_logged ManifestJson.jsonCodec rfl, rfl, rfl⟩

end WowDb.Storage.Manifest

namespace WowDb.Storage

structure TornCodec extends EventCodec where
  torn_refused : ∀ e front, front <+: toString e → front ≠ [] → front ≠ toString e →
    fromStr front = none
  joined_refused : ∀ e f front, front <+: toString e → front ≠ [] →
    fromStr (front ++ toString f) = none

namespace ManifestJson
open WowDb.Lib WowDb.Lib.Json

theorem print_event (e : ManifestEvent) : ∃ v fields tail,
    eventToJson e = .obj (("type".toList, v) :: fields) ∧
      print (eventToJson e) = '{' :: '"' :: 't' :: tail := by
  cases e <;> exact ⟨_, _, _, rfl, rfl⟩

def jsonTornCodec : TornCodec where
  toEventCodec := jsonCodec
  torn_refused e front part nonempty proper := by
    obtain ⟨v, fields, -, object, -⟩ := print_event e
    have refused : parse front = none := by
      simp only [jsonCodec, object] at part proper
      exact parse_front part nonempty proper
    simp only [jsonCodec, refused, Option.bind_none]
  joined_refused e f front part nonempty := by
    obtain ⟨v, fields, -, object, -⟩ := print_event e
    obtain ⟨-, -, tail, -, text⟩ := print_event f
    have refused : parse (front ++ print (eventToJson f)) = none := by
      simp only [jsonCodec, object] at part
      exact parse_joined part nonempty text fun _ => rfl
    simp only [jsonCodec, refused, Option.bind_none]

end ManifestJson

namespace Manifest
open WowDb.Lib

variable (C : EventCodec)

def appendAll (file : Option Bytes) (events : List ManifestEvent) : Option Bytes :=
  events.foldl (fun file e => (appendEvent C .succeeds e file).1) file

def tornFile (before : List ManifestEvent) (e : ManifestEvent) (written : Nat) : Option Bytes :=
  (appendEvent C (.writeFails written) e (appendAll C none before)).1

/-- Every added SSTable is active after the reopens. -/
def SurvivesTear (before : List ManifestEvent) (e : ManifestEvent) (written : Nat)
    (after : List ManifestEvent) : Prop :=
  ∃ m m', openFile C (tornFile C before e written) = some m ∧
    openFile C (appendAll C (tornFile C before e written) after) = some m' ∧
    ∀ sst ∈ (replayEvents empty (before ++ after)).activeSstables, sst ∈ m'.activeSstables

/-- What is left of the line changes nothing. -/
def HarmlessTear (before : List ManifestEvent) (e : ManifestEvent) (written : Nat)
    (after : List ManifestEvent) : Prop :=
  let reached := (replayEvents empty before).activeSstables
  written = 0 ∨ (Text.decode ((eventLine C e).take written)).isSome ∧
    if after = [] then written + 1 = (eventLine C e).length →
      ∀ sst ∈ reached, sst ∈ ((replayEvents empty before).applyEvent e).activeSstables
    else ∀ sst ∈ (replayEvents empty (before ++ after)).activeSstables, sst ∈ reached

theorem appendAll_getD (file : Option Bytes) (events : List ManifestEvent) :
    (appendAll C file events).getD [] = file.getD [] ++ eventLines C events := by
  induction events generalizing file with
  | nil => simp [appendAll, eventLines]
  | cons e rest ih =>
    have tail := ih (some (file.getD [] ++ eventLine C e))
    simp only [appendAll, List.foldl_cons, appendEvent] at tail ⊢
    rw [tail]
    simp [eventLines]

theorem openFile_eq_recover (file : Option Bytes) : openFile C file = recover C (file.getD []) := by
  cases file <;> rfl

theorem openFile_tornFile (before : List ManifestEvent) (e : ManifestEvent) (written : Nat)
    (after : List ManifestEvent) :
    openFile C (appendAll C (tornFile C before e written) after) =
      replayLines C (replayEvents empty before)
        (Text.lines ((eventLine C e).take written ++ eventLines C after)) := by
  rw [openFile_eq_recover, appendAll_getD, recover, ← replayLines_append]
  simp only [tornFile, appendEvent, Option.getD_some, appendAll_getD, Option.getD_none,
    List.nil_append, List.append_assoc]

section Torn

variable {C : TornCodec} {e : ManifestEvent} {written : Nat}

variable (torn : written < (eventLine C.toEventCodec e).length)

include torn

theorem take_eventLine :
    (eventLine C.toEventCodec e).take written = (Text.encode (C.toString e)).take written := by
  rw [eventLine, List.length_append, List.length_singleton] at torn
  rw [eventLine, List.take_append_of_le_length (by omega)]

theorem newline_notMem_take : (10 : UInt8) ∉ (eventLine C.toEventCodec e).take written := by
  rw [take_eventLine torn]
  exact fun member => newline_not_mem_line C.toEventCodec e (List.mem_of_mem_take member)

theorem take_ne_nil (nonzero : written ≠ 0) : (eventLine C.toEventCodec e).take written ≠ [] := by
  rw [← List.length_pos_iff, List.length_take]
  omega

omit torn

variable {text : List Char}

theorem front_of_decode (torn : written < (eventLine C.toEventCodec e).length)
    (nonzero : written ≠ 0)
    (decoded : Text.decode ((eventLine C.toEventCodec e).take written) = some text) :
    text <+: C.toString e ∧ ∃ rest, text = '{' :: rest := by
  have encoded := Text.encode_of_decode decoded
  have nonempty : text ≠ [] := by
    rintro rfl
    exact take_ne_nil torn nonzero encoded.symm
  rw [take_eventLine torn] at encoded
  have split : Text.encode (C.toString e) =
      Text.encode text ++ (Text.encode (C.toString e)).drop written := by
    rw [encoded, List.take_append_drop]
  have front := Text.prefix_of_encode split
  refine ⟨front, ?_⟩
  obtain ⟨body, object⟩ := C.toString_object e
  rw [object] at front
  cases text with
  | nil => exact absurd rfl nonempty
  | cons c rest => exact ⟨rest, by rw [(List.cons_prefix_cons.mp front).1]⟩

include torn

theorem replayLines_torn (nonzero : written ≠ 0)
    (decoded : Text.decode ((eventLine C.toEventCodec e).take written) = some text) (m : Manifest) :
    replayLines C.toEventCodec m (Text.lines ((eventLine C.toEventCodec e).take written)) =
      if text = C.toString e then some (m.applyEvent e) else some m := by
  obtain ⟨front, rest, start⟩ := front_of_decode torn nonzero decoded
  obtain ⟨shorter, kept⟩ := @Text.trim_front '{' rest (by decide)
  rw [← start] at shorter kept
  rw [Text.lines_of_notMem (newline_notMem_take torn) (take_ne_nil torn nonzero)]
  simp only [replayLines, decoded, kept, if_false]
  by_cases whole : text = C.toString e
  · rw [if_pos whole, whole, trim_line, C.fromStr_toString]
  · have proper : Text.trim text ≠ C.toString e := fun same =>
      whole (front.eq_of_length_le (same ▸ shorter.length_le))
    rw [if_neg whole, C.torn_refused e _ (shorter.trans front) kept proper]

theorem replayLines_joined (nonzero : written ≠ 0)
    (decoded : Text.decode ((eventLine C.toEventCodec e).take written) = some text) (m : Manifest)
    (f : ManifestEvent) (later : List ManifestEvent) :
    replayLines C.toEventCodec m (Text.lines ((eventLine C.toEventCodec e).take written ++
      eventLines C.toEventCodec (f :: later))) = some m := by
  obtain ⟨front, rest, start⟩ := front_of_decode torn nonzero decoded
  obtain ⟨body, object⟩ := C.toString_object f
  have line : Text.lines ((eventLine C.toEventCodec e).take written ++
      eventLines C.toEventCodec (f :: later)) =
      Text.encode (text ++ C.toString f) :: Text.lines (eventLines C.toEventCodec later) := by
    have clean : (10 : UInt8) ∉ Text.encode (text ++ C.toString f) := by
      rw [Text.encode_append, Text.encode_of_decode decoded, List.mem_append, not_or]
      exact ⟨newline_notMem_take torn, newline_not_mem_line C.toEventCodec f⟩
    rw [← Text.lines_append_newline clean, Text.encode_append, Text.encode_of_decode decoded]
    simp [eventLines, eventLine]
  have trimmed : Text.trim (text ++ C.toString f) = text ++ C.toString f := by
    have ends : text ++ C.toString f = '{' :: ((rest ++ '{' :: body) ++ ['}']) := by
      simp [start, object]
    rw [ends]
    exact Text.trim_of_ends (by decide) (by decide)
  have nonempty : text ≠ [] := by simp [start]
  rw [line]
  simp only [replayLines, Text.decode_encode, trimmed, List.append_eq_nil_iff, nonempty, false_and,
    if_false, C.joined_refused e f text front nonempty]

theorem whole_iff (decoded : Text.decode ((eventLine C.toEventCodec e).take written) = some text) :
    text = C.toString e ↔ written + 1 = (eventLine C.toEventCodec e).length := by
  have encoded := Text.encode_of_decode decoded
  have size : (Text.encode text).length = written := by
    rw [encoded, List.length_take, Nat.min_eq_left torn.le]
  rw [take_eventLine torn] at encoded
  have line : (eventLine C.toEventCodec e).length = (Text.encode (C.toString e)).length + 1 := by
    rw [eventLine, List.length_append, List.length_singleton]
  constructor
  · rintro rfl
    rw [line, size]
  · intro last
    have same : Text.encode text = Text.encode (C.toString e) := by
      rw [encoded, List.take_of_length_le (by omega)]
    have texts := congrArg Text.decode same
    rw [Text.decode_encode, Text.decode_encode] at texts
    exact Option.some.inj texts

omit torn

variable (C e) (before after : List ManifestEvent)

theorem openFile_untorn :
    openFile C.toEventCodec (appendAll C.toEventCodec (tornFile C.toEventCodec before e 0) after) =
      some (replayEvents empty (before ++ after)) := by
  rw [openFile_tornFile, List.take_zero, List.nil_append, replayLines_eventLines, replayEvents,
    replayEvents, replayEvents, List.foldl_append]

/-- Nothing is lost exactly when the tear is harmless. -/
theorem survives_tear_iff (torn : written < (eventLine C.toEventCodec e).length) :
    SurvivesTear C.toEventCodec before e written after ↔
      HarmlessTear C.toEventCodec before e written after := by
  have reopened : openFile C.toEventCodec (tornFile C.toEventCodec before e written) = _ :=
    openFile_tornFile C.toEventCodec before e written []
  have reopenedLater := openFile_tornFile C.toEventCodec before e written after
  simp only [eventLines, List.flatMap_nil, List.append_nil] at reopened
  unfold SurvivesTear HarmlessTear
  by_cases nonzero : written = 0
  · subst nonzero
    refine iff_of_true ⟨_, _, openFile_untorn C e before [], openFile_untorn C e before after, ?_⟩
      (.inl rfl)
    exact fun sst active => active
  · cases decoded : Text.decode ((eventLine C.toEventCodec e).take written) with
    | none =>
      -- the reopen fails at the broken character
      rw [Text.lines_of_notMem (newline_notMem_take torn) (take_ne_nil torn nonzero)] at reopened
      simp only [replayLines, decoded] at reopened
      simp [reopened, nonzero]
    | some text =>
      rw [replayLines_torn torn nonzero decoded] at reopened
      have opens : ∃ m, openFile C.toEventCodec (tornFile C.toEventCodec before e written) =
          some m := by
        rw [reopened]
        split
        · exact ⟨_, rfl⟩
        · exact ⟨_, rfl⟩
      simp only [nonzero, false_or, Option.isSome_some, true_and]
      cases after with
      | nil =>
        have again : openFile C.toEventCodec
            (appendAll C.toEventCodec (tornFile C.toEventCodec before e written) []) = _ := reopened
        simp only [again, List.append_nil, if_true, whole_iff torn decoded]
        by_cases last : written + 1 = (eventLine C.toEventCodec e).length
        · simp [last, opens]
        · simp [last, opens]
      | cons f later =>
        rw [replayLines_joined torn nonzero decoded] at reopenedLater
        simp only [reopenedLater, reduceCtorEq, if_false]
        constructor
        · rintro ⟨m, _, -, ⟨⟩, kept⟩
          exact kept
        · intro kept
          obtain ⟨m, opened⟩ := opens
          exact ⟨m, _, opened, rfl, kept⟩

end Torn

def sstNumbered (n : Nat) : SstRef :=
  ⟨BitVec.ofNat 128 n, n, 0, [], 0, "seg-1.col", 1024, 100, [0], [255]⟩

theorem survives_torn_add :
    SurvivesTear ManifestJson.jsonCodec [.add (sstNumbered 1)] (.add (sstNumbered 2)) 3 [] :=
  (survives_tear_iff ManifestJson.jsonTornCodec (.add (sstNumbered 2)) [.add (sstNumbered 1)] []
    (by decide +kernel)).mpr
    (.inr ⟨by decide +kernel, fun last => absurd last (by decide +kernel)⟩)

theorem added_behind_tear_lost :
    let torn := tornFile ManifestJson.jsonCodec [.add (sstNumbered 1)] (.add (sstNumbered 2)) 10
    ∃ file, openFile ManifestJson.jsonCodec torn = some ⟨[sstNumbered 1], []⟩ ∧
      appendEvent ManifestJson.jsonCodec .succeeds (.add (sstNumbered 3)) torn = (file, true) ∧
      openFile ManifestJson.jsonCodec file = some ⟨[sstNumbered 1], []⟩ := by
  intro torn
  have cut : 10 < (eventLine ManifestJson.jsonTornCodec.toEventCodec
      (.add (sstNumbered 2))).length := by decide +kernel
  have decoded : Text.decode ((eventLine ManifestJson.jsonTornCodec.toEventCodec
      (.add (sstNumbered 2))).take 10) = some "\x7b\"type\":\"A".toList := by decide +kernel
  have short : "\x7b\"type\":\"A".toList ≠
      ManifestJson.jsonTornCodec.toString (.add (sstNumbered 2)) := by decide +kernel
  refine ⟨_, ?_, rfl, ?_⟩
  · have reopened := openFile_tornFile ManifestJson.jsonCodec [.add (sstNumbered 1)]
      (.add (sstNumbered 2)) 10 []
    rw [eventLines, List.flatMap_nil, List.append_nil] at reopened
    exact reopened.trans ((replayLines_torn cut (by decide) decoded _).trans (if_neg short))
  · exact (openFile_tornFile ManifestJson.jsonCodec [.add (sstNumbered 1)]
      (.add (sstNumbered 2)) 10 [.add (sstNumbered 3)]).trans
      (replayLines_joined cut (by decide) decoded _ _ [])

end Manifest
end WowDb.Storage
