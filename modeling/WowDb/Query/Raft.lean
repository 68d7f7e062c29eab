import WowDb.Lib.OrdMap
import WowDb.Lib.Serde

/-!
# Metadata state machine and its snapshot

`query-node/src/raft/mod.rs`.
-/
namespace WowDb.Query
open WowDb.Lib

inductive RaftCommand where
  | upsertCube (cubeId schemaJson : String)
  | dropCube (cubeId : String)
  | registerTablet (tabletId : String) (nodeId : UInt64) (partition : String)
  | updateStats (cubeId statsJson : String)
  | sessionSet (key value : String)
  | sessionDel (key : String)
  | upsertKv (key value : String)
  | deleteKv (key : String)
  deriving DecidableEq

structure MetaStateMachine where
  kv : OrdMap String String

structure SnapshotCodec where
  toString : OrdMap String String → List Char
  fromStr : List Char → Option (OrdMap String String)
  fromStr_toString : ∀ kv, fromStr (toString kv) = some kv

namespace MetaStateMachine

def default : MetaStateMachine := ⟨.empty⟩

def loadFromFile (c : SnapshotCodec) (file : Option Bytes) : MetaStateMachine :=
  match (file.bind Text.decode).bind c.fromStr with
  | some kv => ⟨kv⟩
  | none => default

def tabletInfo (nodeId : UInt64) (tabletPartition : String) : String :=
  String.ofList (Json.print (Json.record
    [("node_id", Json.ofNat nodeId.toNat), ("partition", Json.ofString tabletPartition)]))

variable (sm : MetaStateMachine)

def apply : RaftCommand → MetaStateMachine
  | .upsertCube cubeId schemaJson => ⟨sm.kv.insert ("cube:" ++ cubeId) schemaJson⟩
  | .dropCube cubeId => ⟨sm.kv.erase ("cube:" ++ cubeId)⟩
  | .registerTablet tabletId nodeId tabletPartition =>
    ⟨sm.kv.insert ("tablet:" ++ tabletId) (tabletInfo nodeId tabletPartition)⟩
  | .updateStats cubeId statsJson => ⟨sm.kv.insert ("stats:" ++ cubeId) statsJson⟩
  | .sessionSet key value => ⟨sm.kv.insert ("session:" ++ key) value⟩
  | .sessionDel key => ⟨sm.kv.erase ("session:" ++ key)⟩
  | .upsertKv key value => ⟨sm.kv.insert key value⟩
  | .deleteKv key => ⟨sm.kv.erase key⟩

def get (key : String) : Option String := sm.kv.get? key

end MetaStateMachine

structure RaftManager where
  nodeId : UInt64
  sm : MetaStateMachine
  snapshotPath : Option String

namespace RaftManager

def new (nodeId : UInt64) : RaftManager := ⟨nodeId, .default, none⟩

def newWithPersistence (c : SnapshotCodec) (nodeId : UInt64) (dataDir : String)
    (snapshot : Option Bytes) : RaftManager :=
  ⟨nodeId, .loadFromFile c snapshot, some (Text.joinPath dataDir "raft_snapshot.json")⟩

variable (m : RaftManager)

def read (key : String) : Option String := m.sm.get key

def scanPrefix (start : String) : List (String × String) :=
  (m.sm.kv.entries.dropWhile fun e => decide (e.1 < start)).takeWhile fun e =>
    start.toList.isPrefixOf e.1.toList

theorem not_lex_of_isPrefix {start key : List Char} (starts : start <+: key) :
    ¬ List.Lex (· < ·) key start := by
  induction start generalizing key with
  | nil => exact nofun
  | cons c start ih =>
    obtain ⟨rest, rfl⟩ := starts
    intro less
    cases less with
    | rel smaller => exact lt_irrefl c smaller
    | cons later => exact ih (List.prefix_append start rest) later

/-- Keys that start alike are neighbours in the order. -/
theorem isPrefix_of_between {start key later : List Char} (low : ¬ List.Lex (· < ·) key start)
    (high : List.Lex (· < ·) key later) (starts : start <+: later) : start <+: key := by
  induction start generalizing key later with
  | nil => exact List.nil_prefix
  | cons c start ih =>
    obtain ⟨rest, rfl⟩ := starts
    cases high with
    | nil => exact absurd List.Lex.nil low
    | rel smaller => exact absurd (List.Lex.rel smaller) low
    | cons high =>
      have above : ¬ List.Lex (· < ·) _ start := fun less => low (List.Lex.cons less)
      exact List.cons_prefix_cons.mpr ⟨rfl, ih above high (List.prefix_append start rest)⟩

theorem takeWhile_eq_filter {α : Type} {p : α → Bool} {xs : List α}
    (falls : xs.Pairwise fun a b => p b = true → p a = true) : xs.takeWhile p = xs.filter p := by
  induction falls with
  | nil => rfl
  | @cons a rest first _ ih =>
    rw [List.takeWhile_cons, List.filter_cons]
    split
    · rw [ih]
    · next fails =>
      exact (List.filter_eq_nil_iff.mpr fun b inside holds => fails (first b inside holds)).symm

theorem not_lt_of_mem_dropWhile (start : String) {entries : List (String × String)}
    (sorted : entries.Pairwise fun a b => a.1 < b.1) :
    ∀ e ∈ entries.dropWhile fun e => decide (e.1 < start), ¬ e.1 < start := by
  induction sorted with
  | nil => exact nofun
  | @cons a rest first _ ih =>
    rw [List.dropWhile_cons]
    split
    · exact ih
    · next kept =>
      intro e inside less
      rcases List.mem_cons.mp inside with rfl | inside
      · exact kept (decide_eq_true less)
      · exact kept (decide_eq_true ((first e inside).trans less))

theorem scanPrefix_eq_filter (start : String) :
    m.scanPrefix start = (m.sm.kv.entries.dropWhile fun e => decide (e.1 < start)).filter
      fun e => start.toList.isPrefixOf e.1.toList := by
  have sorted := m.sm.kv.sorted.sublist (List.dropWhile_sublist fun e => decide (e.1 < start))
  refine takeWhile_eq_filter (sorted.imp_of_mem fun inA _ less holds => ?_)
  rw [List.isPrefixOf_iff_prefix] at holds ⊢
  exact isPrefix_of_between (not_lt_of_mem_dropWhile start m.sm.kv.sorted _ inA) less holds

theorem mem_scanPrefix (start : String) (e : String × String) :
    e ∈ m.scanPrefix start ↔ m.sm.kv.get? e.1 = some e.2 ∧ start.toList <+: e.1.toList := by
  rw [scanPrefix_eq_filter, List.mem_filter, List.isPrefixOf_iff_prefix, ← m.sm.kv.mem_entries_iff]
  refine and_congr_left fun starts =>
    ⟨fun inside => (List.dropWhile_sublist _).subset inside, fun inside => ?_⟩
  have parts := List.takeWhile_append_dropWhile (p := fun e : String × String =>
    decide (e.1 < start)) (l := m.sm.kv.entries)
  rcases List.mem_append.mp (parts ▸ inside) with before | after
  · have less := List.mem_takeWhile_imp before
    exact absurd (of_decide_eq_true less) (not_lex_of_isPrefix starts)
  · exact after

/-- A scan gives exactly the entries with the prefix, in order. -/
theorem scan_prefix_exact (m : RaftManager) (start : String) :
    (m.scanPrefix start).Pairwise (fun a b => a.1 < b.1) ∧ ∀ key value,
      (key, value) ∈ m.scanPrefix start ↔
        m.sm.kv.get? key = some value ∧ start.toList <+: key.toList := by
  refine ⟨?_, fun key value => m.mem_scanPrefix start (key, value)⟩
  rw [scanPrefix_eq_filter]
  exact (m.sm.kv.sorted.sublist (List.dropWhile_sublist _)).filter _

end RaftManager

def jsonSnapshot : SnapshotCodec where
  toString kv := Json.print (Json.record (kv.entries.map fun e => (e.1, Json.ofString e.2)))
  fromStr text := (Json.parse text).bind fun
    | .obj fields => (fields.mapM fun f =>
        (Json.asString f.2).map fun value => (String.ofList f.1, value)).map OrdMap.ofList
    | _ => none
  fromStr_toString kv := by
    rw [Json.parse_print, Option.bind_some]
    simp only [Json.record, Json.mapM_fields Json.asString_ofString, Option.map_some,
      Option.some.injEq]
    exact OrdMap.ofList_of_perm (List.Perm.refl _)

end WowDb.Query

namespace WowDb.Query.RaftSnapshot
open WowDb.Lib List

structure Pending where
  version : Nat
  kv : OrdMap String String
  written : Bool

structure Shared where
  manager : RaftManager
  snapshot : Option Bytes
  tmp : Option Bytes
  applied : Nat
  calls : List Pending

inductive WriteOutcome where
  | ok
  | failed (left : Option Bytes)
  deriving DecidableEq

inductive Action where
  | apply (cmd : RaftCommand)
  | writeTmp (i : Nat) (outcome : WriteOutcome)
  | rename (i : Nat) (ok : Bool)

variable (c : SnapshotCodec)

def step (s : Shared) : Action → Option Shared
  | .apply cmd =>
    let sm := s.manager.sm.apply cmd
    let calls := match s.manager.snapshotPath with
      | some _ => s.calls ++ [⟨s.applied + 1, sm.kv, false⟩]
      | none => s.calls
    some { s with manager := { s.manager with sm }, applied := s.applied + 1, calls }
  | .writeTmp i outcome =>
    match s.calls[i]? with
    | some ⟨version, kv, false⟩ =>
      match outcome with
      | .ok => some { s with
          tmp := some (Text.encode (c.toString kv)), calls := s.calls.set i ⟨version, kv, true⟩ }
      | .failed left => some { s with tmp := left, calls := s.calls.eraseIdx i }
    | _ => none
  | .rename i ok =>
    match s.calls[i]? with
    | some ⟨_, _, true⟩ =>
      let calls := s.calls.eraseIdx i
      match s.tmp, ok with
      | some file, true => some { s with snapshot := some file, tmp := none, calls }
      | _, _ => some { s with calls }
    | _ => none

def opened (nodeId : UInt64) (dataDir : String) (snapshot tmp : Option Bytes) : Shared :=
  ⟨.newWithPersistence c nodeId dataDir snapshot, snapshot, tmp, 0, []⟩

def Durable (s : Shared) : Prop :=
  s.calls = [] → ∀ nodeId dataDir,
    (RaftManager.newWithPersistence c nodeId dataDir s.snapshot).sm.kv = s.manager.sm.kv

def NewestWaits (s : Shared) : Prop := ∃ p ∈ s.calls, p.version = s.applied ∧ p.written = false

/-- Only the call that applied last writes the file. -/
def InOrder (s : Shared) : Action → Prop
  | .apply _ => True
  | .writeTmp i outcome => ∀ p ∈ s.calls[i]?,
      (p.version = s.applied ∧ outcome = .ok) ∨ (p.version ≠ s.applied ∧ NewestWaits s)
  | .rename _ ok => s.tmp.isSome = true → ok = true ∨ NewestWaits s

structure Held (s : Shared) : Prop where
  path : s.manager.snapshotPath.isSome = true
  bounded : ∀ p ∈ s.calls, p.version ≤ s.applied
  newest : ∀ p ∈ s.calls, p.version = s.applied → p.kv = s.manager.sm.kv
  place : NewestWaits s ∨
    (s.tmp = some (Text.encode (c.toString s.manager.sm.kv)) ∧ ∃ p ∈ s.calls, p.written = true) ∨
    ((MetaStateMachine.loadFromFile c s.snapshot).kv = s.manager.sm.kv ∧
      (s.tmp = none ∨ ∀ p ∈ s.calls, p.written = false))

theorem loadFromFile_encode (kv : OrdMap String String) :
    MetaStateMachine.loadFromFile c (some (Text.encode (c.toString kv))) = ⟨kv⟩ := by
  simp [MetaStateMachine.loadFromFile, Text.decode_encode, c.fromStr_toString]

theorem Held.durable {s : Shared} (held : Held c s) : Durable c s := by
  intro idle nodeId dataDir
  rcases held.place with ⟨p, member, -⟩ | ⟨-, p, member, -⟩ | ⟨loaded, -⟩
  · rw [idle] at member
    cases member
  · rw [idle] at member
    cases member
  · exact loaded

theorem held_opened (nodeId : UInt64) (dataDir : String) (snapshot tmp : Option Bytes) :
    Held c (opened c nodeId dataDir snapshot tmp) := by
  exact ⟨rfl, nofun, nofun, Or.inr (Or.inr ⟨rfl, Or.inr nofun⟩)⟩

theorem mem_of_other {calls : List Pending} {i : Nat} {p q : Pending} (moving : calls[i]? = some p)
    (member : q ∈ calls) (different : q ≠ p) (moved : Pending) :
    q ∈ calls.eraseIdx i ∧ q ∈ calls.set i moved := by
  obtain ⟨j, found⟩ := mem_iff_getElem?.mp member
  have apart : j ≠ i := by
    intro same
    rw [same, moving] at found
    exact different (Option.some.inj found).symm
  constructor
  · exact mem_eraseIdx_iff_getElem?.mpr ⟨j, apart, found⟩
  · refine mem_iff_getElem?.mpr ⟨j, ?_⟩
    rw [getElem?_set_ne (Ne.symm apart)]
    exact found

variable {s t : Shared}

theorem held_apply {cmd : RaftCommand} (held : Held c s)
    (ok : step c s (.apply cmd) = some t) : Held c t := by
  obtain ⟨path, persistent⟩ := Option.isSome_iff_exists.mp held.path
  simp only [step, persistent, Option.some.injEq] at ok
  subst ok
  refine ⟨rfl, ?_, ?_, Or.inl ?_⟩
  · intro p member
    rcases mem_append.mp member with before | added
    · exact Nat.le_succ_of_le (held.bounded p before)
    · rw [mem_singleton.mp added]
  · intro p member version
    rcases mem_append.mp member with before | added
    · have older := held.bounded p before
      simp only at version
      omega
    · rw [mem_singleton.mp added]
  · exact ⟨_, mem_append_right _ (mem_singleton.mpr rfl), rfl, rfl⟩

theorem held_writeTmp {i : Nat} {outcome : WriteOutcome} (held : Held c s)
    (inOrder : InOrder s (.writeTmp i outcome)) (ok : step c s (.writeTmp i outcome) = some t) :
    Held c t := by
  simp only [step] at ok
  split at ok
  · next version kv moving =>
    have member : ⟨version, kv, false⟩ ∈ s.calls := List.mem_of_getElem? moving
    have waits : version ≠ s.applied → NewestWaits s → ∀ moved,
        (∃ q ∈ s.calls.eraseIdx i, q.version = s.applied ∧ q.written = false) ∧
        ∃ q ∈ s.calls.set i moved, q.version = s.applied ∧ q.written = false := by
      rintro older ⟨q, inFlight, newest, waiting⟩ moved
      have different : q ≠ ⟨version, kv, false⟩ := by
        intro same
        rw [same] at newest
        exact older newest
      obtain ⟨erased, kept⟩ := mem_of_other moving inFlight different moved
      exact ⟨⟨q, erased, newest, waiting⟩, ⟨q, kept, newest, waiting⟩⟩
    cases outcome with
    | ok =>
      cases ok
      refine ⟨held.path, ?_, ?_, ?_⟩
      · intro q later
        rcases mem_or_eq_of_mem_set later with before | rfl
        · exact held.bounded q before
        · have older := held.bounded _ member
          exact older
      · intro q later newest
        rcases mem_or_eq_of_mem_set later with before | rfl
        · exact held.newest q before newest
        · have copy := held.newest _ member newest
          exact copy
      · rcases inOrder _ moving with ⟨newest, -⟩ | ⟨older, waiting⟩
        · refine Or.inr (Or.inl ⟨?_, ⟨version, kv, true⟩, ?_, rfl⟩)
          · have copy := held.newest _ member newest
            simp only at copy ⊢
            rw [copy]
          · exact mem_set (List.getElem?_eq_some_iff.mp moving).1 _
        · exact Or.inl (waits older waiting _).2
    | failed left =>
      cases ok
      refine ⟨held.path, ?_, ?_, ?_⟩
      · intro q later
        exact held.bounded q (mem_of_mem_eraseIdx later)
      · intro q later
        exact held.newest q (mem_of_mem_eraseIdx later)
      · rcases inOrder _ moving with ⟨-, impossible⟩ | ⟨older, waiting⟩
        · cases impossible
        · exact Or.inl (waits older waiting ⟨version, kv, true⟩).1
  · cases ok

theorem held_rename {i : Nat} {succeeds : Bool} (held : Held c s)
    (inOrder : InOrder s (.rename i succeeds)) (ok : step c s (.rename i succeeds) = some t) :
    Held c t := by
  simp only [step] at ok
  split at ok
  · next version kv moving =>
    have member : ⟨version, kv, true⟩ ∈ s.calls := mem_of_getElem? moving
    have waits : NewestWaits s →
        ∃ q ∈ s.calls.eraseIdx i, q.version = s.applied ∧ q.written = false := by
      rintro ⟨q, inFlight, newest, waiting⟩
      have different : q ≠ ⟨version, kv, true⟩ := by
        intro same
        rw [same] at waiting
        cases waiting
      exact ⟨q, (mem_of_other moving inFlight different q).1, newest, waiting⟩
    have bounded : ∀ q ∈ s.calls.eraseIdx i, q.version ≤ s.applied :=
      fun q later => held.bounded q (mem_of_mem_eraseIdx later)
    have newest : ∀ q ∈ s.calls.eraseIdx i, q.version = s.applied → q.kv = s.manager.sm.kv :=
      fun q later => held.newest q (mem_of_mem_eraseIdx later)
    split at ok
    · next file there =>
      cases ok
      refine ⟨held.path, bounded, newest, ?_⟩
      rcases held.place with waiting | ⟨content, -⟩ | ⟨-, gone | unwritten⟩
      · exact Or.inl (waits waiting)
      · rw [there] at content
        cases content
        exact Or.inr (Or.inr ⟨by rw [loadFromFile_encode], Or.inl rfl⟩)
      · rw [there] at gone
        cases gone
      · exact absurd (unwritten _ member) nofun
    · next blocked =>
      cases ok
      refine ⟨held.path, bounded, newest, ?_⟩
      rcases held.place with waiting | ⟨content, -⟩ | ⟨loaded, rest⟩
      · exact Or.inl (waits waiting)
      · rcases inOrder (by rw [content]; rfl) with succeeded | waiting
        · exact absurd succeeded (blocked _ content)
        · exact Or.inl (waits waiting)
      · refine Or.inr (Or.inr ⟨loaded, rest.imp_right fun unwritten q later => ?_⟩)
        exact unwritten q (mem_of_mem_eraseIdx later)
  · cases ok

/-- The snapshot is durable when no call is in flight. -/
theorem durable_of_inOrder (nodeId : UInt64) (dataDir : String) (snapshot tmp : Option Bytes)
    (actions : List Action)
    (inOrder : Run.EveryStep (step c) InOrder (opened c nodeId dataDir snapshot tmp) actions) :
    Run.EveryState (step c) (Durable c) (opened c nodeId dataDir snapshot tmp) actions := by
  have keep : ∀ s a t, Held c s → InOrder s a → step c s a = some t → Held c t := by
    intro s a t held order ok
    cases a with
    | apply cmd => exact held_apply c held ok
    | writeTmp i outcome => exact held_writeTmp c held order ok
    | rename i succeeds => exact held_rename c held order ok
  have held := Run.everyState_of_everyStep keep actions _
    (held_opened c nodeId dataDir snapshot tmp) inOrder
  intro done t isPrefix ran
  exact (held done t isPrefix ran).durable

instance (s : Shared) : Decidable (NewestWaits s) := by
  unfold NewestWaits
  infer_instance

instance decidableInOrder (s : Shared) (a : Action) : Decidable (InOrder s a) := by
  cases a <;> unfold InOrder <;> infer_instance

theorem durable_of_overlapping_writes : Run.EveryState (step jsonSnapshot) (Durable jsonSnapshot)
      (opened jsonSnapshot 1 "data" none none)
      [.apply (.upsertKv "a" "1"), .apply (.upsertKv "b" "2"), .writeTmp 0 .ok, .writeTmp 1 .ok,
        .rename 0 true, .rename 0 false] :=
  durable_of_inOrder jsonSnapshot 1 "data" none none _ (by decide +kernel)

theorem older_snapshot_renamed_last :
    ∃ s, Run.exec (step jsonSnapshot) (opened jsonSnapshot 1 "data" none none)
        [.apply (.upsertKv "a" "1"), .apply (.upsertKv "b" "2"), .writeTmp 1 .ok, .rename 1 true,
          .writeTmp 0 .ok, .rename 0 true] = some s ∧
      s.calls = [] ∧ s.manager.sm.kv = .ofList [("a", "1"), ("b", "2")] ∧
      (RaftManager.newWithPersistence jsonSnapshot 1 "data" s.snapshot).sm.kv =
        .ofList [("a", "1")] := by
  refine ⟨_, rfl, rfl, by decide +kernel, ?_⟩
  have loaded := loadFromFile_encode jsonSnapshot
    (MetaStateMachine.default.apply (.upsertKv "a" "1")).kv
  refine (congrArg MetaStateMachine.kv loaded).trans ?_
  decide +kernel

end WowDb.Query.RaftSnapshot
