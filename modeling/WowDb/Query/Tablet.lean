import WowDb.Lib.RoundRobin
import WowDb.Query.Raft

/-!
# Tablet metadata

`query-node/src/meta/tablet.rs` on a manager with a snapshot file, called by one caller at a time,
with every file operation a success.
-/
namespace WowDb.Query
open WowDb.Lib

abbrev TabletId := BitVec 128

abbrev CubeId := BitVec 128

def uuidText (id : BitVec 128) : String :=
  String.ofList (Json.hyphenate [8, 4, 4, 4] (Json.hexFixed 32 id.toNat))

structure TabletInfo where
  tabletId : TabletId
  cubeId : CubeId
  tabletPartition : String
  bucket : UInt32
  snNodes : List UInt64
  leaderSn : UInt64
  version : UInt64
  deriving DecidableEq

structure TabletCodec where
  toString : TabletInfo → String
  fromStr : String → Option TabletInfo
  message : String → String
  fromStr_toString : ∀ t, fromStr (toString t) = some t
  fromStr_short : ∀ nodeId tabletPartition,
    fromStr (MetaStateMachine.tabletInfo nodeId tabletPartition) = none

structure PersistentRaft where
  manager : RaftManager
  snapshot : Option Bytes

namespace PersistentRaft

variable (c : SnapshotCodec)

def opened (nodeId : UInt64) (dataDir : String) (snapshot : Option Bytes) : PersistentRaft :=
  ⟨.newWithPersistence c nodeId dataDir snapshot, snapshot⟩

def write (s : PersistentRaft) (cmd : RaftCommand) : PersistentRaft :=
  let sm := s.manager.sm.apply cmd
  ⟨{ s.manager with sm }, match s.manager.snapshotPath with
    | some _ => some (Text.encode (c.toString sm.kv))
    | none => s.snapshot⟩

def restart (s : PersistentRaft) (nodeId : UInt64) (dataDir : String) : PersistentRaft :=
  opened c nodeId dataDir s.snapshot

theorem write_eq_run (s : PersistentRaft) (cmd : RaftCommand) (tmp : Option Bytes) (applied : Nat)
    (path : String) (persistent : s.manager.snapshotPath = some path) :
    (Run.exec (RaftSnapshot.step c) ⟨s.manager, s.snapshot, tmp, applied, []⟩
      [.apply cmd, .writeTmp 0 .ok, .rename 0 true]).map (fun t => (⟨t.manager, t.snapshot⟩, t.calls)) =
    some (s.write c cmd, []) := by
  simp [Run.exec, RaftSnapshot.step, persistent, write]

end PersistentRaft

namespace TabletManager

variable (c : SnapshotCodec) (codec : TabletCodec)

def tabletKey (id : TabletId) : String := "tablet:" ++ uuidText id

def persist (s : PersistentRaft) (tablet : TabletInfo) : PersistentRaft :=
  let s := s.write c
    (.registerTablet (uuidText tablet.tabletId) tablet.leaderSn tablet.tabletPartition)
  { s with manager := { s.manager with
      sm := ⟨s.manager.sm.kv.insert (tabletKey tablet.tabletId) (codec.toString tablet)⟩ } }

def allocate (s : PersistentRaft) (id : TabletId) (cubeId : CubeId) (tabletPartition : String)
    (bucket : UInt32) (snNodes : List UInt64) : PersistentRaft × Except String TabletInfo :=
  match snNodes with
  | [] => (s, .error "No SN nodes available for tablet allocation")
  | leaderSn :: _ =>
    let tablet := ⟨id, cubeId, tabletPartition, bucket, snNodes, leaderSn, 1⟩
    (persist c codec s tablet, .ok tablet)

def bucketNodes (availableNodes : List UInt64) (rep bucket : Nat) : List UInt64 :=
  let start := (bucket * rep) % max availableNodes.length 1
  (List.range rep).map fun i => availableNodes.getD ((start + i) % availableNodes.length) 0

def allocateBuckets (ids : Nat → TabletId) (cubeId : CubeId) (tabletPartition : String)
    (availableNodes : List UInt64) (rep : Nat) (s : PersistentRaft) (bucket : Nat) :
    Nat → PersistentRaft × Except String (List TabletInfo)
  | 0 => (s, .ok [])
  | remaining + 1 =>
    match allocate c codec s (ids bucket) cubeId tabletPartition (UInt32.ofNat bucket)
        (bucketNodes availableNodes rep bucket) with
    | (s, .error e) => (s, .error e)
    | (s, .ok tablet) =>
      match allocateBuckets ids cubeId tabletPartition availableNodes rep s (bucket + 1)
          remaining with
      | (s, .error e) => (s, .error e)
      | (s, .ok tablets) => (s, .ok (tablet :: tablets))

def allocateForCube (s : PersistentRaft) (ids : Nat → TabletId) (cubeId : CubeId)
    (tabletPartition : String) (bucketCount : UInt32) (availableNodes : List UInt64)
    (replication : Nat) : PersistentRaft × Except String (List TabletInfo) :=
  allocateBuckets c codec ids cubeId tabletPartition availableNodes
    (min replication availableNodes.length) s 0 bucketCount.toNat

def get (s : PersistentRaft) (id : TabletId) : Except String (Option TabletInfo) :=
  match s.manager.read (tabletKey id) with
  | none => .ok none
  | some json =>
    match codec.fromStr json with
    | some tablet => .ok (some tablet)
    | none => .error (codec.message json)

def tablets (s : PersistentRaft) : List TabletInfo :=
  s.manager.sm.kv.entries.filterMap fun e =>
    if "tablet:".toList.isPrefixOf e.1.toList then codec.fromStr e.2 else none

def listForCube (s : PersistentRaft) (cubeId : String) : List TabletInfo :=
  (tablets codec s).filter fun t => uuidText t.cubeId == cubeId

def listForPartition (s : PersistentRaft) (cubeId : CubeId) (tabletPartition : String) :
    List TabletInfo :=
  ((tablets codec s).filter fun t =>
    t.cubeId == cubeId && t.tabletPartition == tabletPartition).insertionSort
      fun a b => a.bucket ≤ b.bucket

def updateLeader (s : PersistentRaft) (id : TabletId) (newLeader : UInt64) :
    PersistentRaft × Except String Unit :=
  match get codec s id with
  | .error e => (s, .error e)
  | .ok none => (s, .error ("Tablet " ++ uuidText id ++ " not found"))
  | .ok (some tablet) => (persist c codec s { tablet with leaderSn := newLeader }, .ok ())

end TabletManager

namespace TabletJson
open Json

def asUInt64 (v : Json) : Option UInt64 := do
  let n ← asNat v
  if n < 2 ^ 64 then some (UInt64.ofNat n) else none

def asUInt32 (v : Json) : Option UInt32 := do
  let n ← asNat v
  if n < 2 ^ 32 then some (UInt32.ofNat n) else none

theorem asUInt64_ofNat (n : UInt64) : asUInt64 (ofNat n.toNat) = some n := by
  have bound := n.toNat_lt
  simp [asUInt64, bound]

theorem asUInt32_ofNat (n : UInt32) : asUInt32 (ofNat n.toNat) = some n := by
  have bound := n.toNat_lt
  simp [asUInt32, bound]

def tabletToJson (t : TabletInfo) : Json :=
  record [("tablet_id", ofUuid t.tabletId), ("cube_id", ofUuid t.cubeId),
    ("partition", ofString t.tabletPartition), ("bucket", ofNat t.bucket.toNat),
    ("sn_nodes", ofList (fun n : UInt64 => ofNat n.toNat) t.snNodes),
    ("leader_sn", ofNat t.leaderSn.toNat), ("version", ofNat t.version.toNat)]

def tabletFromJson (v : Json) : Option TabletInfo := do
  let tabletId ← (← field "tablet_id" v) |> asUuid
  let cubeId ← (← field "cube_id" v) |> asUuid
  let tabletPartition ← (← field "partition" v) |> asString
  let bucket ← (← field "bucket" v) |> asUInt32
  let snNodes ← (← field "sn_nodes" v) |> asList asUInt64
  let leaderSn ← (← field "leader_sn" v) |> asUInt64
  let version ← (← field "version" v) |> asUInt64
  some ⟨tabletId, cubeId, tabletPartition, bucket, snNodes, leaderSn, version⟩

end TabletJson

def jsonTablet : TabletCodec where
  toString t := String.ofList (Json.print (TabletJson.tabletToJson t))
  fromStr text := (Json.parse text.toList).bind TabletJson.tabletFromJson
  message _ := "missing field or invalid type"
  fromStr_toString t := by
    have nodes := Json.asList_ofList TabletJson.asUInt64_ofNat t.snNodes
    rw [String.toList_ofList, Json.parse_print, Option.bind_some]
    simp [TabletJson.tabletFromJson, TabletJson.tabletToJson, Json.field_record, List.lookup, nodes,
      TabletJson.asUInt64_ofNat, TabletJson.asUInt32_ofNat]
  fromStr_short nodeId tabletPartition := by
    rw [MetaStateMachine.tabletInfo, String.toList_ofList, Json.parse_print, Option.bind_some]
    simp [TabletJson.tabletFromJson, Json.field_record, List.lookup]

namespace TabletManager

variable (c : SnapshotCodec) (codec : TabletCodec)

inductive Call where
  | allocate (id : TabletId) (cubeId : CubeId) (tabletPartition : String) (bucket : UInt32)
      (snNodes : List UInt64)
  | allocateForCube (ids : Nat → TabletId) (cubeId : CubeId) (tabletPartition : String)
      (bucketCount : UInt32) (availableNodes : List UInt64) (replication : Nat)
  | updateLeader (id : TabletId) (newLeader : UInt64)

def okState {α : Type} : PersistentRaft × Except String α → Option PersistentRaft
  | (s, .ok _) => some s
  | (_, .error _) => none

def step (s : PersistentRaft) : Call → Option PersistentRaft
  | .allocate id cubeId tabletPartition bucket snNodes =>
    okState (allocate c codec s id cubeId tabletPartition bucket snNodes)
  | .allocateForCube ids cubeId tabletPartition bucketCount availableNodes replication =>
    okState (allocateForCube c codec s ids cubeId tabletPartition bucketCount availableNodes
      replication)
  | .updateLeader id newLeader => okState (updateLeader c codec s id newLeader)

structure Survives (s : PersistentRaft) : Prop where
  get : ∀ nodeId dataDir id, get codec (s.restart c nodeId dataDir) id = get codec s id
  listForCube : ∀ nodeId dataDir cubeId,
    listForCube codec (s.restart c nodeId dataDir) cubeId = listForCube codec s cubeId
  listForPartition : ∀ nodeId dataDir cubeId tabletPartition,
    listForPartition codec (s.restart c nodeId dataDir) cubeId tabletPartition =
      listForPartition codec s cubeId tabletPartition

def StoresNothing : Call → Prop
  | .allocateForCube _ _ _ bucketCount _ _ => bucketCount = 0
  | .allocate _ _ _ _ _ | .updateLeader _ _ => False

def Forgets (s : PersistentRaft) : Prop :=
  ∃ id tablet, get codec s id = .ok (some tablet) ∧ ∀ nodeId dataDir,
    get codec (s.restart c nodeId dataDir) id = .error (codec.message
      (MetaStateMachine.tabletInfo tablet.leaderSn tablet.tabletPartition))

variable {s : PersistentRaft}

theorem Forgets.not_survives (forgets : Forgets c codec s) : ¬ Survives c codec s := by
  obtain ⟨id, tablet, known, lost⟩ := forgets
  intro survives
  have same := survives.get 0 "" id
  rw [known, lost 0 ""] at same
  cases same

theorem survives_opened (nodeId : UInt64) (dataDir : String) (snapshot : Option Bytes) :
    Survives c codec (.opened c nodeId dataDir snapshot) :=
  ⟨fun _ _ _ => rfl, fun _ _ _ => rfl, fun _ _ _ _ => rfl⟩

theorem get_persist (s : PersistentRaft) (tablet : TabletInfo) :
    get codec (persist c codec s tablet) tablet.tabletId = .ok (some tablet) := by
  simp only [get, persist, RaftManager.read, MetaStateMachine.get, OrdMap.get?_insert, if_true,
    codec.fromStr_toString]

theorem get_restart_persist (s : PersistentRaft) (tablet : TabletInfo)
    (persistent : s.manager.snapshotPath.isSome = true) (nodeId : UInt64) (dataDir : String) :
    get codec ((persist c codec s tablet).restart c nodeId dataDir) tablet.tabletId =
      .error (codec.message
        (MetaStateMachine.tabletInfo tablet.leaderSn tablet.tabletPartition)) := by
  obtain ⟨path, located⟩ := Option.isSome_iff_exists.mp persistent
  have short : ((persist c codec s tablet).restart c nodeId dataDir).manager.read
      (tabletKey tablet.tabletId) =
      some (MetaStateMachine.tabletInfo tablet.leaderSn tablet.tabletPartition) := by
    simp only [persist, PersistentRaft.restart, PersistentRaft.opened, PersistentRaft.write,
      located, RaftManager.newWithPersistence, RaftSnapshot.loadFromFile_encode, RaftManager.read,
      MetaStateMachine.get, MetaStateMachine.apply, tabletKey, OrdMap.get?_insert, if_true]
  simp only [get, short, codec.fromStr_short]

theorem forgets_persist (s : PersistentRaft) (tablet : TabletInfo)
    (persistent : s.manager.snapshotPath.isSome = true) :
    Forgets c codec (persist c codec s tablet) :=
  ⟨tablet.tabletId, tablet, get_persist c codec s tablet,
    get_restart_persist c codec s tablet persistent⟩

theorem snapshotPath_persist (s : PersistentRaft) (tablet : TabletInfo) :
    (persist c codec s tablet).manager.snapshotPath = s.manager.snapshotPath := rfl

variable {t : PersistentRaft}

theorem allocate_ok {id : TabletId} {cubeId : CubeId} {tabletPartition : String} {bucket : UInt32}
    {snNodes : List UInt64} {tablet : TabletInfo}
    (ok : allocate c codec s id cubeId tabletPartition bucket snNodes = (t, .ok tablet)) :
    t = persist c codec s tablet := by
  cases snNodes with
  | nil => simp [allocate] at ok
  | cons leaderSn rest =>
    simp only [allocate, Prod.mk.injEq, Except.ok.injEq] at ok
    obtain ⟨rfl, rfl⟩ := ok
    rfl

theorem forgets_allocateBuckets {ids : Nat → TabletId} {cubeId : CubeId}
    {tabletPartition : String} {availableNodes : List UInt64} {rep : Nat} (remaining : Nat)
    {bucket : Nat} {tablets : List TabletInfo} (persistent : s.manager.snapshotPath.isSome = true)
    (ok : allocateBuckets c codec ids cubeId tabletPartition availableNodes rep s bucket remaining =
      (t, .ok tablets)) :
    t.manager.snapshotPath.isSome = true ∧ (remaining = 0 → t = s) ∧
      (0 < remaining → Forgets c codec t) := by
  induction remaining generalizing s bucket tablets with
  | zero =>
    cases ok
    exact ⟨persistent, fun _ => rfl, fun positive => absurd positive (Nat.lt_irrefl 0)⟩
  | succ remaining ih =>
    unfold allocateBuckets at ok
    split at ok
    · cases ok
    · next u tablet first =>
      have stored := allocate_ok c codec first
      have kept : u.manager.snapshotPath.isSome = true := by
        rw [stored, snapshotPath_persist]
        exact persistent
      split at ok
      · cases ok
      · next v others rest =>
        cases ok
        obtain ⟨path, none, some⟩ := ih kept rest
        refine ⟨path, nofun, fun _ => ?_⟩
        rcases Nat.eq_zero_or_pos remaining with last | more
        · rw [none last, stored]
          exact forgets_persist c codec s tablet persistent
        · exact some more

theorem okState_some {α : Type} {result : PersistentRaft × Except String α}
    (ok : okState result = some t) : ∃ value, result = (t, .ok value) := by
  obtain ⟨s, value | value⟩ := result
  · cases ok
  · cases ok
    exact ⟨value, rfl⟩

theorem step_cases {call : Call} (persistent : s.manager.snapshotPath.isSome = true)
    (ok : step c codec s call = some t) :
    t.manager.snapshotPath.isSome = true ∧ (StoresNothing call → t = s) ∧
      (¬ StoresNothing call → Forgets c codec t) := by
  cases call with
  | allocate id cubeId tabletPartition bucket snNodes =>
    obtain ⟨tablet, returned⟩ := okState_some ok
    rw [allocate_ok c codec returned]
    exact ⟨persistent, nofun, fun _ => forgets_persist c codec s tablet persistent⟩
  | allocateForCube ids cubeId tabletPartition bucketCount availableNodes replication =>
    obtain ⟨tablets, returned⟩ := okState_some ok
    obtain ⟨path, none, some⟩ := forgets_allocateBuckets c codec _ persistent returned
    refine ⟨path, ?_, ?_⟩
    · intro zero
      refine none ?_
      rw [show bucketCount = 0 from zero]
      rfl
    · intro positive
      refine some (Nat.pos_of_ne_zero fun zero => positive ?_)
      exact UInt32.toNat_inj.mp zero
  | updateLeader id newLeader =>
    obtain ⟨_, returned⟩ := okState_some ok
    unfold updateLeader at returned
    split at returned
    · cases returned
    · cases returned
    · next tablet _ =>
      cases returned
      exact ⟨persistent, nofun, fun _ => forgets_persist c codec s _ persistent⟩

theorem exec_cases (calls : List Call) (persistent : s.manager.snapshotPath.isSome = true)
    (ran : Run.exec (step c codec) s calls = some t) :
    ((∀ call ∈ calls, StoresNothing call) → t = s) ∧
      ((∃ call ∈ calls, ¬ StoresNothing call) → Forgets c codec t) := by
  induction calls generalizing s with
  | nil =>
    cases ran
    exact ⟨fun _ => rfl, nofun⟩
  | cons call rest ih =>
    obtain ⟨u, first, later⟩ := Run.exec_cons_some ran
    obtain ⟨path, none, some⟩ := step_cases c codec persistent first
    obtain ⟨laterNone, laterSome⟩ := ih path later
    refine ⟨?_, ?_⟩
    · intro nothing
      rw [laterNone fun d member => nothing d (by simp [member])]
      exact none (nothing call (by simp))
    · rintro ⟨d, member, stores⟩
      by_cases more : ∃ e ∈ rest, ¬ StoresNothing e
      · exact laterSome more
      · -- the last call that stores a tablet is the first one
        have only : ∀ e ∈ rest, StoresNothing e := by
          intro e inRest
          by_contra storing
          exact more ⟨e, inRest, storing⟩
        rw [laterNone only]
        rcases List.mem_cons.mp member with rfl | inRest
        · exact some stores
        · exact absurd (only d inRest) stores

/-- Exactly when no call has stored a tablet. -/
theorem survives_iff_storesNothing (nodeId : UInt64) (dataDir : String) (snapshot : Option Bytes)
    (calls : List Call) (s : PersistentRaft)
    (ran : Run.exec (step c codec) (.opened c nodeId dataDir snapshot) calls = some s) :
    Survives c codec s ↔ ∀ call ∈ calls, StoresNothing call := by
  obtain ⟨none, some⟩ := exec_cases c codec calls rfl ran
  constructor
  · intro survives call member
    by_contra stores
    exact (some ⟨call, member, stores⟩).not_survives c codec survives
  · intro nothing
    rw [none nothing]
    exact survives_opened c codec nodeId dataDir snapshot

theorem survives_no_buckets :
    Survives jsonSnapshot jsonTablet (.opened jsonSnapshot 1 "data" none) :=
  (survives_iff_storesNothing jsonSnapshot jsonTablet 1 "data" none
    [.allocateForCube (fun _ => 0) 7 "p_2024_q1" 0 [1, 2, 3] 3] _ rfl).mpr (by simp [StoresNothing])

theorem allocated_tablet_unreadable :
    ∃ s, Run.exec (step jsonSnapshot jsonTablet) (.opened jsonSnapshot 1 "data" none)
        [.allocate 5 7 "p_2024_q1" 0 [1, 2, 3]] = some s ∧
      get jsonTablet s 5 = .ok (some ⟨5, 7, "p_2024_q1", 0, [1, 2, 3], 1, 1⟩) ∧
      (∃ e, get jsonTablet (s.restart jsonSnapshot 1 "data") 5 = .error e) ∧
      ¬ Survives jsonSnapshot jsonTablet s := by
  let opened : PersistentRaft := .opened jsonSnapshot 1 "data" none
  let tablet : TabletInfo := ⟨5, 7, "p_2024_q1", 0, [1, 2, 3], 1, 1⟩
  refine ⟨persist jsonSnapshot jsonTablet opened tablet, rfl, ?_, ?_, ?_⟩
  · exact get_persist jsonSnapshot jsonTablet opened tablet
  · exact ⟨_, get_restart_persist jsonSnapshot jsonTablet opened tablet rfl 1 "data"⟩
  · exact (forgets_persist jsonSnapshot jsonTablet opened tablet rfl).not_survives _ _

open List

def route (s : PersistentRaft) (cubeId : CubeId) (tabletPartition : String) (hashVal : UInt64)
    (bucketCount : UInt32) : Option (Option TabletInfo) :=
  if bucketCount = 0 then none
  else
    let bucket := UInt32.ofNat (hashVal.toNat % bucketCount.toNat)
    some ((listForPartition codec s cubeId tabletPartition).find? fun t => t.bucket == bucket)

section Allocated
variable (ids : Nat → TabletId) (cubeId : CubeId) (tabletPartition : String)
  (nodes : List UInt64) (rep : Nat)

def tabletAt (bucket : Nat) : TabletInfo :=
  ⟨ids bucket, cubeId, tabletPartition, UInt32.ofNat bucket, bucketNodes nodes rep bucket,
    (bucketNodes nodes rep bucket).headD 0, 1⟩

variable {nodes rep} (available : nodes ≠ [])
include available

theorem bucketNodes_eq (rep bucket : Nat) :
    bucketNodes nodes rep bucket = rounds nodes (bucket * rep) rep := by
  have positive := length_pos_iff.mpr available
  rw [bucketNodes, Nat.max_eq_left positive, rounds, ← filterMap_eq_map]
  refine filterMap_congr fun i _ => ?_
  have inside := Nat.mod_lt (bucket * rep + i) positive
  rw [Function.comp_apply, Nat.mod_add_mod, getElem?_eq_getElem inside]
  simp [inside]

theorem flatMap_bucketNodes (count : Nat) :
    (List.range count).flatMap (bucketNodes nodes rep) = rounds nodes 0 (count * rep) := by
  induction count with
  | zero => simp [rounds]
  | succ count ih =>
    rw [range_succ, flatMap_append, ih, Nat.succ_mul, rounds_add, Nat.zero_add]
    simp [bucketNodes_eq available]

variable (replicated : 0 < rep)
include replicated

omit available in
theorem allocateBuckets_eq (remaining : Nat) : ∀ (s : PersistentRaft) (bucket : Nat),
    allocateBuckets c codec ids cubeId tabletPartition nodes rep s bucket remaining =
      ((List.range' bucket remaining).foldl
        (fun s i => persist c codec s (tabletAt ids cubeId tabletPartition nodes rep i)) s,
      .ok ((List.range' bucket remaining).map (tabletAt ids cubeId tabletPartition nodes rep))) := by
  induction remaining with
  | zero => intro s bucket; rfl
  | succ remaining ih =>
    intro s bucket
    have one : allocate c codec s (ids bucket) cubeId tabletPartition (UInt32.ofNat bucket)
        (bucketNodes nodes rep bucket) =
        (persist c codec s (tabletAt ids cubeId tabletPartition nodes rep bucket),
          .ok (tabletAt ids cubeId tabletPartition nodes rep bucket)) := by
      have size : (bucketNodes nodes rep bucket).length = rep := by simp [bucketNodes]
      unfold tabletAt
      generalize bucketNodes nodes rep bucket = chosen at size ⊢
      cases chosen with
      | nil => simp at size; omega
      | cons leader rest => rfl
    rw [allocateBuckets, one]
    dsimp only
    rw [ih, range'_succ]
    rfl

end Allocated

theorem kv_persist (s : PersistentRaft) (t : TabletInfo) :
    (persist c codec s t).manager.sm.kv =
      s.manager.sm.kv.insert (tabletKey t.tabletId) (codec.toString t) :=
  OrdMap.insert_insert _ _ _ _

theorem kv_foldl_persist (tablet : Nat → TabletInfo) (buckets : List Nat) (s : PersistentRaft) :
    (buckets.foldl (fun s i => persist c codec s (tablet i)) s).manager.sm.kv =
      buckets.foldl (fun kv i => kv.insert (tabletKey (tablet i).tabletId) (codec.toString (tablet i)))
        s.manager.sm.kv := by
  induction buckets generalizing s with
  | nil => rfl
  | cons i rest ih => rw [foldl_cons, ih, kv_persist, foldl_cons]

theorem tabletKey_injective {a b : TabletId} (same : tabletKey a = tabletKey b) : a = b := by
  have texts : uuidText a = uuidText b := by
    have lists := congrArg String.toList same
    simp only [tabletKey, String.toList_append] at lists
    exact String.toList_inj.mp (append_cancel_left lists)
  have json : Json.ofUuid a = Json.ofUuid b :=
    congrArg Json.str (by simpa [uuidText] using congrArg String.toList texts)
  exact Option.some.inj (by rw [← Json.asUuid_ofUuid a, json, Json.asUuid_ofUuid])

theorem mem_listForPartition (s : PersistentRaft) (cubeId : CubeId) (tabletPartition : String)
    (t : TabletInfo) : t ∈ listForPartition codec s cubeId tabletPartition ↔
      (∃ key json, s.manager.sm.kv.get? key = some json ∧
        "tablet:".toList.isPrefixOf key.toList = true ∧ codec.fromStr json = some t) ∧
      t.cubeId = cubeId ∧ t.tabletPartition = tabletPartition := by
  rw [listForPartition, mem_insertionSort, mem_filter, tablets, mem_filterMap]
  simp only [Bool.and_eq_true, beq_iff_eq, Prod.exists, OrdMap.mem_entries_iff]
  refine and_congr_left fun _ => exists_congr fun key => exists_congr fun json =>
    and_congr_right fun _ => ?_
  split <;> simp_all

section Routed
variable {c codec} {s t : PersistentRaft} {ids : Nat → TabletId} {cubeId : CubeId}
  {tabletPartition : String} {bucketCount : UInt32} {nodes : List UInt64} {replication : Nat}
  {returned : List TabletInfo} (replicated : 1 ≤ replication) (available : nodes ≠ [])
  (apart : ∀ i < bucketCount.toNat, ∀ j < bucketCount.toNat, ids i = ids j → i = j)
  (fresh : listForPartition codec s cubeId tabletPartition = [])
  (ok : allocateForCube c codec s ids cubeId tabletPartition bucketCount nodes replication =
    (t, .ok returned))
include replicated available apart fresh ok

theorem entry_iff (key json : String) (tablet : TabletInfo) :
    (t.manager.sm.kv.get? key = some json ∧ "tablet:".toList.isPrefixOf key.toList = true ∧
      codec.fromStr json = some tablet ∧ tablet.cubeId = cubeId ∧
      tablet.tabletPartition = tabletPartition) ↔
    ∃ i < bucketCount.toNat, tablet = tabletAt ids cubeId tabletPartition nodes
      (min replication nodes.length) i ∧ key = tabletKey (ids i) ∧ json = codec.toString tablet := by
  have rep : 0 < min replication nodes.length := by
    have some := length_pos_iff.mpr available
    omega
  rw [allocateForCube, allocateBuckets_eq c codec ids cubeId tabletPartition rep] at ok
  have kv := kv_foldl_persist c codec (tabletAt ids cubeId tabletPartition nodes
    (min replication nodes.length)) (range' 0 bucketCount.toNat) s
  rw [(Prod.mk.inj ok).1] at kv
  have cases := OrdMap.get?_foldl_insert_cases (fun i => tabletKey (ids i)) (fun i => codec.toString
    (tabletAt ids cubeId tabletPartition nodes (min replication nodes.length) i))
    (range' 0 bucketCount.toNat) s.manager.sm.kv
  change ∀ k, _ at cases
  constructor
  · rintro ⟨found, isTablet, decoded, cube, part⟩
    rcases cases key with ⟨i, mem, same, held⟩ | ⟨-, held⟩
    · have stored := (held.symm.trans (kv ▸ found))
      obtain rfl := Option.some.inj stored
      rw [codec.fromStr_toString] at decoded
      obtain rfl := Option.some.inj decoded
      exact ⟨i, by simpa using mem, rfl, same.symm, rfl⟩
    · have old : tablet ∈ listForPartition codec s cubeId tabletPartition :=
        (mem_listForPartition codec s cubeId tabletPartition tablet).mpr
          ⟨⟨key, json, held.symm.trans (kv ▸ found), isTablet, decoded⟩, cube, part⟩
      rw [fresh] at old
      cases old
  · rintro ⟨i, inside, rfl, rfl, rfl⟩
    refine ⟨?_, by simp [tabletKey], codec.fromStr_toString _, rfl, rfl⟩
    rcases cases (tabletKey (ids i)) with ⟨j, mem, same, held⟩ | ⟨others, -⟩
    · obtain rfl := apart j (by simpa using mem) i inside (tabletKey_injective same)
      rw [kv]
      exact held
    · exact absurd rfl (others i (by simpa using inside))

theorem mem_allocated (tablet : TabletInfo) :
    tablet ∈ listForPartition codec t cubeId tabletPartition ↔ ∃ i < bucketCount.toNat,
      tablet = tabletAt ids cubeId tabletPartition nodes (min replication nodes.length) i := by
  have entry := fun key json => entry_iff replicated available apart fresh ok key json tablet
  rw [mem_listForPartition]
  constructor
  · rintro ⟨⟨key, json, found, isTablet, decoded⟩, own⟩
    obtain ⟨i, inside, same, -⟩ := (entry key json).mp ⟨found, isTablet, decoded, own⟩
    exact ⟨i, inside, same⟩
  · rintro ⟨i, inside, same⟩
    obtain ⟨found, isTablet, decoded, own⟩ := (entry _ _).mpr ⟨i, inside, same, rfl, rfl⟩
    exact ⟨⟨_, _, found, isTablet, decoded⟩, own⟩

theorem allocated_perm :
    (listForPartition codec t cubeId tabletPartition).Perm ((List.range bucketCount.toNat).map
      (tabletAt ids cubeId tabletPartition nodes (min replication nodes.length))) := by
  have injective : ∀ i < bucketCount.toNat, ∀ j < bucketCount.toNat,
      tabletAt ids cubeId tabletPartition nodes (min replication nodes.length) i =
        tabletAt ids cubeId tabletPartition nodes (min replication nodes.length) j → i = j :=
    fun i here j there same => apart i here j there (congrArg TabletInfo.tabletId same)
  refine (perm_ext_iff_of_nodup ?_ ?_).mpr fun tablet => ?_
  · rw [listForPartition, (perm_insertionSort _ _).nodup_iff, tablets, filter_filterMap]
    refine pairwise_filterMap.mpr (t.manager.sm.kv.sorted.imp_of_mem ?_)
    rintro ⟨j, v⟩ ⟨k, w⟩ inJ inK less first left second right rfl
    have entry : ∀ k v, (k, v) ∈ t.manager.sm.kv.entries →
        ((if "tablet:".toList.isPrefixOf k.toList then codec.fromStr v else none).filter fun t =>
          t.cubeId == cubeId && t.tabletPartition == tabletPartition) = some first →
        ∃ i < bucketCount.toNat, first = tabletAt ids cubeId tabletPartition nodes
          (min replication nodes.length) i ∧ k = tabletKey (ids i) := by
      intro k v mem shown
      obtain ⟨decoded, own⟩ := Option.filter_eq_some_iff.mp shown
      split at decoded
      · next isTablet =>
        rw [Bool.and_eq_true, beq_iff_eq, beq_iff_eq] at own
        obtain ⟨i, bound, same, key, -⟩ := (entry_iff replicated available apart fresh ok k v
          first).mp ⟨(OrdMap.mem_entries_iff _ _ _).mp mem, isTablet, decoded, own⟩
        exact ⟨i, bound, same, key⟩
      · cases decoded
    obtain ⟨i, boundI, ofI, rfl⟩ := entry j v inJ left
    obtain ⟨i', boundJ, ofJ, rfl⟩ := entry k w inK right
    obtain rfl := injective i boundI i' boundJ (ofI.symm.trans ofJ)
    exact lt_irrefl _ less
  · exact (nodup_map_iff_inj_on nodup_range).mpr fun i here j there same =>
      injective i (mem_range.mp here) j (mem_range.mp there) same
  · rw [mem_allocated replicated available apart fresh ok, mem_map]
    simp only [mem_range, eq_comm]

end Routed

/-- Each hash is routed to the tablet of its bucket. -/
theorem allocated_routes (s t : PersistentRaft) (ids : Nat → TabletId) (cubeId : CubeId)
    (tabletPartition : String) (bucketCount : UInt32) (nodes : List UInt64) (replication : Nat)
    (returned : List TabletInfo) (buckets : bucketCount ≠ 0) (replicated : 1 ≤ replication)
    (available : nodes ≠ []) (distinct : nodes.Nodup)
    (apart : ∀ i < bucketCount.toNat, ∀ j < bucketCount.toNat, ids i = ids j → i = j)
    (fresh : listForPartition codec s cubeId tabletPartition = [])
    (ok : allocateForCube c codec s ids cubeId tabletPartition bucketCount nodes replication =
      (t, .ok returned)) :
    (∀ hash, ∃ tablet, route codec t cubeId tabletPartition hash bucketCount = some (some tablet) ∧
      tablet.cubeId = cubeId ∧ tablet.tabletPartition = tabletPartition ∧
      tablet.bucket.toNat = hash.toNat % bucketCount.toNat ∧
      tablet.snNodes.length = min replication nodes.length ∧ tablet.snNodes.Nodup ∧
      (∀ n ∈ tablet.snNodes, n ∈ nodes) ∧ tablet.leaderSn ∈ tablet.snNodes) ∧
    ∀ a ∈ nodes, ∀ b ∈ nodes,
      ((listForPartition codec t cubeId tabletPartition).flatMap TabletInfo.snNodes).count a ≤
        ((listForPartition codec t cubeId tabletPartition).flatMap TabletInfo.snNodes).count b + 1 := by
  have positive : 0 < bucketCount.toNat :=
    Nat.pos_of_ne_zero fun zero => buckets (UInt32.toNat_inj.mp zero)
  constructor
  · intro hash
    have inside := Nat.mod_lt hash.toNat positive
    have member := fun tablet => mem_allocated replicated available apart fresh ok tablet
    rw [route, if_neg buckets]
    cases found : (listForPartition codec t cubeId tabletPartition).find? fun t =>
        t.bucket == UInt32.ofNat (hash.toNat % bucketCount.toNat) with
    | none =>
      have all := find?_eq_none.mp found _ ((member _).mpr ⟨_, inside, rfl⟩)
      simp [tabletAt] at all
    | some tablet =>
      obtain ⟨i, bound, rfl⟩ := (member tablet).mp (mem_of_find?_eq_some found)
      have bucket := find?_some found
      have same : i = hash.toNat % bucketCount.toNat := by
        have words := congrArg UInt32.toNat (eq_of_beq bucket)
        have small := bucketCount.toNat_lt
        simp only [tabletAt, UInt32.toNat_ofNat'] at words
        rwa [Nat.mod_eq_of_lt (by omega), Nat.mod_eq_of_lt (by omega)] at words
      have chosen := bucketNodes_eq available (min replication nodes.length) i
      have size := length_rounds available (i * min replication nodes.length)
        (min replication nodes.length)
      refine ⟨tabletAt ids cubeId tabletPartition nodes (min replication nodes.length) i,
        congrArg some found, rfl, rfl, ?_, ?_, ?_, ?_, ?_⟩
      · rw [← same]
        simp only [tabletAt, UInt32.toNat_ofNat']
        exact Nat.mod_eq_of_lt (by have small := bucketCount.toNat_lt; omega)
      · simp only [tabletAt, chosen, size]
      · simp only [tabletAt, chosen]
        exact nodup_rounds distinct (Nat.min_le_right _ _) _
      · simp only [tabletAt, chosen]
        exact fun n => mem_of_mem_rounds
      · simp only [tabletAt, chosen]
        have some := length_pos_iff.mpr available
        generalize rounds nodes _ _ = list at size ⊢
        cases list with
        | nil => simp at size; omega
        | cons leader rest => exact mem_cons_self
  · intro a inA b inB
    have all : ((listForPartition codec t cubeId tabletPartition).flatMap TabletInfo.snNodes).Perm
        (rounds nodes 0 (bucketCount.toNat * min replication nodes.length)) := by
      rw [← flatMap_bucketNodes available]
      have perm := allocated_perm replicated available apart fresh ok
      have flat := perm.flatMap_right TabletInfo.snNodes
      rwa [flatMap_map] at flat
    rw [all.count_eq, all.count_eq]
    have shareA := count_rounds_ge distinct inA 0 (bucketCount.toNat * min replication nodes.length)
    have shareB := count_rounds_ge distinct inB 0 (bucketCount.toNat * min replication nodes.length)
    omega

theorem allocated_routes_two_nodes :
    ∃ t returned, allocateForCube jsonSnapshot jsonTablet (.opened jsonSnapshot 1 "data" none)
        (fun i => BitVec.ofNat 128 i) 7 "p" 3 [1, 2] 1 = (t, .ok returned) ∧
      ∃ tablet, route jsonTablet t 7 "p" 11 3 = some (some tablet) ∧ tablet.bucket.toNat = 2 := by
  refine ⟨_, _, allocateBuckets_eq _ _ _ _ _ (by decide) _ _ _, ?_⟩
  have routes := allocated_routes jsonSnapshot jsonTablet (.opened jsonSnapshot 1 "data" none) _
    (fun i => BitVec.ofNat 128 i) 7 "p" 3 [1, 2] 1 _ (by decide) (by decide) (by decide) (by decide)
    (by decide) rfl (allocateBuckets_eq _ _ _ _ _ (by decide) _ _ _)
  obtain ⟨tablet, routed, -, -, bucket, -⟩ := routes.1 11
  exact ⟨tablet, routed, bucket⟩

end TabletManager
end WowDb.Query
