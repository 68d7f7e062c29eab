import WowDb.Lib.CaseMapping
import WowDb.Lib.F64
import WowDb.Query.Raft

/-!
# The read-only state of the cluster

The state of `query-node/src/meta/cluster_guard.rs`, its replicated copy, and the tests that the
write paths make of it.
-/
namespace WowDb.Query
open WowDb.Lib

inductive ReadOnlyReason where
  | diskFull (nodeId path : String) (usage : F64)
  | manualOverride (admin : String) (comment : Option String)
  deriving DecidableEq

def ReadOnlyReason.sameSource : ReadOnlyReason → ReadOnlyReason → Bool
  | .diskFull n₁ p₁ _, .diskFull n₂ p₂ _ => n₁ == n₂ && p₁ == p₂
  | .manualOverride a₁ c₁, .manualOverride a₂ c₂ => a₁ == a₂ && c₁ == c₂
  | _, _ => false

structure ClusterReadOnlyState where
  enabled : Bool
  reasons : List ReadOnlyReason
  enteredAt : Option Int
  updatedAt : Int

namespace ClusterReadOnlyState

def default : ClusterReadOnlyState := ⟨false, [], none, 0⟩

def addReason (state : ClusterReadOnlyState) (reason : ReadOnlyReason) (enteredAt updatedAt : Int) :
    ClusterReadOnlyState where
  enabled := true
  reasons := state.reasons.filter (fun r => !r.sameSource reason) ++ [reason]
  enteredAt := if state.enabled then state.enteredAt else some enteredAt
  updatedAt := updatedAt

def removeReason (state : ClusterReadOnlyState) (reason : ReadOnlyReason) (updatedAt : Int) :
    ClusterReadOnlyState :=
  let reasons := state.reasons.filter fun r => !r.sameSource reason
  if reasons.isEmpty then ⟨false, reasons, none, updatedAt⟩ else { state with reasons }

def diskFullSummary (percent : F64 → String) (state : ClusterReadOnlyState) : String :=
  let diskReasons := state.reasons.filterMap fun
    | .diskFull nodeId path usage => some (nodeId ++ ":" ++ path ++ " (" ++ percent usage ++ "%)")
    | .manualOverride _ _ => none
  if diskReasons.isEmpty then "manual override" else ", ".intercalate diskReasons

end ClusterReadOnlyState

structure ReadOnlyError where
  reasons : List ReadOnlyReason
  summary : String

def ReadOnlyError.mysqlMessage (e : ReadOnlyError) : String :=
  "The WOW-DB server is running in read-only mode so it cannot execute this statement. " ++
    "Disk usage: " ++ e.summary ++
    ". Admin can override with: SET GLOBAL wowdb_read_only = OFF;"

def checkWriteAllowed (percent : F64 → String) (state : ClusterReadOnlyState) :
    Except ReadOnlyError Unit :=
  if state.enabled then .error ⟨state.reasons, state.diskFullSummary percent⟩ else .ok ()

def ReadOnlyReason.withoutUsage : ReadOnlyReason → ReadOnlyReason
  | .diskFull nodeId path _ => .diskFull nodeId path .nan
  | .manualOverride admin comment => .manualOverride admin comment

def ReadOnlyReason.finite : ReadOnlyReason → Bool
  | .diskFull _ _ (.finite _) => true
  | .diskFull _ _ _ => false
  | .manualOverride _ _ => true

structure GuardCodec where
  toJson : ClusterReadOnlyState → String
  fromJson : String → Option ClusterReadOnlyState
  readable : ∀ state, state.reasons.all (·.finite) = true → ∃ restored,
    fromJson (toJson state) = some restored ∧ restored.enabled = state.enabled ∧
      restored.reasons.map (·.withoutUsage) = state.reasons.map (·.withoutUsage) ∧
      restored.enteredAt = state.enteredAt ∧ restored.updatedAt = state.updatedAt
  unreadable : ∀ state, state.reasons.all (·.finite) = false → fromJson (toJson state) = none

def readOnlyStateKey : String := "/cluster/read_only_state"

namespace GuardJson
open Json

def usageToJson : F64 → Json
  | .finite units => ofNat units
  | _ => .null

def usageFromJson (v : Json) : Option F64 := (asNat v).map .finite

def reasonToJson : ReadOnlyReason → Json
  | .diskFull nodeId path usage => record [("DiskFull", record
      [("node_id", ofString nodeId), ("path", ofString path), ("usage", usageToJson usage)])]
  | .manualOverride admin comment => record [("ManualOverride", record
      [("admin", ofString admin), ("comment", ofOption ofString comment)])]

def reasonFromJson (v : Json) : Option ReadOnlyReason :=
  match field "DiskFull" v, field "ManualOverride" v with
  | some body, _ => do
    let nodeId ← (← field "node_id" body) |> asString
    let path ← (← field "path" body) |> asString
    let usage ← (← field "usage" body) |> usageFromJson
    some (.diskFull nodeId path usage)
  | none, some body => do
    let admin ← (← field "admin" body) |> asString
    let comment ← asOption asString ((field "comment" body).getD .null)
    some (.manualOverride admin comment)
  | none, none => none

theorem reasonFromJson_reasonToJson (r : ReadOnlyReason) :
    reasonFromJson (reasonToJson r) = if r.finite then some r else none := by
  cases r with
  | diskFull nodeId path usage =>
    have number : usageFromJson (usageToJson usage) =
        if (ReadOnlyReason.diskFull nodeId path usage).finite then some usage else none := by
      cases usage with
      | finite units => simp [usageToJson, usageFromJson, ReadOnlyReason.finite]
      | infinity => rfl
      | nan => rfl
    generalize (ReadOnlyReason.diskFull nodeId path usage).finite = readable at number ⊢
    cases readable <;> simp [reasonFromJson, reasonToJson, field_record, List.lookup, number]
  | manualOverride admin comment =>
    simp [reasonFromJson, reasonToJson, field_record, List.lookup, ReadOnlyReason.finite]

def stateToJson (state : ClusterReadOnlyState) : Json :=
  record [("enabled", .bool state.enabled), ("reasons", ofList reasonToJson state.reasons),
    ("entered_at", ofOption .num state.enteredAt), ("updated_at", .num state.updatedAt)]

def stateFromJson (v : Json) : Option ClusterReadOnlyState := do
  let enabled ← (← field "enabled" v) |> asBool
  let reasons ← (← field "reasons" v) |> asList reasonFromJson
  let enteredAt ← asOption asInt ((field "entered_at" v).getD .null)
  let updatedAt ← (← field "updated_at" v) |> asInt
  some ⟨enabled, reasons, enteredAt, updatedAt⟩

def toJson (state : ClusterReadOnlyState) : String := String.ofList (Json.print (stateToJson state))

def fromJson (text : String) : Option ClusterReadOnlyState :=
  (Json.parse text.toList).bind stateFromJson

theorem fromJson_toJson (state : ClusterReadOnlyState) :
    fromJson (toJson state) = if state.reasons.all (·.finite) then some state else none := by
  have reasons := asList_ofList_ite reasonFromJson_reasonToJson state.reasons
  rw [fromJson, toJson, String.toList_ofList, Json.parse_print, Option.bind_some]
  generalize state.reasons.all (·.finite) = readable at reasons ⊢
  cases readable <;>
    simp [stateFromJson, stateToJson, field_record, List.lookup, reasons, asBool, asInt]

end GuardJson

def jsonGuard : GuardCodec where
  toJson := GuardJson.toJson
  fromJson := GuardJson.fromJson
  readable state finite := ⟨state, by rw [GuardJson.fromJson_toJson, if_pos finite], rfl, rfl, rfl, rfl⟩
  unreadable state infinite := by rw [GuardJson.fromJson_toJson, infinite]; rfl

def writeKeywords : List String :=
  ["INSERT", "UPDATE", "DELETE", "CREATE", "ALTER", "DROP", "TRUNCATE", "LOAD", "REPLACE"]

def isWriteStatement (C : CaseMapping) (sql : List Char) : Bool :=
  let upper := C.toUppercase (Text.trimStart sql)
  writeKeywords.any fun keyword => keyword.toList.isPrefixOf upper

theorem isWriteStatement_of_lower (C : CaseMapping) {sql : List Char} {keyword : String}
    (listed : keyword ∈ ["insert", "delete", "create", "alter", "drop", "truncate"])
    (starts : keyword.toList <+: C.toLowercase (Text.trim sql)) :
    isWriteStatement C sql = true := by
  obtain ⟨tail, whole⟩ := Text.trimEnd_prefix (Text.trimStart sql)
  have facts : ∀ word ∈ ["insert", "delete", "create", "alter", "drop", "truncate"],
      (word.toList.all fun l => decide (l.toNat < 128 ∧ l ≠ 'k')) = true ∧
      word.toList.getLast? ≠ some 'i' ∧
      ∃ upper ∈ writeKeywords, word.toList.map Char.toUpper = upper.toList := by
    decide
  obtain ⟨letters, ends, upper, isKeyword, raised⟩ := facts keyword listed
  rw [List.all_eq_true] at letters
  have raisedStarts := C.upper_of_lower tail (fun l mem => of_decide_eq_true (letters l mem)) ends
    starts
  rw [Text.trim, whole, raised] at raisedStarts
  exact List.any_eq_true.mpr ⟨upper, isKeyword, List.isPrefixOf_iff_prefix.mpr raisedStarts⟩

open List

def ReadOnlyReason.ofNode (nodeId : String) : ReadOnlyReason → Bool
  | .diskFull n _ _ => n == nodeId
  | .manualOverride _ _ => false

def ReadOnlyReason.isAt (nodeId path : String) : ReadOnlyReason → Bool
  | .diskFull n p _ => n == nodeId && p == path
  | .manualOverride _ _ => false

theorem ReadOnlyReason.sameSource_diskFull (r : ReadOnlyReason) (nodeId path : String) (usage : F64) :
    r.sameSource (.diskFull nodeId path usage) = r.isAt nodeId path := by
  cases r <;> rfl

def ClusterReadOnlyState.Consistent (state : ClusterReadOnlyState) : Prop :=
  state.enabled = !state.reasons.isEmpty

theorem ClusterReadOnlyState.consistent_addReason (state : ClusterReadOnlyState) (reason : ReadOnlyReason)
    (enteredAt updatedAt : Int) : (state.addReason reason enteredAt updatedAt).Consistent := by
  simp [Consistent, addReason]

theorem ClusterReadOnlyState.consistent_removeReason {state : ClusterReadOnlyState}
    (consistent : state.Consistent) (reason : ReadOnlyReason) (updatedAt : Int) :
    (state.removeReason reason updatedAt).Consistent := by
  unfold Consistent at consistent ⊢
  simp only [removeReason]
  split
  · rename_i none
    simp [none]
  · rename_i left
    have some : state.reasons.isEmpty = false := by
      cases empty : state.reasons with
      | nil => simp [empty] at left
      | cons r rest => rfl
    simp only [Bool.not_eq_true] at left
    simp only [left, consistent, some]

theorem ClusterReadOnlyState.mem_removeReason (state : ClusterReadOnlyState) (reason r : ReadOnlyReason)
    (updatedAt : Int) : r ∈ (state.removeReason reason updatedAt).reasons ↔
      r ∈ state.reasons ∧ r.sameSource reason = false := by
  have kept : (state.removeReason reason updatedAt).reasons =
      state.reasons.filter fun r => !r.sameSource reason := by
    simp only [removeReason]
    split <;> rfl
  simp [kept]

structure ClusterGuard where
  state : ClusterReadOnlyState
  raft : MetaStateMachine

namespace ClusterGuard

variable (codec : GuardCodec)

def new (raft : MetaStateMachine) : ClusterGuard := ⟨.default, raft⟩

def loadFromRaft (g : ClusterGuard) : ClusterGuard :=
  match (g.raft.get readOnlyStateKey).bind codec.fromJson with
  | some state => { g with state }
  | none => g

def replicate (g : ClusterGuard) (state : ClusterReadOnlyState) : ClusterGuard :=
  ⟨state, g.raft.apply (.upsertKv readOnlyStateKey (codec.toJson state))⟩

def addReason (g : ClusterGuard) (reason : ReadOnlyReason) (enteredAt updatedAt : Int) : ClusterGuard :=
  g.replicate codec (g.state.addReason reason enteredAt updatedAt)

def removeReason (g : ClusterGuard) (reason : ReadOnlyReason) (updatedAt : Int) : ClusterGuard :=
  g.replicate codec (g.state.removeReason reason updatedAt)

def setManualReadOnly (g : ClusterGuard) (admin : String) (comment : Option String)
    (enteredAt updatedAt : Int) : ClusterGuard :=
  g.addReason codec (.manualOverride admin comment) enteredAt updatedAt

def clearManualReadOnly (g : ClusterGuard) (admin : String) (force : Bool) (updatedAt : Int) :
    ClusterGuard × Except String String :=
  let hasDiskFull := g.state.reasons.any fun
    | .diskFull _ _ _ => true
    | .manualOverride _ _ => false
  if hasDiskFull && !force then
    (g, .error "디스크 DiskFull reason이 존재합니다. 디스크 공간 확보 후 재시도하거나 FORCE 옵션을 사용하세요.")
  else
    (g.removeReason codec (.manualOverride admin none) updatedAt,
      .ok ("Read-Only 모드 해제됨 (admin: " ++ admin ++ ")"))

variable {codec}

structure Sound (codec : GuardCodec) (g : ClusterGuard) : Prop where
  consistent : g.state.Consistent
  stored : ∀ json, g.raft.get readOnlyStateKey = some json →
    ∃ state : ClusterReadOnlyState, state.Consistent ∧ codec.toJson state = json

variable (g : ClusterGuard)

theorem get_replicate (state : ClusterReadOnlyState) :
    (g.replicate codec state).raft.get readOnlyStateKey = some (codec.toJson state) := by
  simp [replicate, MetaStateMachine.get, MetaStateMachine.apply, OrdMap.get?_insert]

theorem sound_replicate {state : ClusterReadOnlyState} (consistent : state.Consistent) :
    Sound codec (g.replicate codec state) := by
  refine ⟨consistent, fun json found => ⟨state, consistent, ?_⟩⟩
  rw [get_replicate] at found
  exact Option.some.inj found

theorem sound_addReason (reason : ReadOnlyReason) (enteredAt updatedAt : Int) :
    Sound codec (g.addReason codec reason enteredAt updatedAt) :=
  sound_replicate g (g.state.consistent_addReason reason enteredAt updatedAt)

theorem Sound.removeReason {g : ClusterGuard} (sound : Sound codec g) (reason : ReadOnlyReason)
    (updatedAt : Int) : Sound codec (g.removeReason codec reason updatedAt) :=
  sound_replicate g (ClusterReadOnlyState.consistent_removeReason sound.consistent reason updatedAt)

theorem Sound.clearManualReadOnly {g : ClusterGuard} (sound : Sound codec g) (admin : String)
    (force : Bool) (updatedAt : Int) :
    Sound codec (g.clearManualReadOnly codec admin force updatedAt).1 := by
  simp only [ClusterGuard.clearManualReadOnly]
  split
  · exact sound
  · exact sound.removeReason _ _

theorem sound_loadFromRaft {raft : MetaStateMachine}
    (stored : ∀ json, raft.get readOnlyStateKey = some json →
      ∃ state : ClusterReadOnlyState, state.Consistent ∧ codec.toJson state = json) :
    Sound codec ((new raft).loadFromRaft codec) := by
  have fresh : Sound codec (new raft) := ⟨rfl, stored⟩
  unfold loadFromRaft
  split
  · rename_i restored found
    refine ⟨?_, stored⟩
    obtain ⟨json, present, parsed⟩ := Option.bind_eq_some_iff.mp found
    obtain ⟨state, consistent, rfl⟩ := stored json present
    cases numbers : state.reasons.all (·.finite) with
    | false => simp [codec.unreadable state numbers] at parsed
    | true =>
      obtain ⟨again, read, enabled, reasons, -, -⟩ := codec.readable state numbers
      obtain rfl : again = restored := Option.some.inj (read.symm.trans parsed)
      have lengths := congrArg isEmpty reasons
      simp only [isEmpty_map] at lengths
      rw [ClusterReadOnlyState.Consistent, enabled, consistent, lengths]
  · exact fresh

end ClusterGuard

end WowDb.Query
