import WowDb.Lib.Run
import WowDb.Query.GlobalDict
import WowDb.Query.Tablet

/-!
# Altering and dropping cubes

`query-node/src/meta/alter_cube.rs`, `drop_cube.rs` and the lookups of `cube.rs`.
-/
namespace WowDb.Query
open WowDb.Lib List

variable {δ ρ : Type}

structure ColumnDef (δ : Type) where
  name : String
  dataType : δ
  nullable : Bool
  deriving DecidableEq

structure CubeSchema (δ ρ : Type) where
  cubeId : CubeId
  name : String
  columns : List (ColumnDef δ)
  partitionKey : String
  sortKey : List String
  distribution : String
  ttlPolicy : Option UInt32
  rest : ρ
  deriving DecidableEq

inductive AlterCubeAction
  | addColumn (name dataType : String) (nullable : Bool)
  | dropColumn (name : String)
  | addIndex (name : String) (columns : List String) (indexType : String)
  | dropIndex (name : String)
  | modifyTtl (days : UInt32)

namespace CubeManager

variable (stored : List (CubeSchema δ ρ))

def list : List (CubeSchema δ ρ) :=
  stored.insertionSort fun a b => a.name ≤ b.name

def getByName (name : String) : Option (CubeSchema δ ρ) :=
  (list stored).find? (·.name == name)

theorem of_getByName {stored : List (CubeSchema δ ρ)} {name : String} {schema : CubeSchema δ ρ}
    (found : getByName stored name = some schema) : schema ∈ stored ∧ schema.name = name := by
  rw [getByName] at found
  exact ⟨(perm_insertionSort _ stored).mem_iff.mp (mem_of_find?_eq_some found),
    by simpa using find?_some found⟩

end CubeManager

/-- The schemas in the metadata, by the text of their id. -/
abbrev CubeStore (δ ρ : Type) := OrdMap String (CubeSchema δ ρ)

def CubeStore.schemas (store : CubeStore δ ρ) : List (CubeSchema δ ρ) := store.entries.map Prod.snd

namespace AlterCubeHandler
open CubeManager

variable (parseDataType : String → Except String δ)

def addColumn (schema : CubeSchema δ ρ) (name dataType : String) (nullable : Bool) :
    Except String (CubeSchema δ ρ) :=
  if schema.columns.any (·.name == name) then
    .error ("Column '" ++ name ++ "' already exists in cube '" ++ schema.name ++ "'")
  else (parseDataType dataType).map fun parsed =>
    { schema with columns := schema.columns ++ [⟨name, parsed, nullable⟩] }

def dropColumn (schema : CubeSchema δ ρ) (name : String) : Except String (CubeSchema δ ρ) :=
  let columns := schema.columns.filter (·.name != name)
  if columns.length = schema.columns.length then
    .error ("Column '" ++ name ++ "' not found in cube '" ++ schema.name ++ "'")
  else if schema.sortKey.any (· == name) then .error ("Cannot drop Sort Key column '" ++ name ++ "'")
  else .ok { schema with columns }

def alter (schema : CubeSchema δ ρ) : AlterCubeAction → Except String (Option (CubeSchema δ ρ))
  | .addColumn name dataType nullable =>
    (addColumn parseDataType schema name dataType nullable).map some
  | .dropColumn name => (dropColumn schema name).map some
  | .addIndex _ _ _ | .dropIndex _ => .ok none
  | .modifyTtl days => .ok (some { schema with ttlPolicy := if days > 0 then some days else none })

def persist (store : CubeStore δ ρ) (schema : CubeSchema δ ρ) : CubeStore δ ρ :=
  store.insert (uuidText schema.cubeId) schema

def execute (store : CubeStore δ ρ) (name : String) (action : AlterCubeAction) :
    CubeStore δ ρ × Except String Unit :=
  match getByName store.schemas name with
  | none => (store, .error ("Cube '" ++ name ++ "' not found"))
  | some schema => match alter parseDataType schema action with
    | .error e => (store, .error e)
    | .ok none => (store, .ok ())
    | .ok (some altered) => (persist store altered, .ok ())

def step (store : CubeStore δ ρ) (call : String × AlterCubeAction) : Option (CubeStore δ ρ) :=
  match execute parseDataType store call.1 call.2 with
  | (after, .ok ()) => some after
  | (_, .error _) => none

end AlterCubeHandler

/-- The columns have distinct names, and every column that is referred to is there. -/
def CubeSchema.Consistent (s : CubeSchema δ ρ) : Prop :=
  (s.columns.map (·.name)).Nodup ∧
    ∀ name ∈ s.partitionKey :: s.distribution :: s.sortKey, name ∈ s.columns.map (·.name)

namespace AlterCubeHandler
open CubeManager

def Consistent (store : CubeStore δ ρ) : Prop := ∀ s ∈ store.schemas, s.Consistent

/-- The call does not drop a column that the cube is partitioned or distributed by. -/
def KeepsReferences (store : CubeStore δ ρ) (call : String × AlterCubeAction) : Prop :=
  ∀ name, call.2 = .dropColumn name → ∀ s, getByName store.schemas call.1 = some s →
    name ≠ s.partitionKey ∧ name ≠ s.distribution

variable {parseDataType : String → Except String δ} {store after : CubeStore δ ρ}
  {schema altered : CubeSchema δ ρ}

theorem mem_schemas : schema ∈ store.schemas ↔ ∃ key, store.get? key = some schema := by
  simp only [CubeStore.schemas, mem_map, Prod.exists, exists_eq_right, OrdMap.mem_entries_iff]

theorem consistent_persist (consistent : Consistent store) :
    Consistent (persist store schema) ↔ schema.Consistent := by
  constructor
  · intro all
    exact all schema (mem_schemas.mpr ⟨_, (OrdMap.get?_insert ..).trans (if_pos rfl)⟩)
  · intro good s inside
    obtain ⟨key, there⟩ := mem_schemas.mp inside
    rcases OrdMap.get?_insert_or there with old | rfl
    · exact consistent s (mem_schemas.mpr ⟨key, old⟩)
    · exact good

theorem addColumn_consistent {name dataType : String} {nullable : Bool} (good : schema.Consistent)
    (done : addColumn parseDataType schema name dataType nullable = .ok altered) :
    altered.Consistent := by
  rw [addColumn] at done
  split at done
  · cases done
  · next fresh =>
    cases parsed : parseDataType dataType with
    | error e =>
      rw [parsed] at done
      cases done
    | ok type =>
      rw [parsed] at done
      cases done
      refine ⟨?_, fun key member => ?_⟩
      · rw [map_append]
        exact nodup_append_comm.mp (nodup_cons.mpr ⟨by simpa using fresh, good.1⟩)
      · rw [map_append]
        exact mem_append_left _ (good.2 key member)

theorem dropColumn_consistent_iff {name : String} (good : schema.Consistent)
    (done : dropColumn schema name = .ok altered) :
    altered.Consistent ↔ name ≠ schema.partitionKey ∧ name ≠ schema.distribution := by
  simp only [dropColumn] at done
  split at done
  · cases done
  · split at done
    · cases done
    · next unsorted =>
      cases done
      have kept : ∀ key ∈ schema.columns.map (·.name),
          (key ∈ (schema.columns.filter (·.name != name)).map (·.name) ↔ name ≠ key) := by
        intro key there
        obtain ⟨column, inside, rfl⟩ := mem_map.mp there
        simp only [mem_map, mem_filter, bne_iff_ne]
        constructor
        · rintro ⟨_, ⟨_, other⟩, same⟩
          exact same ▸ other.symm
        · intro other
          exact ⟨column, ⟨inside, other.symm⟩, rfl⟩
      simp only [any_eq_true, beq_iff_eq, exists_eq_right] at unsorted
      constructor
      · intro still
        exact ⟨(kept _ (good.2 _ (by simp))).mp (still.2 _ (by simp)),
          (kept _ (good.2 _ (by simp))).mp (still.2 _ (by simp))⟩
      · rintro ⟨other, another⟩
        refine ⟨good.1.sublist (filter_sublist.map _), fun key member => ?_⟩
        refine (kept key (good.2 key member)).mpr ?_
        rcases mem_cons.mp member with rfl | member
        · exact other
        · rcases mem_cons.mp member with rfl | member
          · exact another
          · rintro rfl
            exact unsorted member

theorem ok_of_map_some {α : Type} {result : Except String α} {value : Option α}
    (done : result.map some = .ok value) : ∃ a, result = .ok a ∧ value = some a := by
  cases result with
  | error e => cases done
  | ok a => exact ⟨a, rfl, (Except.ok.inj done).symm⟩

theorem alter_consistent_iff {action : AlterCubeAction} {value : Option (CubeSchema δ ρ)}
    (good : schema.Consistent) (done : alter parseDataType schema action = .ok value) :
    (∀ s ∈ value, s.Consistent) ↔ ∀ name, action = .dropColumn name →
      name ≠ schema.partitionKey ∧ name ≠ schema.distribution := by
  cases action with
  | addColumn name dataType nullable =>
    obtain ⟨s, added, rfl⟩ := ok_of_map_some done
    refine iff_of_true (fun _ same => ?_) nofun
    cases same
    exact addColumn_consistent good added
  | dropColumn name =>
    obtain ⟨s, dropped, rfl⟩ := ok_of_map_some done
    simpa using dropColumn_consistent_iff good dropped
  | addIndex | dropIndex =>
    cases done
    exact iff_of_true nofun nofun
  | modifyTtl days =>
    cases done
    refine iff_of_true (fun _ same => ?_) nofun
    cases same
    exact good

theorem consistent_step {call : String × AlterCubeAction} (consistent : Consistent store)
    (stepped : step parseDataType store call = some after) :
    Consistent after ↔ KeepsReferences store call := by
  rw [step, execute] at stepped
  cases found : getByName store.schemas call.1 with
  | none => simp [found] at stepped
  | some schema =>
    simp only [found] at stepped
    cases done : alter parseDataType schema call.2 with
    | error e => simp [done] at stepped
    | ok value =>
      have exactly := alter_consistent_iff (consistent schema (of_getByName found).1) done
      simp only [done] at stepped
      simp only [KeepsReferences, found, Option.some.injEq, forall_eq', ← exactly]
      cases value with
      | none =>
        cases stepped
        exact iff_of_true consistent nofun
      | some s =>
        cases stepped
        simpa using consistent_persist consistent

/-- Schemas that are consistent stay so over successful calls exactly when no call drops a column that
its cube is partitioned or distributed by. -/
theorem alter_cube_consistent_iff (parseDataType : String → Except String δ) (store : CubeStore δ ρ)
    (calls : List (String × AlterCubeAction)) :
    Run.EveryState (step parseDataType) Consistent store calls ↔
      Consistent store ∧ Run.EveryStep (step parseDataType) KeepsReferences store calls := by
  have steps (start : Consistent store) : Run.EveryState (step parseDataType) Consistent store calls ↔
      Run.EveryStep (step parseDataType) KeepsReferences store calls :=
    Run.everyState_iff_everyStep (G := fun _ _ => True) (fun _ => True) (fun _ _ _ _ _ _ => trivial)
      (fun _ _ _ _ _ good stepped => consistent_step good stepped) calls store trivial start
      (Run.everyStep_of_forall (fun _ _ => trivial) store calls)
  constructor
  · intro all
    have start := all [] store List.nil_prefix rfl
    exact ⟨start, (steps start).mp all⟩
  · rintro ⟨start, keeps⟩
    exact (steps start).mpr keeps

def visits : CubeSchema Unit Unit :=
  ⟨7, "visits", [⟨"day", (), false⟩, ⟨"user", (), false⟩], "day", [], "user", none, ()⟩

theorem partition_column_dropped : Consistent (OrdMap.empty.insert (uuidText 7) visits) ∧
    ¬Run.EveryState (step fun _ => .ok ()) Consistent (OrdMap.empty.insert (uuidText 7) visits)
      [("visits", .dropColumn "day")] := by
  refine ⟨?_, fun all => ?_⟩
  · simp [Consistent, CubeStore.schemas, CubeSchema.Consistent, visits, OrdMap.insert, OrdMap.empty,
      OrdMap.insertEntry]
  · have last := all _ _ (prefix_refl _) rfl
    have bad := last { visits with columns := [⟨"user", (), false⟩] }
      (mem_schemas.mpr ⟨uuidText 7, by decide +kernel⟩)
    exact absurd (bad.2 "day" (by simp [visits])) (by simp)

end AlterCubeHandler

namespace GlobalDictManager

def deleteEntry (m : GlobalDictManager) (e : String × String) : GlobalDictManager :=
  ⟨{ m.raft with sm := m.raft.sm.apply (.deleteKv e.1) },
    m.cache.erase (String.ofList (e.1.toList.drop dictKvPrefix.length))⟩

def dropCubeDicts (m : GlobalDictManager) (cubeName : String) : GlobalDictManager :=
  (m.raft.scanPrefix (dictKvPrefix ++ cubeName ++ "/")).foldl deleteEntry m

theorem get?_deleted (entries : List (String × String)) (m : GlobalDictManager) (key : String) :
    (entries.foldl deleteEntry m).raft.sm.kv.get? key =
      if key ∈ entries.map Prod.fst then none else m.raft.sm.kv.get? key := by
  induction entries generalizing m with
  | nil => rfl
  | cons e rest ih =>
    have here : (m.deleteEntry e).raft.sm.kv.get? key =
        if key = e.1 then none else m.raft.sm.kv.get? key := OrdMap.get?_erase ..
    rw [foldl_cons, ih, map_cons, here]
    by_cases later : key ∈ rest.map Prod.fst <;> by_cases same : key = e.1 <;> simp [later, same]

theorem get?_dropCubeDicts (m : GlobalDictManager) (cubeName key : String) :
    (m.dropCubeDicts cubeName).raft.sm.kv.get? key =
      if (dictKvPrefix ++ cubeName ++ "/").toList <+: key.toList then none
      else m.raft.sm.kv.get? key := by
  rw [dropCubeDicts, get?_deleted]
  cases there : m.raft.sm.kv.get? key with
  | none => simp
  | some value =>
    have same : key ∈ (m.raft.scanPrefix (dictKvPrefix ++ cubeName ++ "/")).map Prod.fst ↔
        (dictKvPrefix ++ cubeName ++ "/").toList <+: key.toList := by
      simp only [mem_map, Prod.exists, exists_and_right, exists_eq_right, RaftManager.mem_scanPrefix,
        there, Option.some.injEq, exists_and_right, exists_eq', true_and]
    simp only [same]

end GlobalDictManager

namespace DropCubeHandler
open CubeManager GlobalDictManager

variable (readCube : String → Option (CubeSchema δ ρ)) (tablets : TabletCodec)

/-- The schema in an entry. -/
def cubeEntry (e : String × String) : Option (CubeSchema δ ρ) :=
  if "cube:".toList.isPrefixOf e.1.toList then readCube e.2 else none

variable (sm : MetaStateMachine)

def schemas : List (CubeSchema δ ρ) :=
  sm.kv.entries.filterMap (cubeEntry readCube)

def execute (cubeName : String) (ifExists : Bool) : MetaStateMachine × Except String Unit :=
  match getByName (schemas readCube sm) cubeName with
  | none => (sm, if ifExists then .ok () else .error ("Cube '" ++ cubeName ++ "' not found"))
  | some schema => (sm.apply (.dropCube (uuidText schema.cubeId)), .ok ())

variable (m : GlobalDictManager) (cubeName : String) (ifExists : Bool)

/-- The metadata after the cube and its dictionaries are dropped. -/
def dropped : OrdMap String String :=
  let sm := (execute readCube m.raft.sm cubeName ifExists).1
  (dropCubeDicts { m with raft := { m.raft with sm } } cubeName).raft.sm.kv

/-- The entries of a cube: its schema, its tablets and the dictionaries of its columns. -/
inductive Belongs (id : CubeId) (key value : String) : Prop
  | cube (s : CubeSchema δ ρ) (read : cubeEntry readCube (key, value) = some s)
      (named : s.name = cubeName)
  | tablet (t : TabletInfo) (starts : "tablet:".toList <+: key.toList)
      (read : tablets.fromStr value = some t) (owned : t.cubeId = id)
  | dict (column : String) (named : key = dictKvPrefix ++ colId cubeName column)

/-- Nothing of an existing cube is left, and nothing else has changed. -/
def DropsExactly : Prop :=
  ∀ s, getByName (schemas readCube m.raft.sm) cubeName = some s → ∀ key value,
    ((dropped readCube m cubeName ifExists).get? key = some value →
      ¬Belongs readCube tablets cubeName s.cubeId key value) ∧
    (¬Belongs readCube tablets cubeName s.cubeId key value →
      ((dropped readCube m cubeName ifExists).get? key = some value ↔
        m.raft.sm.kv.get? key = some value))

/-- The cube has one schema, under its own key, no tablets and no dictionaries, and no dictionary's key
continues the name of the cube with a slash. -/
def OnlySchema : Prop :=
  ∀ s, getByName (schemas readCube m.raft.sm) cubeName = some s → ∀ key value,
    m.raft.sm.kv.get? key = some value →
      (Belongs readCube tablets cubeName s.cubeId key value → key = "cube:" ++ uuidText s.cubeId) ∧
      ¬(dictKvPrefix ++ cubeName ++ "/").toList <+: key.toList

variable {readCube tablets m cubeName}

theorem get?_dropped {s : CubeSchema δ ρ}
    (found : getByName (schemas readCube m.raft.sm) cubeName = some s) (key : String) :
    (dropped readCube m cubeName ifExists).get? key =
      if (dictKvPrefix ++ cubeName ++ "/").toList <+: key.toList ∨ key = "cube:" ++ uuidText s.cubeId
      then none else m.raft.sm.kv.get? key := by
  have erased : (execute readCube m.raft.sm cubeName ifExists).1.kv.get? key =
      if key = "cube:" ++ uuidText s.cubeId then none else m.raft.sm.kv.get? key := by
    rw [execute, found]
    exact OrdMap.get?_erase ..
  rw [dropped, get?_dropCubeDicts, erased]
  by_cases slash : (dictKvPrefix ++ cubeName ++ "/").toList <+: key.toList
  · rw [if_pos slash, if_pos (.inl slash)]
  · simp only [slash, if_false, false_or]

theorem not_belongs_of_slash {id : CubeId} {key value : String}
    (slash : (dictKvPrefix ++ cubeName ++ "/").toList <+: key.toList) :
    ¬Belongs readCube tablets cubeName id key value := by
  obtain ⟨rest, eq⟩ := slash
  simp only [dictKvPrefix, String.toList_append, append_assoc] at eq
  intro belongs
  cases belongs with
  | cube s read named =>
    rw [cubeEntry, ← eq] at read
    cases read
  | tablet t starts read owned =>
    obtain ⟨more, same⟩ := starts
    rw [← same] at eq
    cases eq
  | dict column named =>
    rw [named] at eq
    simp [dictKvPrefix, colId] at eq

end DropCubeHandler
end WowDb.Query
