import WowDb.System.MysqlHandler

/-!
# The read-only guard of the handler

With the guard on, `on_query` refuses a statement that `is_write_statement` recognises by its first
keyword. The branches behind it that write all the same are the session views, which test no guard,
and a SELECT that stores the rows it fetched.
-/
namespace WowDb.System.MysqlHandler
open WowDb.Lib WowDb.Query WowDb.System.ReadYourWrites

variable {ν σ : Type} (P : Platform ν) (V : Services ν σ)

/-- Metadata, registry and rows are as before; the nodes are the same. -/
structure Unchanged (s t : Handler ν) : Prop where
  sm : t.sm = s.sm
  registry : t.registry = s.registry
  rows : ∀ table, t.node.memStore.scan table = s.node.memStore.scan table
  nodes : t.node.pool.map (·.node) = s.node.pool.map (·.node)

/-- What the nodes answer is what MEM_STORE has. -/
def AnswersKnown (n : QueryNode ν) (froms : List From) (compute : Option (List (List (Row ν)))) :
    Prop :=
  if n.pool.isEmpty then
    match froms, compute with
    | (table, _) :: _, some batches => cnRows batches = n.memStore.scan table
    | _, _ => True
  else
    ∀ table rows, lastMerged table (scans P froms n.pool).1 = some rows →
      rows = n.memStore.scan table

/-- Views are stored as they stand, and SELECTs known. -/
def WritesNothing (R : Reactions ν) (s : Handler ν) (sql : List Char) : Prop :=
  match branch V s sql with
  | .sessionMv =>
    s.sm.get ("smv:" ++ mvName V sql) = some (String.ofList sql) ∧
      (sourceCube V sql = "" ∨ s.registry.Registered V.case V.order (behavioralTable V sql))
  | .select => AnswersKnown P s.node (selectFroms V R (effectiveSql V s sql)) R.compute
  | _ => True

/-- The branches that a keyword of the text leads to. -/
def Branch.byKeyword : Branch → Bool
  | createDatabase | dropDatabase | createCube | dropCube | alterCube | insert | deleteFrom => true
  | _ => false

def keywordTests : List String :=
  ["create database", "create schema", "drop database", "drop schema", "create cube", "drop cube",
    "drop table", "alter cube", "alter table", "delete from", "truncate"]

theorem exists_keyword : ∀ test ∈ keywordTests,
    ∃ keyword ∈ ["insert", "delete", "create", "alter", "drop", "truncate"],
      keyword.toList <+: test.toList := by
  decide

theorem not_starts {sql : List Char} (harmless : isWriteStatement V.case sql = false)
    {test : String} (mem : test ∈ keywordTests) :
    starts test (V.case.toLowercase (Text.trim sql)) = false := by
  cases found : starts test (V.case.toLowercase (Text.trim sql)) with
  | false => rfl
  | true =>
    obtain ⟨keyword, listed, longer⟩ := exists_keyword test mem
    have begins := List.isPrefixOf_iff_prefix.mp found
    rw [isWriteStatement_of_lower V.case listed (longer.trans begins)] at harmless
    cases harmless

theorem not_insert {sql : List Char} (harmless : isWriteStatement V.case sql = false) :
    (Text.firstAsciiWord (V.case.toLowercase (Text.trim sql)) == "insert".toList) = false := by
  rw [beq_eq_false_iff_ne]
  intro isInsert
  cases trimmed : Text.trim sql with
  | nil =>
    rw [trimmed, V.case.toLowercase_nil] at isInsert
    exact absurd isInsert (by decide)
  | cons c text =>
    have begins : Text.firstAsciiWord (V.case.toLowercase (c :: text)) <+: _ :=
      V.case.firstAsciiWord_prefix (Text.isWhitespace_of_trim trimmed)
    rw [← trimmed, isInsert] at begins
    rw [isWriteStatement_of_lower V.case (by decide) begins] at harmless
    cases harmless

theorem branch_byKeyword {s : Handler ν} (readOnly : s.guard.enabled = true) (sql : List Char) :
    (branch V s sql).byKeyword = false := by
  have closed : (checkWriteAllowed V.percent s.guard).toBool = false := by
    simp [checkWriteAllowed, readOnly, Except.toBool]
  unfold branch
  cases harmless : isWriteStatement V.case sql with
  | true =>
    simp only [closed, BEq.rfl, Bool.and_self, if_true]
    split
    · rfl
    split
    · rfl
    split <;> rfl
  | false =>
    have test : ∀ test ∈ keywordTests, starts test (V.case.toLowercase (Text.trim sql)) = false :=
      fun _ mem => not_starts V harmless mem
    -- what is left of the chain are the tests that are no keywords
    simp only [test "create database" (by decide), test "create schema" (by decide),
      test "drop database" (by decide), test "drop schema" (by decide),
      test "create cube" (by decide), test "drop cube" (by decide), test "drop table" (by decide),
      test "alter cube" (by decide), test "alter table" (by decide),
      test "delete from" (by decide), test "truncate" (by decide), not_insert V harmless,
      Bool.false_and, Bool.or_self, Bool.false_eq_true, if_false]
    repeat' split
    all_goals rfl

variable (s : Handler ν)

theorem pushWarning_eq (sql : List Char) :
    ∃ warnings, pushWarning V s sql = { s with pendingWarnings := warnings } := by
  unfold pushWarning
  split
  · exact ⟨_, rfl⟩
  · exact ⟨_, rfl⟩

theorem unchanged_useDatabase (sql : List Char) : Unchanged s (useDatabase s sql).1 := by
  unfold useDatabase
  split
  · exact ⟨rfl, rfl, fun _ => rfl, rfl⟩
  · exact ⟨rfl, rfl, fun _ => rfl, rfl⟩

theorem apply_upsertKv_eq_iff (sm : MetaStateMachine) (key value : String) :
    sm.apply (.upsertKv key value) = sm ↔ sm.get key = some value := by
  obtain ⟨kv⟩ := sm
  rw [MetaStateMachine.get, ← OrdMap.insert_eq_self_iff]
  exact MetaStateMachine.mk.injEq _ _ ▸ Iff.rfl

theorem unchanged_sessionMv_iff (sql : List Char) :
    Unchanged s (sessionMv V s sql) ↔ s.sm.get ("smv:" ++ mvName V sql) = some (String.ofList sql) ∧
        (sourceCube V sql = "" ∨ s.registry.Registered V.case V.order (behavioralTable V sql)) := by
  have stored := apply_upsertKv_eq_iff s.sm ("smv:" ++ mvName V sql) (String.ofList sql)
  have registered := s.registry.register_updateState_eq_iff V.case V.order (behavioralTable V sql)
  unfold sessionMv
  by_cases noSource : (sourceCube V sql).isEmpty = true
  · rw [if_pos noSource]
    constructor
    · intro unchanged
      exact ⟨stored.mp unchanged.sm, .inl (String.isEmpty_iff.mp noSource)⟩
    · rintro ⟨known, -⟩
      exact ⟨stored.mpr known, rfl, fun _ => rfl, rfl⟩
  · rw [if_neg noSource]
    constructor
    · intro unchanged
      exact ⟨stored.mp unchanged.sm, .inr (registered.mp unchanged.registry)⟩
    · rintro ⟨known, empty | there⟩
      · exact absurd (String.isEmpty_iff.mpr empty) noSource
      · exact ⟨stored.mpr known, registered.mpr there, fun _ => rfl, rfl⟩

theorem select_keeps_rows_iff (n : QueryNode ν) (froms : List From)
    (compute : Option (List (List (Row ν)))) :
    (∀ table, (executeSelect P n froms compute).memStore.scan table = n.memStore.scan table) ↔
      AnswersKnown P n froms compute := by
  unfold executeSelect AnswersKnown
  by_cases alone : n.pool.isEmpty = true
  · simp only [if_pos alone]
    cases froms with
    | nil => exact iff_of_true (fun _ => rfl) trivial
    | cons first rest =>
      obtain ⟨table, _⟩ := first
      cases compute with
      | none => exact iff_of_true (fun _ => rfl) trivial
      | some batches =>
        constructor
        · intro kept
          have answer := kept table
          rwa [scan_replaceTable, if_pos rfl] at answer
        · intro answer other
          rw [scan_replaceTable]
          split
          · next same => rw [same, answer]
          · rfl
  · simp only [alone, Bool.false_eq_true, if_false]
    constructor
    · intro kept table rows merged
      have answer := kept table
      rwa [scan_refreshAll, merged, Option.getD_some] at answer
    · intro answer table
      rw [scan_refreshAll]
      cases merged : lastMerged table (scans P froms n.pool).1 with
      | none => rfl
      | some rows => exact answer table rows merged

/-- Exactly if the statement writes nothing. -/
theorem readOnly_unchanged_iff (R : Reactions ν) (s : Handler ν)
    (readOnly : s.guard.enabled = true) (sql : List Char) :
    Unchanged s (onQuery P V R s sql).1 ↔ WritesNothing P V R s sql := by
  obtain ⟨warnings, pushed⟩ := pushWarning_eq V s sql
  have closed := branch_byKeyword V readOnly sql
  have same : Unchanged s s := ⟨rfl, rfl, fun _ => rfl, rfl⟩
  unfold onQuery WritesNothing
  cases taken : branch V s sql with
  | createDatabase | dropDatabase | createCube | dropCube | alterCube | insert | deleteFrom =>
    rw [taken] at closed
    cases closed
  | sessionMv => exact unchanged_sessionMv_iff V s sql
  | select =>
    simp only [pushed]
    rw [← select_keeps_rows_iff]
    constructor
    · intro unchanged
      exact unchanged.rows
    · intro kept
      exact ⟨rfl, rfl, kept, executeSelect_nodes P _ _ _⟩
  | useDatabase => exact iff_of_true (unchanged_useDatabase s sql) trivial
  | analytics | unrecognised =>
    simp only [pushed]
    exact iff_of_true ⟨rfl, rfl, fun _ => rfl, rfl⟩ trivial
  | showWarnings => exact iff_of_true ⟨rfl, rfl, fun _ => rfl, rfl⟩ trivial
  | set | refused | showDatabases | schema command | selectOne | systemVariables =>
    exact iff_of_true same trivial

def plainServices : Services Int Unit where
  case := .ascii
  order := .ascending
  percent _ := ""
  decodeCube _ := none
  cubeName _ := ""
  cubeId _ := ""
  cubeColumns _ := []
  distColumn _ := ""
  parseCreateCube _ := .error "syntax error"
  parseAlterCube _ := .error "syntax error"
  parseInsert _ _ := .error "syntax error"
  statementLabel _ := none
  route _ _ := .event
  schemaReply _ _ _ _ := .rows [] []
  systemVariables _ := .rows [] []
  selectReply _ _ := .rows [] []
  analyticsReply _ _ := .rows [] []

def noNodes : Reactions Int := ⟨fun _ => ⟨false, .ok⟩, fun _ _ => ⟨false, .ok⟩, none, fun _ pool => pool⟩

def readOnlyNode : Handler Int where
  sm := .default
  registry := .new
  guard := ⟨true, [.manualOverride "root" none], some 0, 0⟩
  currentDb := "default"
  pendingWarnings := []
  node := start []

theorem readOnly_insert_refused : readOnlyNode.guard.enabled = true ∧
      Unchanged readOnlyNode (onQuery integers plainServices noNodes readOnlyNode
        "INSERT INTO t VALUES (1)".toList).1 := by
  refine ⟨rfl, (readOnly_unchanged_iff integers plainServices noNodes readOnlyNode rfl _).mpr ?_⟩
  have refused : branch plainServices readOnlyNode "INSERT INTO t VALUES (1)".toList = .refused := by
    decide +kernel
  unfold WritesNothing
  rw [refused]
  trivial

theorem refresh_creates_view : readOnlyNode.guard.enabled = true ∧
      isWriteStatement .ascii "REFRESH SESSION MATERIALIZED VIEW v ON c".toList = false ∧
      (onQuery integers plainServices noNodes readOnlyNode
        "REFRESH SESSION MATERIALIZED VIEW v ON c".toList).1.sm.get "smv:v" =
          some "REFRESH SESSION MATERIALIZED VIEW v ON c" ∧
      ¬ Unchanged readOnlyNode (onQuery integers plainServices noNodes readOnlyNode
        "REFRESH SESSION MATERIALIZED VIEW v ON c".toList).1 := by
  have created : (onQuery integers plainServices noNodes readOnlyNode
      "REFRESH SESSION MATERIALIZED VIEW v ON c".toList).1.sm.get "smv:v" =
        some "REFRESH SESSION MATERIALIZED VIEW v ON c" := by
    decide +kernel
  refine ⟨rfl, by decide +kernel, created, fun unchanged => ?_⟩
  rw [unchanged.sm] at created
  cases created

end WowDb.System.MysqlHandler
