import WowDb.System.ReadOnlyHandler

/-!
# DELETE

`DELETE FROM t` with or without a condition, through the whole of `on_query`. The text is a grammar
of its own (`DeleteStatement`): keywords in any case, blanks, a table that may be quoted, a condition
that may be any text, whose meaning is a parameter. The branch looks at the last word only.
-/
namespace WowDb.System.MysqlHandler
open WowDb.Lib WowDb.Query WowDb.System.ReadYourWrites List

/-- A keyword in any case. -/
structure Keyword (word : String) where
  text : List Char
  ascii : ∀ c ∈ text, c.toNat < 128
  spells : text.map Char.toLower = word.toList

structure Blanks where
  text : List Char
  blank : ∀ c ∈ text, Text.isWhitespace c = true

/-- What follows the table: nothing that matters, or a condition. -/
inductive DeleteEnd where
  | everyRow (ending : List Char) (stops : ∀ c ∈ ending, Text.isWhitespace c = true ∨ c = ';')
  | onlyRows (gap : Blanks) (keyword : Keyword "where") (space : Blanks) (condition : List Char)

def DeleteEnd.text : DeleteEnd → List Char
  | .everyRow ending _ => ending
  | .onlyRows gap keyword space condition => gap.text ++ keyword.text ++ space.text ++ condition

/-- The rows that the statement names, by the meaning of conditions. -/
def DeleteEnd.selects {ν : Type} (truth : List Char → Row ν → Bool) : DeleteEnd → Row ν → Bool
  | .everyRow _ _, _ => true
  | .onlyRows _ _ _ condition, row => truth condition row

/-- `DELETE FROM t`, maybe with a condition. -/
structure DeleteStatement where
  before : Blanks
  verb : Keyword "delete"
  gap : Blanks
  apart : gap.text ≠ []
  preposition : Keyword "from"
  space : Blanks
  quoted : Bool
  table : String
  ending : DeleteEnd

def DeleteStatement.name (d : DeleteStatement) : List Char :=
  if d.quoted then '`' :: d.table.toList ++ ['`'] else d.table.toList

def DeleteStatement.text (d : DeleteStatement) : List Char :=
  d.before.text ++ (d.verb.text ++ (d.gap.text ++ d.preposition.text ++ d.space.text ++ d.name ++
    d.ending.text))

/-- The doomed rows of the table are gone, and nothing else is. -/
def DeletesExactly {ν : Type} (doomed : Row ν → Bool) (table : String) (m n : InMemoryStore ν) :
    Prop :=
  n.scan table = (m.scan table).filter (fun row => !doomed row) ∧
    ∀ other, other ≠ table → n.scan other = m.scan other

variable {ν σ : Type} (P : Platform ν) (V : Services ν σ)

/-- The table that the DELETE branch drops: the last word of the text. -/
def deleteTarget (sql : List Char) : String :=
  String.ofList (Text.trimEndMatches ';'
    ((Text.words (V.case.toLowercase (Text.trim sql))).getLast?.getD []))

/-- Whether `on_query` answers a DELETE with OK or rows: the guard refuses and the parser of other
statements complains, the commands that only read reply for themselves, and the rest says OK. -/
def answersDelete (s : Handler ν) (sql : List Char) : Bool :=
  match branch V s sql with
  | .refused | .unrecognised => false
  | .schema command => (V.schemaReply command s.sm s.currentDb sql).succeeds
  | .analytics => (V.analyticsReply s.node.memStore (effectiveSql V s sql)).succeeds
  | _ => true

/-- The rows that go are those that were to go. -/
def HitsItsRows (s : Handler ν) (sql : List Char) (table : String) (doomed : Row ν → Bool) : Prop :=
  if branch V s sql = .deleteFrom ∧ deleteTarget V sql = table then
    ∀ row ∈ s.node.memStore.scan table, doomed row = true
  else
    (∀ row ∈ s.node.memStore.scan table, doomed row = false) ∧
      (branch V s sql = .deleteFrom → s.node.memStore.scan (deleteTarget V sql) = [])

theorem solid_of_lower : ∀ n : Fin 128, (Char.ofNat n).toLower ∈ "delete".toList →
    Text.isWhitespace (Char.ofNat n) = false := by
  decide

theorem DeleteStatement.begins_delete (d : DeleteStatement) {C : CaseMapping} (lowers : C.LowersAscii) :
    "delete".toList <+: C.toLowercase (Text.trim d.text) := by
  have solid : ∀ c ∈ d.verb.text, Text.isWhitespace c = false := by
    intro c member
    have lowered : c.toLower ∈ "delete".toList := d.verb.spells ▸ mem_map_of_mem member
    exact CaseMapping.of_ascii (P := fun c => c.toLower ∈ "delete".toList →
      Text.isWhitespace c = false) solid_of_lower (d.verb.ascii c member) lowered
  obtain ⟨rest, trimmed⟩ : d.verb.text <+: Text.trim d.text := by
    rw [Text.trim, DeleteStatement.text, Text.trimStart_append d.before.blank,
      Text.trimStart_of_solid solid]
    · exact Text.prefix_trimEnd solid _
    · intro empty
      have spells := d.verb.spells
      rw [empty] at spells
      cases spells
  rw [← trimmed, ← d.verb.spells]
  exact lowers d.verb.text rest d.verb.ascii

theorem firstAsciiWord_ne {text : List Char} (word : String) (begins : "delete".toList <+: text)
    (other : word.toList.head? ≠ some 'd') : (Text.firstAsciiWord text == word.toList) = false := by
  obtain ⟨rest, rfl⟩ := begins
  rw [beq_eq_false_iff_ne]
  intro same
  have first := congrArg head? same
  exact other first.symm

/-- A rewritten statement is no SELECT. -/
def KeepsVerb (s : Handler ν) (sql : List Char) : Prop :=
  ∀ text, V.route s.registry sql = .rewritten text →
    Text.firstAsciiWord (V.case.toLowercase (Text.trim text)) ≠ "select".toList

/-- The tests of the chain that a text with the verb DELETE fails. -/
def otherTests : List String :=
  ["use ", "set ", "create database", "create schema", "drop database", "drop schema", "select ",
    "create cube", "drop cube", "drop table", "alter cube", "alter table"]

theorem not_starts_of_delete {text : List Char} (begins : "delete".toList <+: text) :
    ∀ test ∈ otherTests, starts test text = false := by
  obtain ⟨rest, rfl⟩ := begins
  intro test member
  simp only [otherTests, mem_cons, not_mem_nil, or_false] at member
  rcases member with rfl | rfl | rfl | rfl | rfl | rfl | rfl | rfl | rfl | rfl | rfl | rfl <;> rfl

/-- The branches that these tests lead to. -/
def Branch.byOtherVerb : Branch → Bool
  | useDatabase | set | createDatabase | dropDatabase | systemVariables | createCube | dropCube
  | alterCube | insert | select => true
  | _ => false

theorem branch_byOtherVerb {s : Handler ν} {sql : List Char}
    (begins : "delete".toList <+: V.case.toLowercase (Text.trim sql)) (keeps : KeepsVerb V s sql) :
    (branch V s sql).byOtherVerb = false := by
  have notInsert := firstAsciiWord_ne "insert" begins (by decide)
  have notSelect : (Text.firstAsciiWord (V.case.toLowercase (Text.trim (effectiveSql V s sql))) ==
      "select".toList) = false := by
    unfold effectiveSql
    split
    · rename_i text routed
      simp only [routing] at routed
      split at routed
      · exact beq_eq_false_iff_ne.mpr (keeps text routed)
      · cases routed
    · exact firstAsciiWord_ne "select" begins (by decide)
  have test := not_starts_of_delete begins
  unfold branch
  simp only [notInsert, notSelect, test "use " (by decide), test "set " (by decide),
    test "create database" (by decide), test "create schema" (by decide),
    test "drop database" (by decide), test "drop schema" (by decide), test "select " (by decide),
    test "create cube" (by decide), test "drop cube" (by decide), test "drop table" (by decide),
    test "alter cube" (by decide), test "alter table" (by decide), Bool.false_and, Bool.or_self,
    Bool.false_eq_true, if_false]
  repeat' split
  all_goals rfl

theorem memStore_onQuery (R : Reactions ν) {s : Handler ν} {sql : List Char}
    (begins : "delete".toList <+: V.case.toLowercase (Text.trim sql)) (keeps : KeepsVerb V s sql) :
    (onQuery P V R s sql).1.node.memStore =
      if branch V s sql = .deleteFrom then s.node.memStore.dropTable (deleteTarget V sql)
      else s.node.memStore := by
  obtain ⟨warnings, pushed⟩ := pushWarning_eq V s sql
  have verb := branch_byOtherVerb V begins keeps
  unfold onQuery
  cases taken : branch V s sql with
  | useDatabase | set | createDatabase | dropDatabase | systemVariables | createCube | dropCube
  | alterCube | insert | select =>
    rw [taken] at verb
    cases verb
  | deleteFrom | analytics | unrecognised =>
    simp only [pushed]
    rfl
  | sessionMv =>
    simp only [sessionMv]
    split <;> rfl
  | showWarnings | refused | showDatabases | schema command | selectOne => rfl

def Branch.isRefused : Branch → Bool
  | refused => true
  | _ => false

theorem not_succeeds_refusal {s : Handler ν} {sql : List Char} (taken : branch V s sql = .refused) :
    (refusal V s).succeeds = false := by
  cases allowed : checkWriteAllowed V.percent s.guard with
  | error e => simp [refusal, allowed, Reply.succeeds]
  | ok allows =>
    -- the guard lets the statement through, so the chain does not stop at it
    have passed : ((checkWriteAllowed V.percent s.guard).toBool == false) = false := by
      rw [allowed]
      rfl
    have elsewhere : (branch V s sql).isRefused = false := by
      unfold branch
      simp only [passed, Bool.and_false, Bool.false_eq_true, if_false]
      cases schemaCommand V s.sm sql with
      | none | some command =>
        simp only [apply_ite Branch.isRefused]
        simp only [Branch.isRefused, ite_self]
    rw [taken] at elsewhere
    cases elsewhere

theorem succeeds_onQuery (R : Reactions ν) {s : Handler ν} {sql : List Char}
    (begins : "delete".toList <+: V.case.toLowercase (Text.trim sql)) (keeps : KeepsVerb V s sql) :
    (onQuery P V R s sql).2.succeeds = answersDelete V s sql := by
  have verb := branch_byOtherVerb V begins keeps
  unfold onQuery answersDelete
  cases taken : branch V s sql with
  | useDatabase | set | createDatabase | dropDatabase | systemVariables | createCube | dropCube
  | alterCube | insert | select =>
    rw [taken] at verb
    cases verb
  | refused => exact not_succeeds_refusal V taken
  | unrecognised =>
    simp only [unrecognised]
    split <;> rfl
  | deleteFrom | analytics | sessionMv | showWarnings | showDatabases | schema command
  | selectOne => rfl

section Stores

variable {ν : Type} (m : InMemoryStore ν)

theorem deletesExactly_self_iff (doomed : Row ν → Bool) (table : String) :
    DeletesExactly doomed table m m ↔ ∀ row ∈ m.scan table, doomed row = false := by
  simp [DeletesExactly, eq_comm (a := m.scan table), filter_eq_self]

theorem deletesExactly_dropTable_iff (doomed : Row ν → Bool)
    (table target : String) : DeletesExactly doomed table m (m.dropTable target) ↔
      if target = table then ∀ row ∈ m.scan table, doomed row = true
      else (∀ row ∈ m.scan table, doomed row = false) ∧ m.scan target = [] := by
  by_cases same : target = table
  · subst same
    rw [if_pos rfl]
    unfold DeletesExactly
    simp only [InMemoryStore.scan_dropTable, if_true]
    rw [eq_comm, filter_eq_nil_iff]
    constructor
    · rintro ⟨gone, -⟩ row member
      simpa using gone row member
    · intro all
      exact ⟨fun row member => by simp [all row member], fun other apart => if_neg apart⟩
  · rw [if_neg same]
    unfold DeletesExactly
    simp only [InMemoryStore.scan_dropTable, if_neg (Ne.symm same)]
    rw [eq_comm, filter_eq_self]
    constructor
    · rintro ⟨kept, others⟩
      have empty := others target same
      rw [if_pos rfl] at empty
      exact ⟨fun row member => by simpa using kept row member, empty.symm⟩
    · rintro ⟨stays, empty⟩
      refine ⟨fun row member => by simp [stays row member], fun other _ => ?_⟩
      split
      · rename_i hit
        rw [hit, empty]
      · rfl

end Stores

/-- A DELETE that is answered with success deletes exactly the rows it names exactly when the rows
that go are those that were to go; for every statement, store and meaning of conditions. -/
theorem deletesExactly_iff_hitsItsRows (R : Reactions ν) (s : Handler ν) (d : DeleteStatement)
    (truth : List Char → Row ν → Bool) (lowers : V.case.LowersAscii) (keeps : KeepsVerb V s d.text) :
    ((onQuery P V R s d.text).2.succeeds = true →
      DeletesExactly (d.ending.selects truth) d.table s.node.memStore
        (onQuery P V R s d.text).1.node.memStore) ↔
      (answersDelete V s d.text = true →
        HitsItsRows V s d.text d.table (d.ending.selects truth)) := by
  rw [succeeds_onQuery P V R (d.begins_delete lowers) keeps,
    memStore_onQuery P V R (d.begins_delete lowers) keeps]
  refine imp_congr_right fun _ => ?_
  unfold HitsItsRows
  by_cases reached : branch V s d.text = .deleteFrom
  · simp only [reached, if_true, true_and, forall_const]
    exact deletesExactly_dropTable_iff ..
  · simp only [reached, if_false, false_and, false_implies, and_true]
    exact deletesExactly_self_iff ..

def Blanks.one : Blanks := ⟨[' '], List.all_eq_true.mp rfl⟩

def deleteFromT (ending : DeleteEnd) : DeleteStatement where
  before := ⟨[], nofun⟩
  verb := ⟨"DELETE".toList, List.all_iff_forall_prop.mp rfl, rfl⟩
  gap := .one
  apart := by decide
  preposition := ⟨"FROM".toList, List.all_iff_forall_prop.mp rfl, rfl⟩
  space := .one
  quoted := false
  table := "t"
  ending := ending

def semicolon : DeleteEnd := .everyRow [';'] (List.all_iff_forall_prop.mp rfl)

def whereX : DeleteEnd :=
  .onlyRows .one ⟨"WHERE".toList, List.all_iff_forall_prop.mp rfl, rfl⟩ .one "v = 'x'".toList

def isX (_ : List Char) (row : Row Int) : Bool := row.get? "v" == some (.string "x")

def twoRows : Handler Int where
  sm := .default
  registry := .new
  guard := .default
  currentDb := "default"
  pendingWarnings := []
  node := { start [] with memStore := InMemoryStore.new.insertAll "t" [oneText "x", oneText "y"] }

theorem keepsVerb_plain (s : Handler Int) (sql : List Char) : KeepsVerb plainServices s sql :=
  fun _ rewritten => by cases rewritten

theorem delete_all_of_t :
    (onQuery integers plainServices noNodes twoRows (deleteFromT semicolon).text).2 = .ok 0 ∧
      DeletesExactly (fun _ => true) "t" twoRows.node.memStore
        (onQuery integers plainServices noNodes twoRows
          (deleteFromT semicolon).text).1.node.memStore := by
  have reached : branch plainServices twoRows (deleteFromT semicolon).text = .deleteFrom := by
    decide +kernel
  have answered : (onQuery integers plainServices noNodes twoRows (deleteFromT semicolon).text).2 =
      .ok 0 := by
    simp only [onQuery, reached, deleteFrom]
  refine ⟨answered, (deletesExactly_iff_hitsItsRows integers plainServices noNodes twoRows
    (deleteFromT semicolon) isX CaseMapping.lowersAscii_ascii (keepsVerb_plain _ _)).mpr
    (fun _ => ?_) (by rw [answered]; rfl)⟩
  have target : deleteTarget plainServices (deleteFromT semicolon).text = "t" := by decide +kernel
  rw [HitsItsRows, if_pos ⟨reached, target⟩]
  intro row _
  rfl

/-- `DELETE FROM t WHERE v = 'x'` is answered with OK and deletes nothing. -/
theorem delete_where_keeps_row :
    (onQuery integers plainServices noNodes twoRows (deleteFromT whereX).text).2 = .ok 0 ∧
      deleteTarget plainServices (deleteFromT whereX).text = "'x'" ∧
      (onQuery integers plainServices noNodes twoRows (deleteFromT whereX).text).1.node.memStore.scan
        "t" = [oneText "x", oneText "y"] ∧
      ¬ DeletesExactly (whereX.selects isX) "t" twoRows.node.memStore
        (onQuery integers plainServices noNodes twoRows (deleteFromT whereX).text).1.node.memStore := by
  have reached : branch plainServices twoRows (deleteFromT whereX).text = .deleteFrom := by
    decide +kernel
  have target : deleteTarget plainServices (deleteFromT whereX).text = "'x'" := by decide +kernel
  have rows : twoRows.node.memStore.scan "t" = [oneText "x", oneText "y"] := by
    rw [twoRows, InMemoryStore.scan_insertAll, if_pos rfl]
    rfl
  have store : (onQuery integers plainServices noNodes twoRows
      (deleteFromT whereX).text).1.node.memStore = twoRows.node.memStore.dropTable "'x'" := by
    rw [memStore_onQuery integers plainServices noNodes
      ((deleteFromT whereX).begins_delete CaseMapping.lowersAscii_ascii) (keepsVerb_plain _ _),
      if_pos reached, target]
  have kept : (onQuery integers plainServices noNodes twoRows
      (deleteFromT whereX).text).1.node.memStore.scan "t" = [oneText "x", oneText "y"] := by
    rw [store, InMemoryStore.scan_dropTable, if_neg (by decide), rows]
  refine ⟨by simp only [onQuery, reached, deleteFrom], target, kept, fun exactly => ?_⟩
  have doomed : whereX.selects isX (oneText "x") = true := by decide +kernel
  have gone := exactly.1
  rw [kept, rows] at gone
  have stays := filter_eq_self.mp gone.symm (oneText "x") mem_cons_self
  simp [doomed] at stays

end WowDb.System.MysqlHandler
