import WowDb.Query.BtRegistry
import WowDb.Query.ClusterGuard
import WowDb.System.ReadYourWrites

/-!
# The MySQL handler

`on_query` of `query-node/src/mysql_protocol/handler.rs` with the recogniser of `schema_cmds.rs`: the
chain of tests on the text decides the branch, and the branch what happens to the metadata, the
tables and the nodes. The SQL parser, the replies of the read-only commands and the reactions of the
storage nodes are parameters (`Services`, `Reactions`); a reply is OK, an error with its kind and
message, rows, or a panic of the handler.
-/
namespace WowDb.System.MysqlHandler
open WowDb.Lib WowDb.Query WowDb.System.ReadYourWrites

inductive ErrorKind where
  | optionPreventsStatement | parseError | dbDropExists | tableExistsError | badTableError
  | notSupportedYet | unknownError
  deriving DecidableEq

/-- What the client gets. -/
inductive Reply where
  | ok (affectedRows : Nat)
  | error (kind : ErrorKind) (message : String)
  | rows (columns : List String) (rows : List (List (Option String)))
  | panicked

/-- The statement is answered with OK or with rows. -/
def Reply.succeeds : Reply → Bool
  | ok _ | rows _ _ => true
  | error _ _ | panicked => false

inductive SchemaCommand where
  | useDatabase | set | explain | showDatabases | showTables | showCreate | describe
  | showColumns | showCubes | showPartitions | showShards | showParts | showDistributed
  | showIndex | showProcesslist | informationSchema | analyze | showStatus
  deriving DecidableEq

/-- What the behavioural router makes of a text. -/
inductive Routing where
  | event
  | rewritten (sql : List Char)
  | kept (guidance : Option String)

structure CreateCube where
  name : String
  schema : String → String × String

structure AlterCube (σ : Type) where
  name : String
  change : σ → Except String (Option String)

/-- What `on_query` calls: case mapping, parsers, the router and the replies of commands that only
read. -/
structure Services (ν σ : Type) where
  case : CaseMapping
  order : HashIteration String Unit
  percent : F64 → String
  decodeCube : String → Option σ
  cubeName : σ → String
  cubeId : σ → String
  cubeColumns : σ → List String
  distColumn : σ → String
  parseCreateCube : List Char → Except String CreateCube
  parseAlterCube : List Char → Except String (Option (AlterCube σ))
  parseInsert : List Char → Option (List String) → Except String (String × List (Row ν))
  statementLabel : List Char → Option String
  route : BtRegistry → List Char → Routing
  schemaReply : SchemaCommand → MetaStateMachine → String → List Char → Reply
  systemVariables : List Char → Reply
  selectReply : InMemoryStore ν → List Char → Reply
  analyticsReply : InMemoryStore ν → List Char → Reply

/-- What the storage and compute nodes answer during one statement. -/
structure Reactions (ν : Type) where
  writes : Nat → Attempt WriteReply
  scans : Nat → Nat → Attempt ScanReply
  compute : Option (List (List (Row ν)))
  truncate : String → List Endpoint → List Endpoint

/-- The state behind a connection. -/
structure Handler (ν : Type) where
  sm : MetaStateMachine
  registry : BtRegistry
  guard : ClusterReadOnlyState
  currentDb : String
  pendingWarnings : List String
  node : QueryNode ν

variable {ν σ : Type} (P : Platform ν) (V : Services ν σ)

def cubes (sm : MetaStateMachine) : List σ :=
  ((sm.kv.entries.filter fun e => "cube:".toList.isPrefixOf e.1.toList).filterMap
    fun e => V.decodeCube e.2).insertionSort fun a b => V.cubeName a ≤ V.cubeName b

def getByName (sm : MetaStateMachine) (name : String) : Option σ :=
  (cubes V sm).find? fun cube => V.cubeName cube = name

def starts (word : String) (text : List Char) : Bool := word.toList.isPrefixOf text

def mentions (text : List Char) (word : String) : Bool := Text.contains text word.toList

def extractLastToken (sql : List Char) : String :=
  String.ofList (Text.trimMatches '"' (Text.trimMatches '`' (Text.trimEndMatches ';'
    ((Text.words sql).getLast?.getD []))))

def schemaCommand (sm : MetaStateMachine) (sql : List Char) : Option SchemaCommand :=
  let trimmed := Text.trim sql
  let upper := V.case.toUppercase trimmed
  if starts "USE " upper then some .useDatabase
  else if starts "SET " upper then some .set
  else if starts "EXPLAIN " upper || upper == "EXPLAIN".toList then some .explain
  else if upper == "SHOW DATABASES".toList || upper == "SHOW DATABASES;".toList then
    some .showDatabases
  else if starts "SHOW TABLES" upper then some .showTables
  else if starts "SHOW CREATE TABLE" upper || starts "SHOW CREATE CUBE" upper then some .showCreate
  else if starts "DESCRIBE " upper || starts "DESC " upper then some .describe
  -- an unknown cube goes on to the tests below
  else if (starts "SHOW COLUMNS FROM" upper || starts "SHOW FULL COLUMNS FROM" upper) &&
      (getByName V sm (extractLastToken trimmed)).isSome then some .showColumns
  else if starts "SHOW CUBES" upper then some .showCubes
  else if starts "SHOW PARTITIONS FROM" upper ||
      starts "SHOW PARTITIONS" upper && mentions upper " FROM " then some .showPartitions
  else if starts "SHOW SHARDS FROM" upper ||
      starts "SHOW SHARDS" upper && mentions upper " FROM " then some .showShards
  else if starts "SHOW PARTS" upper then some .showParts
  else if starts "SHOW DISTRIBUTED STATUS" upper ||
      starts "SHOW DISTRIBUTED" upper && mentions upper "STATUS" then some .showDistributed
  else if starts "SHOW INDEX FROM" upper || starts "SHOW INDEXES FROM" upper ||
      starts "SHOW KEYS FROM" upper then some .showIndex
  else if starts "SHOW PROCESSLIST" upper || starts "SHOW FULL PROCESSLIST" upper then
    some .showProcesslist
  else if mentions upper "INFORMATION_SCHEMA" || mentions upper "INFORMATION SCHEMA" then
    some .informationSchema
  else if starts "ANALYZE TABLE" upper || starts "ANALYZE CUBE" upper then some .analyze
  else if starts "SHOW STATUS" upper || starts "SHOW VARIABLES" upper ||
      starts "SHOW GLOBAL" upper ||
      starts "SHOW SESSION" upper && !mentions upper "MATERIALIZED" && !mentions upper "VIEW" then
    some .showStatus
  else none

def isAnalytics (lower : List Char) : Bool :=
  mentions lower "funnel_count(" || mentions lower "cohort_analysis(" ||
    mentions lower "path_analysis("

def routing (s : Handler ν) (sql : List Char) : Routing :=
  let lower := V.case.toLowercase (Text.trim sql)
  if Text.firstAsciiWord lower == "select".toList || isAnalytics lower then V.route s.registry sql
  else .event

def effectiveSql (s : Handler ν) (sql : List Char) : List Char :=
  match routing V s sql with
  | .rewritten text => text
  | _ => sql

/-- The branches of `on_query`. -/
inductive Branch where
  | useDatabase | set | showWarnings | refused | createDatabase | dropDatabase | showDatabases
  | schema (command : SchemaCommand)
  | selectOne | systemVariables | sessionMv | createCube | dropCube | alterCube | insert
  | analytics | select | deleteFrom | unrecognised
  deriving DecidableEq

/-- The chain of tests, in its order. -/
def branch (s : Handler ν) (sql : List Char) : Branch :=
  let lower := V.case.toLowercase (Text.trim sql)
  let lowerExec := V.case.toLowercase (Text.trim (effectiveSql V s sql))
  let bare := Text.trimEndMatches ';' lower
  if starts "use " lower then .useDatabase
  else if starts "set " lower then .set
  else if bare == "show warnings".toList then .showWarnings
  else if isWriteStatement V.case sql && (checkWriteAllowed V.percent s.guard).toBool == false then
    .refused
  else if starts "create database" lower || starts "create schema" lower then .createDatabase
  else if starts "drop database" lower || starts "drop schema" lower then .dropDatabase
  else if bare == "show databases".toList then .showDatabases
  else match schemaCommand V s.sm sql with
  | some command => .schema command
  | none =>
    if bare == "select 1".toList then .selectOne
    else if starts "select " lower && mentions lower "@@" && !mentions lower " from " then
      .systemVariables
    else if mentions lower "session materialized view" || mentions lower "session mv" then
      .sessionMv
    else if starts "create cube" lower then .createCube
    else if starts "drop cube" lower || starts "drop table" lower then .dropCube
    else if starts "alter cube" lower || starts "alter table" lower then .alterCube
    else if Text.firstAsciiWord lower == "insert".toList then .insert
    else if isAnalytics lowerExec then .analytics
    else if Text.firstAsciiWord lowerExec == "select".toList then .select
    else if starts "delete from" lower || starts "truncate" lower then .deleteFrom
    else .unrecognised

def upsert (s : Handler ν) (command : RaftCommand) : Handler ν :=
  { s with sm := s.sm.apply command }

def extractDbName (lower : List Char) (afterKeyword : String) : String :=
  let pos := (Text.find? afterKeyword.toList lower).getD 0 + afterKeyword.length
  String.ofList (Text.trimEndMatches ';' (Text.trimMatches '`'
    ((Text.words (lower.drop pos)).head?.getD [])))

def createDatabase (s : Handler ν) (lower : List Char) : Handler ν × Reply :=
  let ifNotExists := mentions lower "if not exists"
  let name := extractDbName lower
    (if ifNotExists then "exists" else if starts "create schema" lower then "schema"
      else "database")
  let key := "db:" ++ name
  if name.isEmpty then (s, .error .parseError "Missing database name")
  else if ifNotExists && (s.sm.get key).isSome then (s, .ok 0)
  else (upsert s (.upsertKv key "1"), .ok 0)

def dropDatabase (s : Handler ν) (lower : List Char) : Handler ν × Reply :=
  let ifExists := mentions lower "if exists"
  let name := extractDbName lower
    (if ifExists then "exists" else if starts "drop schema" lower then "schema" else "database")
  let key := "db:" ++ name
  if (s.sm.get key).isNone then
    if ifExists then (s, .ok 0)
    else (s, .error .dbDropExists ("Unknown database '" ++ name ++ "'"))
  else (upsert s (.deleteKv key), .ok 0)

def showDatabases (s : Handler ν) : Reply :=
  let dbs := (s.sm.kv.entries.filter fun e => "db:".toList.isPrefixOf e.1.toList).map
    fun e => String.ofList (e.1.toList.drop 3)
  let others := (dbs.insertionSort (· ≤ ·)).filter fun db =>
    db != "default" && db != "information_schema"
  .rows ["Database"] (("default" :: "information_schema" :: others).map fun db => [some db])

def showWarnings (s : Handler ν) : Handler ν × Reply :=
  ({ s with pendingWarnings := [] }, .rows ["Level", "Code", "Message"]
      (s.pendingWarnings.map fun message => [some "Warning", some "1292", some message]))

def wordAfter (words : List (List Char)) (keyword : String) : Option (List Char) := do
  let i ← words.findIdx? fun word => V.case.toLowercase word == keyword.toList
  words[i + 1]?

def identifier (word : List Char) : String :=
  String.ofList (Text.trimEndMatches ';' (Text.trimMatches '`' word))

def mvName (sql : List Char) : String :=
  ((wordAfter V (Text.words sql) "view").map identifier).getD "session_mv"

def sourceCube (sql : List Char) : String :=
  ((wordAfter V (Text.words sql) "on").map identifier).getD ""

def sessionTimeoutSec (sql : List Char) : Nat :=
  (((wordAfter V (Text.words sql) "timeout").bind fun word =>
    Text.parseU64 (Text.trimEndMatches ';' word)).map fun mins => mins * 60 % 2 ^ 64).getD 1800

def behavioralTable (sql : List Char) : BtEntry where
  btName := mvName V sql
  eventTable := sourceCube V sql
  userKey := ((wordAfter V (Text.words sql) "key").map identifier).getD "user_id"
  sessionTimeoutSec := sessionTimeoutSec V sql
  state := .building
  lastRefresh := none

def sessionMv (s : Handler ν) (sql : List Char) : Handler ν :=
  let s := upsert s (.upsertKv ("smv:" ++ mvName V sql) (String.ofList sql))
  if (sourceCube V sql).isEmpty then s
  else
    let registered := s.registry.register V.case (behavioralTable V sql)
    { s with registry := registered.updateState V.order (mvName V sql) .active }

def createCube (s : Handler ν) (lower sql : List Char) : Handler ν × Reply :=
  match V.parseCreateCube sql with
  | .error e => (s, .error .parseError e)
  | .ok stmt =>
    if mentions lower "if not exists" && (getByName V s.sm stmt.name).isSome then (s, .ok 0)
    else
      let (cubeId, schemaJson) := stmt.schema s.currentDb
      if (s.sm.get ("cube:" ++ cubeId)).isSome then
        (s, .error .tableExistsError ("Cube '" ++ stmt.name ++ "' already exists"))
      else (upsert s (.upsertCube cubeId schemaJson), .ok 0)

def dropCube (s : Handler ν) (sql : List Char) : Handler ν × Reply :=
  let name := String.ofList (Text.trimMatches '`' (Text.trimEndMatches ';'
    ((Text.words sql).getLast?.getD [])))
  match getByName V s.sm name with
  | none => (s, .error .badTableError ("Unknown cube: " ++ name))
  | some cube =>
    if (s.sm.get ("cube:" ++ V.cubeId cube)).isNone then
      (s, .error .badTableError ("Cube '" ++ V.cubeId cube ++ "' not found"))
    else (upsert s (.dropCube (V.cubeId cube)), .ok 0)

def alterCube (s : Handler ν) (lower sql : List Char) : Handler ν × Reply :=
  let normalized := if starts "alter table" lower then
      (Text.splitOctets 11 sql).map fun (_, rest) => "ALTER CUBE".toList ++ rest
    else some sql
  match normalized.map V.parseAlterCube with
  | none => (s, .panicked)
  | some (.error e) => (s, .error .parseError e)
  | some (.ok none) => (s, .error .parseError "ALTER CUBE: unexpected parse result")
  | some (.ok (some stmt)) =>
    match getByName V s.sm stmt.name with
    | none => (s, .error .parseError ("Cube '" ++ stmt.name ++ "' not found"))
    | some cube =>
      match stmt.change cube with
      | .error e => (s, .error .parseError e)
      | .ok none => (s, .ok 0)
      | .ok (some json) => (upsert s (.upsertCube (V.cubeId cube) json), .ok 0)

def tableHint (sql : List Char) : Option (Option String) :=
  let upper := V.case.toUppercase sql
  match Text.find? "INTO".toList upper with
  | none => some none
  | some i =>
    (Text.splitOctets ((Text.encode (upper.take i)).length + 4) sql).map fun (_, rest) =>
      let name := Text.trimMatches '`' ((Text.words rest).head?.getD [])
      if name.isEmpty then none else some (String.ofList name)

def insert (R : Reactions ν) (s : Handler ν) (sql : List Char) : Handler ν × Reply :=
  match tableHint V sql with
  | none => (s, .panicked)
  | some hint =>
    let cube := hint.bind (getByName V s.sm)
    let distCol := (cube.map V.distColumn).filter fun col => !col.isEmpty
    match V.parseInsert sql (cube.map V.cubeColumns) with
    | .error e => (s, .error .parseError e)
    | .ok (table, rows) =>
      ({ s with node := executeInsert P s.node table rows distCol R.writes }, .ok rows.length)

def quickExtractAllTables (sql : List Char) : List String :=
  let lower := V.case.toLowercase sql
  let found := [" from ", "\nfrom ", "\tfrom "].findSome? fun pat =>
    (Text.find? pat.toList lower).map (· + pat.length)
  match found with
  | none => []
  | some p =>
    let afterFrom := Text.trimStart (lower.drop p)
    let ends := [" where ", "\nwhere ", " group ", "\ngroup ", " order ", "\norder ",
      " having ", "\nhaving ", " limit ", "\nlimit ", " join ", "\njoin "].filterMap
        fun kw => Text.find? kw.toList afterFrom
    let fromClause := afterFrom.take (ends.min?.getD afterFrom.length)
    (fromClause.splitOn ',').filterMap fun seg =>
      let name := Text.trimMatches '`'
        ((Text.trim seg).takeWhile fun c => !Text.isWhitespace c)
      if name.isEmpty || name.head? == some '(' then none else some (String.ofList name)

def selectFroms (R : Reactions ν) (sql : List Char) : List From :=
  (quickExtractAllTables V sql).zipIdx.map fun (table, i) => (table, R.scans i)

def pushWarning (s : Handler ν) (sql : List Char) : Handler ν :=
  match routing V s sql with
  | .kept (some warning) => { s with pendingWarnings := s.pendingWarnings ++ [warning] }
  | _ => s

def deleteFrom (R : Reactions ν) (s : Handler ν) (lower : List Char) : Handler ν × Reply :=
  let table := String.ofList (Text.trimEndMatches ';' ((Text.words lower).getLast?.getD []))
  ({ s with node := { s.node with
      memStore := s.node.memStore.dropTable table
      pool := R.truncate table s.node.pool } }, .ok 0)

def snippet (sql : List Char) : Option (List Char) :=
  let cut := if (Text.encode sql).length ≤ 60 then some sql
    else (Text.splitOctets 60 sql).map Prod.fst
  cut.map fun text =>
    let line := text.takeWhile (· ≠ '\n')
    if line.length < text.length && line.getLast? == some '\r' then line.dropLast else line

def unrecognised (sql : List Char) : Reply :=
  match snippet sql, V.statementLabel sql with
  | none, _ => .panicked
  | some near, none => .error .parseError
    ("You have an error in your SQL syntax near '" ++ String.ofList near ++ "' (line 1)")
  | some _, some label => .error .notSupportedYet
    ("This version of WOW-DB doesn't yet support '" ++ label ++ "'")

def useDatabase (s : Handler ν) (sql : List Char) : Handler ν × Reply :=
  match Text.splitOctets 4 sql with
  | none => (s, .panicked)
  | some (_, rest) =>
    ({ s with currentDb := String.ofList (Text.trimMatches '`' (Text.trim rest)) }, .ok 0)

def refusal (s : Handler ν) : Reply :=
  match checkWriteAllowed V.percent s.guard with
  | .error e => .error .optionPreventsStatement e.mysqlMessage
  | .ok () => .ok 0

/-- One statement. -/
def onQuery (R : Reactions ν) (s : Handler ν) (sql : List Char) : Handler ν × Reply :=
  let lower := V.case.toLowercase (Text.trim sql)
  match branch V s sql with
  | .useDatabase => useDatabase s sql
  | .set => (s, .ok 0)
  | .showWarnings => showWarnings s
  | .refused => (s, refusal V s)
  | .createDatabase => createDatabase s lower
  | .dropDatabase => dropDatabase s lower
  | .showDatabases => (s, showDatabases s)
  | .schema command => (s, V.schemaReply command s.sm s.currentDb sql)
  | .selectOne => (s, .rows ["1"] [[some "1"]])
  | .systemVariables => (s, V.systemVariables sql)
  | .sessionMv => (sessionMv V s sql, .ok 0)
  | .createCube => createCube V s lower sql
  | .dropCube => dropCube V s sql
  | .alterCube => alterCube V s lower sql
  | .insert => insert P V R s sql
  | .analytics => (pushWarning V s sql, V.analyticsReply s.node.memStore (effectiveSql V s sql))
  | .select =>
    let node := executeSelect P s.node (selectFroms V R (effectiveSql V s sql)) R.compute
    ({ pushWarning V s sql with node }, V.selectReply node.memStore (effectiveSql V s sql))
  | .deleteFrom => deleteFrom R (pushWarning V s sql) lower
  | .unrecognised => (pushWarning V s sql, unrecognised V sql)

end WowDb.System.MysqlHandler
