import WowDb.Lib.Json
import WowDb.Lib.OrdMap

/-!
# Execution of a SELECT on the memory store

`execute_select_sync` of `query-node/src/executor/select_exec.rs`, on the parsed statement.
-/
namespace WowDb.Query
open WowDb.Lib

inductive Value (ν : Type) where
  | null
  | bool (b : Bool)
  | number (n : ν)
  | string (s : String)
  | json (text : String)
  deriving DecidableEq

def Value.text {ν : Type} (numberText : ν → String) : Value ν → String
  | .null => "null"
  | .bool true => "true"
  | .bool false => "false"
  | .number n => numberText n
  | .string s => String.ofList (Json.quote s.toList)
  | .json text => text

def Value.plain {ν : Type} (numberText : ν → String) : Value ν → String
  | .string s => s
  | other => other.text numberText

abbrev Row (ν : Type) := OrdMap String (Value ν)

structure InMemoryStore (ν : Type) where
  tables : OrdMap String (List (Row ν))

namespace InMemoryStore

variable {ν : Type}

def new : InMemoryStore ν := ⟨.empty⟩

def scan (m : InMemoryStore ν) (table : String) : List (Row ν) := (m.tables.get? table).getD []

def insert (m : InMemoryStore ν) (table : String) (row : Row ν) : InMemoryStore ν :=
  ⟨m.tables.insert table (m.scan table ++ [row])⟩

def dropTable (m : InMemoryStore ν) (table : String) : InMemoryStore ν := ⟨m.tables.erase table⟩

def rowCount (m : InMemoryStore ν) (table : String) : Nat := (m.scan table).length

def tableExists (m : InMemoryStore ν) (table : String) : Bool := (m.tables.get? table).isSome

def insertAll (m : InMemoryStore ν) (table : String) (rows : List (Row ν)) : InMemoryStore ν :=
  rows.foldl (fun m row => m.insert table row) m

variable (m : InMemoryStore ν)

theorem scan_insert (table other : String) (row : Row ν) :
    (m.insert table row).scan other =
      if other = table then m.scan table ++ [row] else m.scan other := by
  simp only [scan, insert, OrdMap.get?_insert]
  split <;> rfl

theorem scan_insertAll (rows : List (Row ν)) (m : InMemoryStore ν) (table other : String) :
    (m.insertAll table rows).scan other =
      if other = table then m.scan table ++ rows else m.scan other := by
  induction rows generalizing m with
  | nil =>
    by_cases same : other = table
    · simp [insertAll, same]
    · simp [insertAll, same]
  | cons row rest ih =>
    have step := ih (m.insert table row)
    simp only [insertAll, List.foldl_cons] at step ⊢
    rw [step, scan_insert, scan_insert]
    by_cases same : other = table
    · simp [same]
    · simp [same]

theorem scan_dropTable (table other : String) :
    (m.dropTable table).scan other = if other = table then [] else m.scan other := by
  simp only [scan, dropTable, OrdMap.erase, OrdMap.get?_retain]
  by_cases same : other = table
  · subst same
    cases m.tables.get? other <;> simp [Option.filter]
  · cases m.tables.get? other <;> simp [Option.filter, same]

end InMemoryStore

inductive UnaryOp where
  | not | minus | other
  deriving DecidableEq

inductive BinaryOp where
  | eq | notEq | lt | ltEq | gt | gtEq | and | or | plus | minus | multiply | divide
  | stringConcat | other
  deriving DecidableEq

inductive SqlValue where
  | number (text : String)
  | quoted (text : String)
  | boolean (b : Bool)
  | null
  | other (text : String)
  deriving DecidableEq

inductive Expr where
  | identifier (name : String)
  | compoundIdentifier (parts : List String)
  | value (v : SqlValue)
  | unaryOp (op : UnaryOp) (e : Expr)
  | binaryOp (left : Expr) (op : BinaryOp) (right : Expr)
  | like (negated : Bool) (e pattern : Expr)
  | isNull (e : Expr)
  | isNotNull (e : Expr)
  | inList (e : Expr) (list : List Expr) (negated : Bool)
  | between (e low high : Expr) (negated : Bool)
  | nested (e : Expr)
  | function (name : String) (args : List Expr) (wildcard distinct : Bool) (argsText : String)
  | case (operand : Option Expr) (conditions results : List Expr) (elseResult : Option Expr)
  | other

inductive SelectItem where
  | unnamedExpr (e : Expr)
  | exprWithAlias (e : Expr) (aliasName : String)
  | wildcard
  | qualifiedWildcard (name : String)

inductive TableFactor where
  | table (last text : String) (aliasName : Option String)
  | other

inductive JoinOperator where
  | inner (on : Option Expr)
  | leftOuter (on : Option Expr)
  | rightOuter (on : Option Expr)
  | crossJoin
  | other

structure Join where
  relation : TableFactor
  operator : JoinOperator

structure TableWithJoins where
  relation : TableFactor
  joins : List Join

structure OrderByExpr where
  expr : Expr
  asc : Option Bool

structure Select where
  projection : List SelectItem
  tables : List TableWithJoins
  selection : Option Expr
  groupBy : List Expr
  having : Option Expr
  distinct : Bool
  orderBy : List OrderByExpr
  limit : Option Expr

def trimTicks (name : String) : String :=
  let isTick := fun c : Char => c.toNat == 96
  String.ofList ((name.toList.dropWhile isTick).reverse.dropWhile isTick).reverse

namespace Expr

def simpleColName : Expr → Option String
  | .identifier name => some (trimTicks name)
  | .compoundIdentifier parts => parts.getLast?.map trimTicks
  | _ => none

def extractEqConditions : Expr → List (String × String)
  | .binaryOp left .eq right =>
    match left.simpleColName, right.simpleColName with
    | some l, some r => [(l, r)]
    | _, _ => []
  | .binaryOp left .and right => extractEqConditions left ++ extractEqConditions right
  | .nested e => extractEqConditions e
  | _ => []

def splitAndConjuncts : Expr → List Expr
  | .binaryOp left .and right => splitAndConjuncts left ++ splitAndConjuncts right
  | .nested e => splitAndConjuncts e
  | e => [e]

mutual

def collectCols (lower : String → String) : Expr → List String
  | .identifier name => [lower (trimTicks name)]
  | .compoundIdentifier parts => (parts.getLast?.map fun p => lower (trimTicks p)).toList
  | .value _ => []
  | .unaryOp _ e => collectCols lower e
  | .binaryOp left _ right => collectCols lower left ++ collectCols lower right
  | .like _ e pattern => collectCols lower e ++ collectCols lower pattern
  | .isNull _ => []
  | .isNotNull _ => []
  | .inList e list _ => collectCols lower e ++ collectColsList lower list
  | .between e low high _ =>
    collectCols lower e ++ (collectCols lower low ++ collectCols lower high)
  | .nested e => collectCols lower e
  | .function _ args _ _ _ => collectColsList lower args
  | .case operand conditions results elseResult =>
    collectColsOption lower operand ++ (collectColsList lower conditions ++
      (collectColsList lower results ++ collectColsOption lower elseResult))
  | .other => []

def collectColsList (lower : String → String) : List Expr → List String
  | [] => []
  | e :: rest => collectCols lower e ++ collectColsList lower rest

def collectColsOption (lower : String → String) : Option Expr → List String
  | none => []
  | some e => collectCols lower e

end

end Expr

structure Host (ν φ : Type) where
  -- JSON numbers and texts
  asF64 : ν → Option φ
  isInteger : ν → Bool
  ofF64 : φ → Option ν
  ofInt : Int → ν
  numberText : ν → String
  parseJson : String → Option (Value ν)
  -- doubles
  zero : φ
  ofNat : Nat → φ
  neg : φ → φ
  add : φ → φ → φ
  sub : φ → φ → φ
  mul : φ → φ → φ
  div : φ → φ → φ
  sum : List φ → φ
  min : φ → φ → φ
  max : φ → φ → φ
  round : φ → φ
  powi10 : Int → φ
  eq : φ → φ → Bool
  partialCmp : φ → φ → Option Ordering
  hasNoFraction : φ → Bool
  belowTwoPow53 : φ → Bool
  toI32 : φ → Int
  toI64 : φ → Int
  parseF64 : String → Option φ
  sortText : φ → String
  parseI64 : String → Option Int
  -- texts
  upper : String → String
  lower : String → String
  regexEscape : String → String
  regexMatch : String → String → Option Bool
  exprText : Expr → String
  now : String

inductive EvalResult (ν : Type) where
  | val (v : Value ν)
  | bool (b : Bool)
  | null

variable {ν φ : Type} (H : Host ν φ)

namespace EvalResult

def asBool : EvalResult ν → Bool
  | .bool b => b
  | .val (.bool b) => b
  | .null => false
  | .val .null => false
  | .val _ => true

def intoValue : EvalResult ν → Value ν
  | .val v => v
  | .bool b => .bool b
  | .null => .null

def asF64 : EvalResult ν → Option φ
  | .val (.number n) => H.asF64 n
  | .val (.string s) => H.parseF64 s
  | _ => none

def isNull : EvalResult ν → Bool
  | .null => true
  | .val .null => true
  | _ => false

def isInteger : EvalResult ν → Bool
  | .val (.number n) => H.isInteger n
  | _ => false

end EvalResult

namespace Eval

def jsonText (v : Value ν) : String := v.text H.numberText

def jsonF64 (x : φ) : Value ν :=
  match H.ofF64 x with
  | some n => .number n
  | none => .null

def sqlValueToJson : SqlValue → Value ν
  | .number text =>
    match H.parseI64 text with
    | some n => .number (H.ofInt n)
    | none =>
      match H.parseF64 text with
      | some x => jsonF64 H x
      | none => .string text
  | .quoted text => (H.parseJson text).getD (.string text)
  | .boolean b => .bool b
  | .null => .null
  | .other text => .string text

def jsonToStr : Value ν → String
  | .string s => s
  | .null => ""
  | v => jsonText H v

def jsonToSortStr : Value ν → String
  | .number n => H.sortText ((H.asF64 n).getD H.zero)
  | .string s =>
    match H.parseF64 s with
    | some x => H.sortText x
    | none => s
  | .bool b => if b then "true" else "false"
  | .null => ""
  | .json text => text

def f64Eq : Option φ → Option φ → Bool
  | some x, some y => H.eq x y
  | none, none => true
  | _, _ => false

def sameValue : Value ν → Value ν → Bool
  | .null, .null => true
  | .bool a, .bool b => a == b
  | .string a, .string b => a == b
  | .json a, .json b => a == b
  | _, _ => false

def jsonEq : Value ν → Value ν → Bool
  | .number a, .number b => f64Eq H (H.asF64 a) (H.asF64 b)
  | .string a, .number b => f64Eq H (H.parseF64 a) (H.asF64 b)
  | .number a, .string b => f64Eq H (H.asF64 a) (H.parseF64 b)
  | a, b => sameValue a b || jsonText H a == jsonText H b

def cmpJson : Value ν → Value ν → Ordering
  | .number a, .number b =>
    (H.partialCmp ((H.asF64 a).getD H.zero) ((H.asF64 b).getD H.zero)).getD .eq
  | .string a, .string b => compare a b
  | .bool a, .bool b => compare a b
  | .null, .null => .eq
  | .null, _ => .lt
  | _, .null => .gt
  | a, b => compare (jsonText H a) (jsonText H b)

def cmpVals (a b : EvalResult ν) : Ordering := cmpJson H a.intoValue b.intoValue

def numericOp (op : φ → φ → φ) (a b : EvalResult ν) : EvalResult ν :=
  match a.asF64 H, b.asF64 H with
  | some x, some y =>
    let result := op x y
    if a.isInteger H && b.isInteger H && H.hasNoFraction result && H.belowTwoPow53 result then
      .val (.number (H.ofInt (H.toI64 result)))
    else .val (jsonF64 H result)
  | _, _ => .null

def divide (a b : φ) : φ := if H.eq b H.zero then H.zero else H.div a b

def likeMatch (s pattern : String) : Bool :=
  let body := (H.regexEscape pattern).toList.flatMap fun c =>
    if c = '%' then ".*".toList else if c = '_' then ".".toList else [c]
  (H.regexMatch ("(?i)^" ++ String.ofList body ++ "$") s).getD false

def replaceMark (a b : Char) (text : List Char) : List Char → List Char
  | [] => []
  | [c] => [c]
  | c :: d :: rest =>
    if c = a ∧ d = b then text ++ replaceMark a b text rest
    else c :: replaceMark a b text (d :: rest)

def splitOctets : Nat → List Char → List Char × List Char
  | _, [] => ([], [])
  | n, c :: rest =>
    if c.utf8Size ≤ n then
      let (first, second) := splitOctets (n - c.utf8Size) rest
      (c :: first, second)
    else ([], c :: rest)

/-- `&text[..n]` and `&text[n..]`; `none` is the panic inside a character. -/
def sliceAt (n : Nat) (text : List Char) : Option (List Char × List Char) :=
  let halves := splitOctets n text
  if (String.ofList halves.1).utf8ByteSize = n then some halves else none

/-- `none` is the panic where octet 10 of the date or octet 2 of the year is inside a character. -/
def dateFormat (date format : String) : Option String := do
  let datePart ← if 10 ≤ date.utf8ByteSize then (sliceAt 10 date.toList).map Prod.fst
    else some date.toList
  let parts := datePart.splitOn '-'
  let y := (parts[0]?).getD []
  let m := (parts[1]?).getD []
  let d := (parts[2]?).getD []
  let shortYear ← if 4 ≤ (String.ofList y).utf8ByteSize then (sliceAt 2 y).map Prod.snd else some y
  some (String.ofList (replaceMark '%' 'y' shortYear (replaceMark '%' 'd' d
    (replaceMark '%' 'm' m (replaceMark '%' 'Y' y format.toList)))))

def roundTo (n : φ) (decimals : Int) : Value ν :=
  let factor := H.powi10 decimals
  let result := H.div (H.round (H.mul n factor)) factor
  if decimals ≤ 0 && H.hasNoFraction result then .number (H.ofInt (H.toI64 result))
  else jsonF64 H result

def evalFunction (name : String) (args : List (EvalResult ν)) : EvalResult ν :=
  let text := fun v : EvalResult ν => jsonToStr H v.intoValue
  match H.upper name with
  | "UPPER" => (args.head?.map fun v => .val (.string (H.upper (text v)))).getD .null
  | "LOWER" => (args.head?.map fun v => .val (.string (H.lower (text v)))).getD .null
  | "LENGTH" | "CHAR_LENGTH" =>
    (args.head?.map fun v => .val (.number (H.ofInt (text v).utf8ByteSize))).getD .null
  | "NOW" | "CURRENT_TIMESTAMP" | "SYSDATE" => .val (.string H.now)
  | "COALESCE" => (args.find? fun v => !v.isNull).getD .null
  | "IF" =>
    match args with
    | condition :: yes :: no :: _ => if condition.asBool then yes else no
    | _ => .null
  | "CONCAT" => .val (.string (String.join (args.map text)))
  | "ROUND" =>
    match args.head?.bind (EvalResult.asF64 H) with
    | some n =>
      .val (roundTo H n (H.toI32 ((args[1]?.bind (EvalResult.asF64 H)).getD H.zero)))
    | none => .null
  | "DATE_FORMAT" =>
    match args with
    -- where this panics, `callPanics` says so and the value is not used
    | date :: format :: _ => .val (.string ((dateFormat (text date) (text format)).getD ""))
    | _ => .null
  | _ => .null

def evalBinary (op : BinaryOp) (l r : EvalResult ν) : EvalResult ν :=
  match op with
  | .eq => .bool (jsonEq H l.intoValue r.intoValue)
  | .notEq => .bool (!jsonEq H l.intoValue r.intoValue)
  | .lt => .bool (cmpVals H l r == .lt)
  | .ltEq => .bool (cmpVals H l r != .gt)
  | .gt => .bool (cmpVals H l r == .gt)
  | .gtEq => .bool (cmpVals H l r != .lt)
  | .and => .bool (l.asBool && r.asBool)
  | .or => .bool (l.asBool || r.asBool)
  | .plus => numericOp H H.add l r
  | .minus => numericOp H H.sub l r
  | .multiply => numericOp H H.mul l r
  | .divide => numericOp H (divide H) l r
  | .stringConcat => .val (.string (jsonToStr H l.intoValue ++ jsonToStr H r.intoValue))
  | .other => .null

def evalUnary (op : UnaryOp) (v : EvalResult ν) : EvalResult ν :=
  match op with
  | .not => .bool (!v.asBool)
  | .minus => ((v.asF64 H).map fun x => .val (jsonF64 H (H.neg x))).getD .null
  | .other => v

def evalCase (operand : Option (EvalResult ν)) (arms : List (EvalResult ν × EvalResult ν))
    (otherwise : Option (EvalResult ν)) : EvalResult ν :=
  let chosen : Option (EvalResult ν × EvalResult ν) :=
    match operand with
    | some v => arms.find? fun arm => jsonEq H arm.1.intoValue v.intoValue
    | none => arms.find? fun arm => arm.1.asBool
  match chosen with
  | some arm => arm.2
  | none => otherwise.getD .null

def columnResult : Option (Value ν) → EvalResult ν
  | some v => .val v
  | none => .null

def joinName (parts : List String) : String := String.intercalate "." (parts.map trimTicks)

def compoundColumn (row : Row ν) (parts : List String) : Option (Value ν) :=
  (row.get? (joinName parts)).or (row.get? ((parts.getLast?.map trimTicks).getD ""))

mutual

def evalExpr (row : Row ν) : Expr → EvalResult ν
  | .identifier name => columnResult (row.get? (trimTicks name))
  | .compoundIdentifier parts => columnResult (compoundColumn row parts)
  | .value v => .val (sqlValueToJson H v)
  | .unaryOp op e => evalUnary H op (evalExpr row e)
  | .binaryOp left op right => evalBinary H op (evalExpr row left) (evalExpr row right)
  | .like negated e pattern =>
    let found := likeMatch H (jsonToStr H (evalExpr row e).intoValue)
      (jsonToStr H (evalExpr row pattern).intoValue)
    .bool (if negated then !found else found)
  | .isNull e => .bool (evalExpr row e).isNull
  | .isNotNull e => .bool (!(evalExpr row e).isNull)
  | .inList e list negated =>
    let v := (evalExpr row e).intoValue
    let found := (evalList row list).any fun item => jsonEq H v item.intoValue
    .bool (if negated then !found else found)
  | .between e low high negated =>
    let v := evalExpr row e
    let inRange := cmpVals H v (evalExpr row low) != .lt && cmpVals H v (evalExpr row high) != .gt
    .bool (if negated then !inRange else inRange)
  | .nested e => evalExpr row e
  | .function name args _ _ _ => evalFunction H name (evalList row args)
  | .case operand conditions results elseResult =>
    evalCase H (evalOption row operand) ((evalList row conditions).zip (evalList row results))
      (evalOption row elseResult)
  | .other => .null

def evalList (row : Row ν) : List Expr → List (EvalResult ν)
  | [] => []
  | e :: rest => evalExpr row e :: evalList row rest

def evalOption (row : Row ν) : Option Expr → Option (EvalResult ν)
  | none => none
  | some e => some (evalExpr row e)

end

/-- Arguments that are evaluated one by one until one of them decides. -/
def untilPanics (decides : EvalResult ν → Bool) : List (EvalResult ν × Bool) → Bool
  | [] => false
  | v :: rest => v.2 || (!decides v.1 && untilPanics decides rest)

/-- Whether `eval_function` panics, from the value of every argument and whether it panics. -/
def callPanics (name : String) (args : List (EvalResult ν × Bool)) : Bool :=
  let text := fun v : EvalResult ν => jsonToStr H v.intoValue
  match H.upper name with
  | "UPPER" | "LOWER" | "LENGTH" | "CHAR_LENGTH" => args.head?.any Prod.snd
  | "COALESCE" => untilPanics (fun v => !v.isNull) args
  | "IF" =>
    match args with
    | condition :: yes :: no :: _ => condition.2 || if condition.1.asBool then yes.2 else no.2
    | _ => false
  | "CONCAT" => args.any Prod.snd
  | "ROUND" =>
    match args with
    | n :: rest => n.2 || ((n.1.asF64 H).isSome && rest.head?.any Prod.snd)
    | [] => false
  | "DATE_FORMAT" =>
    match args with
    | date :: format :: _ => date.2 || format.2 || (dateFormat (text date.1) (text format.1)).isNone
    | _ => false
  | _ => false

def armsPanic (chosen : EvalResult ν → Bool) (otherwise : Bool) :
    List ((EvalResult ν × Bool) × (EvalResult ν × Bool)) → Bool
  | [] => otherwise
  | arm :: rest => arm.1.2 || if chosen arm.1.1 then arm.2.2 else armsPanic chosen otherwise rest

def casePanics (operand : Option (EvalResult ν × Bool))
    (arms : List ((EvalResult ν × Bool) × (EvalResult ν × Bool)))
    (otherwise : Option (EvalResult ν × Bool)) : Bool :=
  let chosen : EvalResult ν → Bool := match operand with
    | some v => fun condition => jsonEq H condition.intoValue v.1.intoValue
    | none => EvalResult.asBool
  operand.any Prod.snd || armsPanic chosen (otherwise.any Prod.snd) arms

mutual

/-- Whether `eval_expr` panics: it does where it evaluates a DATE_FORMAT that does. `evalExpr` is
its value where it does not. -/
def panics (row : Row ν) : Expr → Bool
  | .unaryOp _ e => panics row e
  | .binaryOp left _ right => panics row left || panics row right
  | .like _ e pattern => panics row e || panics row pattern
  | .isNull e => panics row e
  | .isNotNull e => panics row e
  | .inList e list _ => panics row e || untilPanics
      (fun item => jsonEq H (evalExpr H row e).intoValue item.intoValue) (outcomeList row list)
  | .between e low high _ => panics row e || (panics row low || panics row high)
  | .nested e => panics row e
  | .function name args _ _ _ => callPanics H name (outcomeList row args)
  | .case operand conditions results elseResult => casePanics H (outcomeOption row operand)
      ((outcomeList row conditions).zip (outcomeList row results)) (outcomeOption row elseResult)
  | .identifier _ => false
  | .compoundIdentifier _ => false
  | .value _ => false
  | .other => false

def outcomeList (row : Row ν) : List Expr → List (EvalResult ν × Bool)
  | [] => []
  | e :: rest => (evalExpr H row e, panics row e) :: outcomeList row rest

def outcomeOption (row : Row ν) : Option Expr → Option (EvalResult ν × Bool)
  | none => none
  | some e => some (evalExpr H row e, panics row e)

end

def holds (row : Row ν) (e : Expr) : Bool := (evalExpr H row e).asBool

def exprToColName : Expr → String
  | .identifier name => trimTicks name
  | .compoundIdentifier parts => (parts.getLast?.map trimTicks).getD ""
  | .function name _ _ _ argsText => name ++ "(" ++ argsText ++ ")"
  | e => H.exprText e

def aggregateNames : List String := ["COUNT", "SUM", "AVG", "MIN", "MAX"]

def isAggregate : Expr → Bool
  | .function name _ _ _ _ => aggregateNames.contains (H.upper name)
  | _ => false

def containsAggregate : Expr → Bool
  | .function name args wildcard distinct argsText =>
    isAggregate H (.function name args wildcard distinct argsText)
  | .binaryOp left _ right => containsAggregate left || containsAggregate right
  | .unaryOp _ e => containsAggregate e
  | .nested e => containsAggregate e
  | _ => false

def countDistinct : List String → List String → Nat
  | _, [] => 0
  | seen, s :: rest =>
    if seen.contains s then countDistinct seen rest else countDistinct (s :: seen) rest + 1

def reduce (f : φ → φ → φ) : List φ → Option φ
  | [] => none
  | x :: rest => some (rest.foldl f x)

def aggregate (name : String) (wildcard distinct : Bool) (size : Nat)
    (column : Option (List (EvalResult ν))) : Value ν :=
  let doubles := (column.map fun vs => vs.filterMap (EvalResult.asF64 H)).getD []
  match H.upper name with
  | "COUNT" =>
    match column with
    | none => .number (H.ofInt size)
    | some values =>
      if wildcard then .number (H.ofInt size)
      else if distinct then
        .number (H.ofInt (countDistinct []
          ((values.filter fun v => !v.isNull).map fun v => jsonToSortStr H v.intoValue)))
      else .number (H.ofInt (values.filter fun v => !v.isNull).length)
  | "SUM" => if doubles.isEmpty then .null else jsonF64 H (H.sum doubles)
  | "AVG" => if doubles.isEmpty then .null else jsonF64 H (H.div (H.sum doubles) (H.ofNat doubles.length))
  | "MIN" => ((reduce H.min doubles).map (jsonF64 H)).getD .null
  | "MAX" => ((reduce H.max doubles).map (jsonF64 H)).getD .null
  | _ => .null

def evalAggregate (rows : List (Row ν)) : Expr → Value ν
  | .function name args wildcard distinct _ =>
    aggregate H name wildcard distinct rows.length
      (args.head?.map fun e => rows.map fun row => evalExpr H row e)
  | _ => .null

def evalAggregateExpr (rows : List (Row ν)) : Expr → Value ν
  | .function name args wildcard distinct argsText =>
    let e := Expr.function name args wildcard distinct argsText
    if isAggregate H e then evalAggregate H rows e
    else (rows.head?.map fun row => (evalExpr H row e).intoValue).getD .null
  | .binaryOp left op right =>
    let l := EvalResult.val (evalAggregateExpr rows left)
    let r := EvalResult.val (evalAggregateExpr rows right)
    (match op with
      | .plus => numericOp H H.add l r
      | .minus => numericOp H H.sub l r
      | .multiply => numericOp H H.mul l r
      | .divide => numericOp H (divide H) l r
      | _ => EvalResult.null).intoValue
  | .nested e => evalAggregateExpr rows e
  | .value v => sqlValueToJson H v
  | e => (rows.head?.map fun row => (evalExpr H row e).intoValue).getD .null

def aggregatePanics (rows : List (Row ν)) : Expr → Bool
  | .function name args wildcard _ _ => args.head?.any fun e =>
      !(H.upper name == "COUNT" && wildcard) && rows.any (panics H · e)
  | _ => false

def aggregateExprPanics (rows : List (Row ν)) : Expr → Bool
  | .function name args wildcard distinct argsText =>
    let e := Expr.function name args wildcard distinct argsText
    if isAggregate H e then aggregatePanics H rows e else rows.head?.any (panics H · e)
  | .binaryOp left _ right => aggregateExprPanics rows left || aggregateExprPanics rows right
  | .nested e => aggregateExprPanics rows e
  | .value _ => false
  | e => rows.head?.any (panics H · e)

end Eval

structure SelectResult (ν : Type) where
  columns : List String
  rows : List (List (Value ν))
  deriving DecidableEq

namespace SelectExec

variable {ν φ : Type} (H : Host ν φ) (store : InMemoryStore ν)

open Eval

def qualify (aliasName column : String) : String := aliasName ++ "." ++ column

def orInsert (m : Row ν) (k : String) (v : Value ν) : Row ν :=
  if (m.get? k).isSome then m else m.insert k v

def mergeEntry (aliasName : Option String) (m : Row ν) (e : String × Value ν) : Row ν :=
  match aliasName with
  | some a => (orInsert m e.1 e.2).insert (qualify a e.1) e.2
  | none => orInsert m e.1 e.2

def mergeRow (aliasName : Option String) (left right : Row ν) : Row ν :=
  right.entries.foldl (mergeEntry aliasName) left

def aliasRow (aliasName : String) (row : Row ν) : Row ν :=
  (row.entries.map Prod.fst).foldl (fun m k =>
    match m.get? k with
    | some v => m.insert (qualify aliasName k) v
    | none => m) row

def baseRows : TableFactor → List (Row ν)
  | .table last _ (some aliasName) => (store.scan last).map (aliasRow aliasName)
  | .table last _ none => store.scan last
  | .other => store.scan ""

def JoinOperator.onExpr : JoinOperator → Option Expr
  | .inner on => on
  | .leftOuter on => on
  | .rightOuter on => on
  | .crossJoin => none
  | .other => none

def JoinOperator.isLeft : JoinOperator → Bool
  | .leftOuter _ => true
  | _ => false

def joinRow (aliasName : Option String) (on : Option Expr) (isLeft : Bool)
    (right : List (Row ν)) (left : Row ν) : List (Row ν) :=
  let matched := (right.map (mergeRow aliasName left)).filter fun m =>
    (on.map (holds H m)).getD true
  if isLeft && matched.isEmpty then [left] else matched

def applyJoins : List Join → List (Row ν) → Except String (List (Row ν))
  | [], rows => .ok rows
  | j :: rest, rows =>
    match j.relation with
    | .table _ text aliasName =>
      applyJoins rest (rows.flatMap (joinRow H aliasName (JoinOperator.onExpr j.operator)
        (JoinOperator.isLeft j.operator) (store.scan text)))
    | .other => .error "Unsupported JOIN table type"

def columnsOf (rows : List (Row ν)) : List String :=
  (rows.head?.map fun row => row.entries.map Prod.fst).getD []

def crossJoinTables (aliasName : Option String) (left right : List (Row ν)) : List (Row ν) :=
  left.flatMap fun l => right.map (mergeRow aliasName l)

def indexRow (rightCol : String) (index : OrdMap String (List (Row ν))) (row : Row ν) :
    OrdMap String (List (Row ν)) :=
  match row.get? rightCol with
  | some v => index.insert (jsonToSortStr H v) ((index.get? (jsonToSortStr H v)).getD [] ++ [row])
  | none => index

def rightIndex (rightCol : String) (right : List (Row ν)) : OrdMap String (List (Row ν)) :=
  right.foldl (indexRow H rightCol) .empty

def hashJoinTables (leftCol rightCol : String) (aliasName : Option String)
    (left right : List (Row ν)) : List (Row ν) :=
  let index := rightIndex H rightCol right
  left.flatMap fun l =>
    ((index.get? (((l.get? leftCol).map (jsonToSortStr H)).getD "")).getD []).map
      (mergeRow aliasName l)

def endsWithColumn (k col : String) : Bool := ('.' :: col.toList).isSuffixOf k.toList

def names (col : String) (available : List String) : Bool :=
  available.contains col || available.any fun k => endsWithColumn k col

def isApplicable (available : List String) (c : Expr) : Bool :=
  let needed := c.collectCols H.lower
  !needed.isEmpty && needed.all fun col => names col available

def applicable (conjuncts : List Expr) (rows : List (Row ν)) : List Expr :=
  conjuncts.filter (isApplicable H ((columnsOf rows).map H.lower))

def applyPartialWhere (conjuncts : List Expr) (rows : List (Row ν)) : List (Row ν) :=
  rows.filter fun row => (applicable H conjuncts rows).all (holds H row)

def isNeeded (needed : List String) (k : String) : Bool :=
  needed.contains (H.lower k) || needed.any (endsWithColumn (H.lower k))

def keepSet (needed : List String) (rows : List (Row ν)) : Option (List String) :=
  let keep := (columnsOf rows).filter (isNeeded H needed)
  if needed.isEmpty || keep.isEmpty then none else some keep

def projectToNeededCols (needed : List String) (rows : List (Row ν)) : List (Row ν) :=
  match keepSet H needed rows with
  | none => rows
  | some keep => rows.map fun row => row.retain fun k _ => keep.contains k

def SelectItem.isWildcard : SelectItem → Bool
  | .wildcard => true
  | .qualifiedWildcard _ => true
  | _ => false

def SelectItem.expr? : SelectItem → Option Expr
  | .unnamedExpr e => some e
  | .exprWithAlias e _ => some e
  | _ => none

def collectQueryNeededCols (q : Select) : Option (List String) :=
  if q.projection.any SelectItem.isWildcard then none
  else
    some ((q.projection.filterMap SelectItem.expr? ++ (q.selection.toList ++ (q.groupBy ++
      (q.orderBy.map (·.expr) ++ q.having.toList)))).flatMap (Expr.collectCols H.lower))

structure Plan where
  eqConds : List (String × String)
  conjuncts : List Expr
  needed : Option (List String)

def plan (q : Select) : Plan :=
  { eqConds := (q.selection.map Expr.extractEqConditions).getD []
    conjuncts := (q.selection.map Expr.splitAndConjuncts).getD []
    needed := collectQueryNeededCols H q }

def prune (p : Plan) (rows : List (Row ν)) : List (Row ν) :=
  let kept := applyPartialWhere H p.conjuncts rows
  match p.needed with
  | some needed => projectToNeededCols H needed kept
  | none => kept

def joinKey (p : Plan) (rows right : List (Row ν)) : Option (String × String) :=
  p.eqConds.findSome? fun (a, b) =>
    if (columnsOf rows).contains a && (columnsOf right).contains b then some (a, b)
    else if (columnsOf rows).contains b && (columnsOf right).contains a then some (b, a)
    else none

def joinTable (p : Plan) (aliasName : Option String) (rows right : List (Row ν)) : List (Row ν) :=
  match joinKey p rows right with
  | some (leftCol, rightCol) => hashJoinTables H leftCol rightCol aliasName rows right
  | none => crossJoinTables aliasName rows right

def joinAndPrune (p : Plan) (joins : List Join) (rows : List (Row ν)) :
    Except String (List (Row ν)) :=
  if joins.isEmpty then .ok rows else (applyJoins H store joins rows).map (prune H p)

def joinExtras (p : Plan) : List TableWithJoins → List (Row ν) → Except String (List (Row ν))
  | [], rows => .ok rows
  | extra :: rest, rows =>
    match extra.relation with
    | .table last _ aliasName => do
      let joined ← joinAndPrune H store p extra.joins
        (prune H p (joinTable H p aliasName rows (store.scan last)))
      joinExtras p rest joined
    | .other => joinExtras p rest rows

def fromRows (p : Plan) (first : TableWithJoins) (extras : List TableWithJoins) :
    Except String (List (Row ν)) := do
  let rows ← joinAndPrune H store p first.joins (prune H p (baseRows store first.relation))
  joinExtras H store p extras rows

def selectItemHeader : SelectItem → String
  | .unnamedExpr e => exprToColName H e
  | .exprWithAlias _ aliasName => aliasName
  | .wildcard => "*"
  | .qualifiedWildcard name => name ++ ".*"

def groupKey (groupKeys : List String) (row : Row ν) : List String :=
  groupKeys.map fun k => ((row.get? k).map (jsonToSortStr H)).getD ""

def groups (keys : List (List String)) : OrdMap (List String) (List Nat) :=
  keys.zipIdx.foldl (fun m p => m.insert p.1 ((m.get? p.1).getD [] ++ [p.2])) .empty

def groupColumn (groupKeys key : List String) (col : String) (rows : List (Row ν)) : Value ν :=
  let first := rows.head?.bind fun row => row.get? col
  match groupKeys.idxOf? col with
  | some i => first.getD (.string ((key[i]?).getD ""))
  | none => first.getD .null

def groupItem (groupKeys key : List String) (rows : List (Row ν)) : SelectItem → List (Value ν)
  | .wildcard => (List.range groupKeys.length).map fun i => .string ((key[i]?).getD "")
  | .qualifiedWildcard _ => [.null]
  | .unnamedExpr e | .exprWithAlias e _ =>
    [if isAggregate H e then evalAggregate H rows e
      else groupColumn groupKeys key (exprToColName H e) rows]

def executeGroupBy (items : List SelectItem) (groupKeys : List String) (rows : List (Row ν)) :
    SelectResult ν :=
  { columns := items.map (selectItemHeader H)
    rows := (groups (rows.map (groupKey H groupKeys))).entries.map fun group =>
      items.flatMap (groupItem H groupKeys group.1 (group.2.filterMap fun i => rows[i]?)) }

def distinctRows (text : List (Value ν) → String) : List String → List (List (Value ν)) →
    List (List (Value ν))
  | _, [] => []
  | seen, row :: rest =>
    if seen.contains (text row) then distinctRows text seen rest
    else row :: distinctRows text (text row :: seen) rest

def isStar : SelectItem → Bool
  | .wildcard => true
  | _ => false

def projectItem (row : Row ν) (item : SelectItem) : Value ν :=
  match SelectItem.expr? item with
  | some e => if isAggregate H e then .null else (evalExpr H row e).intoValue
  | none => .null

def aggregateItem (rows : List (Row ν)) (item : SelectItem) : Value ν :=
  match SelectItem.expr? item with
  | some e => evalAggregateExpr H rows e
  | none => .null

def projectItems (items : List SelectItem) (distinct : Bool) (rows : List (Row ν)) :
    SelectResult ν :=
  let columns := items.map (selectItemHeader H)
  if items.any fun item => ((SelectItem.expr? item).map (containsAggregate H)).getD false then
    ⟨columns, [items.map (aggregateItem H rows)]⟩
  else
    let result := rows.map fun row => items.map (projectItem H row)
    ⟨columns, if distinct then
      distinctRows (fun row => String.intercalate "\x00" (row.map (jsonText H))) [] result
      else result⟩

def projectStar (distinct : Bool) (rows : List (Row ν)) : SelectResult ν :=
  let columns := if rows.isEmpty then ["*"] else columnsOf rows
  let result := rows.map fun row => row.entries.map Prod.snd
  ⟨columns, if distinct then
    distinctRows (fun row => String.intercalate "\x00" (row.map (jsonText H))) [] result
    else result⟩

def projectRows (items : List SelectItem) (distinct : Bool) (rows : List (Row ν)) :
    SelectResult ν :=
  if items.any isStar then projectStar H distinct rows else projectItems H items distinct rows

def havingRow (columns : List String) (values : List (Value ν)) : Row ν :=
  (columns.zip values).foldl (fun m e => (m.insert e.1 e.2).insert (H.lower e.1) e.2) .empty

def applyHaving (having : Option Expr) (r : SelectResult ν) : SelectResult ν :=
  match having with
  | some e => { r with rows := r.rows.filter fun row => holds H (havingRow H r.columns row) e }
  | none => r

def parseUsize (text : String) : Option Nat :=
  let digits := if text.toList.head? = some '+' then text.toList.tail else text.toList
  let n := digits.foldl (fun n c => n * 10 + (c.toNat - 48)) 0
  if !digits.isEmpty && digits.all (fun c => '0' ≤ c && c ≤ '9') && n < 2 ^ 64 then some n else none

def orderIndex (columns : List String) (e : Expr) : Option Nat :=
  match e with
  | .value (.number text) => (parseUsize text).bind fun p => if 0 < p then some (p - 1) else none
  | e =>
    let name := exprToColName H e
    (columns.findIdx? fun c => H.lower c == H.lower name).or (columns.findIdx? (· == name))

def orderBefore (idx : Nat) (asc : Bool) (a b : List (Value ν)) : Prop :=
  let ord := cmpJson H ((a[idx]?).getD .null) ((b[idx]?).getD .null)
  (if asc then ord else ord.swap) ≠ .gt

instance (idx : Nat) (asc : Bool) : DecidableRel (orderBefore H idx asc) := fun a b => by
  unfold orderBefore
  infer_instance

def applyOrderBy (orderBy : List OrderByExpr) (r : SelectResult ν) : SelectResult ν :=
  orderBy.reverse.foldl (fun r ob =>
    match orderIndex H r.columns ob.expr with
    | some idx => { r with rows := r.rows.insertionSort (orderBefore H idx (ob.asc.getD true)) }
    | none => r) r

def applyLimit (limit : Option Expr) (r : SelectResult ν) : SelectResult ν :=
  match limit with
  | some (.value (.number text)) =>
    match parseUsize text with
    | some n => { r with rows := r.rows.take n }
    | none => r
  | _ => r

def whereRows (selection : Option Expr) (rows : List (Row ν)) : List (Row ν) :=
  match selection with
  | some e => rows.filter fun row => holds H row e
  | none => rows

def output (q : Select) (rows : List (Row ν)) : SelectResult ν :=
  if q.groupBy.isEmpty then projectRows H q.projection q.distinct rows
  else executeGroupBy H q.projection (q.groupBy.map (exprToColName H)) rows

def finish (q : Select) (rows : List (Row ν)) : SelectResult ν :=
  applyLimit q.limit (applyOrderBy H q.orderBy (applyHaving H q.having
    (output H q (whereRows H q.selection rows))))

def constantRow (q : Select) : SelectResult ν :=
  { columns := q.projection.map (selectItemHeader H)
    rows := [q.projection.map fun item =>
      ((SelectItem.expr? item).map fun e => (evalExpr H .empty e).intoValue).getD .null] }

def executeSelectSync (q : Select) : Except String (SelectResult ν) :=
  match q.tables with
  | [] => .ok (constantRow H q)
  | first :: extras => (fromRows H store (plan H q) first extras).map (finish H q)

/-- The conjuncts are evaluated until one fails. -/
def conjunctsPanic (row : Row ν) : List Expr → Bool
  | [] => false
  | c :: rest => panics H row c || (holds H row c && conjunctsPanic row rest)

def prunePanics (p : Plan) (rows : List (Row ν)) : Bool :=
  rows.any fun row => conjunctsPanic H row (applicable H p.conjuncts rows)

def joinsPanic : List Join → List (Row ν) → Bool
  | [], _ => false
  | j :: rest, rows =>
    match j.relation with
    | .table _ text aliasName =>
      (rows.any fun l => (store.scan text).any fun r =>
          (JoinOperator.onExpr j.operator).any (panics H (mergeRow aliasName l r))) ||
        joinsPanic rest (rows.flatMap (joinRow H aliasName (JoinOperator.onExpr j.operator)
          (JoinOperator.isLeft j.operator) (store.scan text)))
    | .other => false

def joinAndPrunePanics (p : Plan) (joins : List Join) (rows : List (Row ν)) : Bool :=
  !joins.isEmpty && (joinsPanic H store joins rows ||
    (applyJoins H store joins rows).toOption.any (prunePanics H p))

def extrasPanic (p : Plan) : List TableWithJoins → List (Row ν) → Bool
  | [], _ => false
  | extra :: rest, rows =>
    match extra.relation with
    | .table last _ aliasName =>
      let joined := joinTable H p aliasName rows (store.scan last)
      prunePanics H p joined || joinAndPrunePanics H store p extra.joins (prune H p joined) ||
        (joinAndPrune H store p extra.joins (prune H p joined)).toOption.any (extrasPanic p rest)
    | .other => extrasPanic p rest rows

def fromPanics (p : Plan) (first : TableWithJoins) (extras : List TableWithJoins) : Bool :=
  let base := baseRows store first.relation
  prunePanics H p base || joinAndPrunePanics H store p first.joins (prune H p base) ||
    (joinAndPrune H store p first.joins (prune H p base)).toOption.any (extrasPanic H store p extras)

def wherePanics (selection : Option Expr) (rows : List (Row ν)) : Bool :=
  selection.any fun e => rows.any (panics H · e)

/-- `project_rows` evaluates every item on every row before it looks for aggregates. -/
def projectPanics (items : List SelectItem) (rows : List (Row ν)) : Bool :=
  let exprs := items.filterMap SelectItem.expr?
  !items.any isStar && ((rows.any fun row => exprs.any fun e => !isAggregate H e && panics H row e) ||
    (exprs.any (containsAggregate H) && exprs.any (aggregateExprPanics H rows)))

def groupPanics (items : List SelectItem) (groupKeys : List String) (rows : List (Row ν)) : Bool :=
  (groups (rows.map (groupKey H groupKeys))).entries.any fun group =>
    (items.filterMap SelectItem.expr?).any fun e =>
      isAggregate H e && aggregatePanics H (group.2.filterMap fun i => rows[i]?) e

def outputPanics (q : Select) (rows : List (Row ν)) : Bool :=
  if q.groupBy.isEmpty then projectPanics H q.projection rows
  else groupPanics H q.projection (q.groupBy.map (exprToColName H)) rows

def havingPanics (having : Option Expr) (r : SelectResult ν) : Bool :=
  having.any fun e => r.rows.any fun row => panics H (havingRow H r.columns row) e

def finishPanics (q : Select) (rows : List (Row ν)) : Bool :=
  let kept := whereRows H q.selection rows
  wherePanics H q.selection rows || outputPanics H q kept || havingPanics H q.having (output H q kept)

def constantPanics (q : Select) : Bool :=
  (q.projection.filterMap SelectItem.expr?).any (panics H .empty)

def selectPanics (q : Select) : Bool :=
  match q.tables with
  | [] => constantPanics H q
  | first :: extras => fromPanics H store (plan H q) first extras ||
      (fromRows H store (plan H q) first extras).toOption.any (finishPanics H q)

/-- What `execute_select_sync` returns; `none` is a panic. -/
def selectOutcome (q : Select) : Option (Except String (SelectResult ν)) :=
  if selectPanics H store q then none else some (executeSelectSync H store q)

def naiveExtras : List TableWithJoins → List (Row ν) → Except String (List (Row ν))
  | [], rows => .ok rows
  | extra :: rest, rows =>
    match extra.relation with
    | .table last _ aliasName => do
      let joined ← applyJoins H store extra.joins (crossJoinTables aliasName rows (store.scan last))
      naiveExtras rest joined
    | .other => naiveExtras rest rows

def naiveSelect (q : Select) : Except String (SelectResult ν) :=
  match q.tables with
  | [] => .ok (constantRow H q)
  | first :: extras => do
    let rows ← applyJoins H store first.joins (baseRows store first.relation)
    let all ← naiveExtras H store extras rows
    .ok (finish H q all)

def naiveExtrasPanic : List TableWithJoins → List (Row ν) → Bool
  | [], _ => false
  | extra :: rest, rows =>
    match extra.relation with
    | .table last _ aliasName =>
      let crossed := crossJoinTables aliasName rows (store.scan last)
      joinsPanic H store extra.joins crossed ||
        (applyJoins H store extra.joins crossed).toOption.any (naiveExtrasPanic rest)
    | .other => naiveExtrasPanic rest rows

def naivePanics (q : Select) : Bool :=
  match q.tables with
  | [] => constantPanics H q
  | first :: extras =>
    joinsPanic H store first.joins (baseRows store first.relation) ||
      (applyJoins H store first.joins (baseRows store first.relation)).toOption.any fun rows =>
        naiveExtrasPanic H store extras rows ||
          (naiveExtras H store extras rows).toOption.any (finishPanics H q)

def naiveOutcome (q : Select) : Option (Except String (SelectResult ν)) :=
  if naivePanics H store q then none else some (naiveSelect H store q)

end SelectExec
end WowDb.Query
