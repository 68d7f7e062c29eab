import WowDb.Query.SelectTransparent

/-!
# Outer joins

`apply_joins` of `select_exec.rs` on one JOIN clause between two tables of MEM_STORE, against the
outer joins of SQL. A joined row of the code is one map with plain and qualified names; the SQL row
looks every name up in the table it belongs to. The ON condition of the model is any expression,
those on which `eval_expr` panics included.
-/
namespace WowDb.Query.SelectExec
open WowDb.Lib List

/-- A table of the FROM clause: the last part of its name, its text and its alias. -/
structure FromTable where
  last : String
  text : String
  aliasName : Option String

namespace FromTable

def factor (t : FromTable) : TableFactor := .table t.last t.text t.aliasName

/-- The name that qualifies the table's columns. -/
def scopeName (t : FromTable) : String := t.aliasName.getD t.last

end FromTable

variable {ν φ : Type} (H : Host ν φ) (store : InMemoryStore ν)

open Eval

/-- A row as the base of the join: with an alias, also under its qualified names. -/
def present (t : FromTable) (row : Row ν) : Row ν :=
  match t.aliasName with
  | some a => aliasRow a row
  | none => row

theorem baseRows_factor (t : FromTable) :
    baseRows store t.factor = (store.scan t.last).map (present t) := by
  obtain ⟨last, text, aliasName⟩ := t
  cases aliasName with
  | none => exact (map_id _).symm
  | some a => rfl

section Pairs

variable (a b : FromTable) (on : Expr)

/-- The code's test of ON, on the merged row. -/
def matchesMerged (l r : Row ν) : Bool := holds H (mergeRow b.aliasName (present a l) r) on

variable (isLeft : Bool)

/-- What one row of the first table contributes; `none` stands for no partner. -/
def pairsOf (right : List (Row ν)) (l : Row ν) : List (Row ν × Option (Row ν)) :=
  let matched := right.filter (matchesMerged H a b on l)
  if isLeft && matched.isEmpty then [(l, none)] else matched.map fun r => (l, some r)

/-- The row that stands for a pair in the code. -/
def render (pair : Row ν × Option (Row ν)) : Row ν :=
  match pair.2 with
  | some r => mergeRow b.aliasName (present a pair.1) r
  | none => present a pair.1

def joinedPairs : List (Row ν × Option (Row ν)) :=
  (store.scan a.last).flatMap (pairsOf H a b on isLeft (store.scan b.text))

theorem joinRow_present (right : List (Row ν)) (l : Row ν) :
    joinRow H b.aliasName (some on) isLeft right (present a l) =
      (pairsOf H a b on isLeft right l).map (render a b) := by
  have filtered : (right.map (mergeRow b.aliasName (present a l))).filter
      (fun m => ((some on).map (holds H m)).getD true) =
      (right.filter (matchesMerged H a b on l)).map (mergeRow b.aliasName (present a l)) :=
    filter_map
  unfold joinRow pairsOf
  simp only [filtered, isEmpty_map]
  split
  · rfl
  · rw [map_map]
    rfl

theorem applyJoins_factor (operator : JoinOperator)
    (outer : operator = .leftOuter (some on) ∨ operator = .rightOuter (some on)) :
    applyJoins H store [⟨b.factor, operator⟩] (baseRows store a.factor) =
      .ok ((joinedPairs H store a b on (JoinOperator.isLeft operator)).map (render a b)) := by
  have onExpr : JoinOperator.onExpr operator = some on := by
    rcases outer with rfl | rfl <;> rfl
  have rows : applyJoins H store [⟨b.factor, operator⟩] (baseRows store a.factor) =
      .ok ((baseRows store a.factor).flatMap (joinRow H b.aliasName (JoinOperator.onExpr operator)
        (JoinOperator.isLeft operator) (store.scan b.text))) := rfl
  rw [rows, onExpr, baseRows_factor, joinedPairs, flatMap_map, map_flatMap]
  congr 1
  exact flatMap_congr fun l _ => joinRow_present H a b on _ _ l

/-- `apply_joins` evaluates ON on every pair, so it returns if ON panics on none. -/
theorem joinsPanic_factor (operator : JoinOperator)
    (outer : operator = .leftOuter (some on) ∨ operator = .rightOuter (some on)) :
    joinsPanic H store [⟨b.factor, operator⟩] (baseRows store a.factor) = false ↔
      ∀ l ∈ store.scan a.last, ∀ r ∈ store.scan b.text,
        panics H (mergeRow b.aliasName (present a l) r) on = false := by
  have onExpr : JoinOperator.onExpr operator = some on := by
    rcases outer with rfl | rfl <;> rfl
  simp only [joinsPanic, FromTable.factor, onExpr, Option.any_some, Bool.or_false]
  rw [← FromTable.factor, baseRows_factor]
  simp only [any_map, any_eq_false, Function.comp_apply, Bool.not_eq_true]

end Pairs

section Sql

variable (a b : FromTable) (on : Expr)

/-- The columns of a table: those that some row of it has. -/
def tableColumns (table : String) : List String :=
  (store.scan table).flatMap fun row => row.entries.map Prod.fst

/-- A column of one side; NULL where the side is missing or lacks it. -/
def sideValue (side : Option (Row ν)) (column : String) : Value ν :=
  (side.bind fun row => row.get? column).getD .null

/-- The row of SQL: plain names, those of the first table before those of the second, then
every column under the name of its table. -/
def sqlRow (l r : Option (Row ν)) : Row ν :=
  .ofList ((tableColumns store b.text).map (fun x => (x, sideValue r x)) ++
    (tableColumns store a.last).map (fun x => (x, sideValue l x)) ++
    (tableColumns store a.last).map (fun x => (qualify a.scopeName x, sideValue l x)) ++
    (tableColumns store b.text).map (fun x => (qualify b.scopeName x, sideValue r x)))

def matchesSql (l r : Row ν) : Bool := holds H (sqlRow store a b (some l) (some r)) on

/-- LEFT JOIN of SQL: the matching pairs, and every row of `a` without one alone. -/
def sqlLeftJoin : List (Row ν × Option (Row ν)) :=
  (store.scan a.last).flatMap fun l =>
    let matched := (store.scan b.text).filter (matchesSql H store a b on l)
    if matched.isEmpty then [(l, none)] else matched.map fun r => (l, some r)

/-- RIGHT JOIN of SQL: the matching pairs, and every row of `b` without one alone. -/
def sqlRightJoin : List (Option (Row ν) × Row ν) :=
  ((store.scan a.last).flatMap fun l =>
      ((store.scan b.text).filter (matchesSql H store a b on l)).map fun r => (some l, r)) ++
    ((store.scan b.text).filter fun r =>
      (store.scan a.last).all fun l => !matchesSql H store a b on l r).map fun r => (none, r)

/-- The pairs of the code's RIGHT JOIN, which it evaluates like an inner join. -/
def rightPairs : List (Option (Row ν) × Row ν) :=
  (joinedPairs H store a b on false).filterMap fun pair => pair.2.map fun r => (some pair.1, r)

/-- `apply_joins` returns for both outer joins, and they are those of SQL. -/
structure FollowsSql : Prop where
  returns : ∀ operator, operator = .leftOuter (some on) ∨ operator = .rightOuter (some on) →
    joinsPanic H store [⟨b.factor, operator⟩] (baseRows store a.factor) = false
  left : (joinedPairs H store a b on true).Perm (sqlLeftJoin H store a b on)
  nulls : ∀ l, (l, none) ∈ joinedPairs H store a b on true → ∀ x ∈ tableColumns store b.text,
    (evalExpr H (render a b (l, none)) (.compoundIdentifier [b.scopeName, x])).isNull = true
  right : (rightPairs H store a b on).Perm (sqlRightJoin H store a b on)

/-- ON panics on no pair and means what it means in SQL, no column is shadowed, and every row of
`b` has a match. -/
structure Unshadowed : Prop where
  whole : ∀ l ∈ store.scan a.last, ∀ r ∈ store.scan b.text,
    panics H (mergeRow b.aliasName (present a l) r) on = false
  agrees : ∀ l ∈ store.scan a.last, ∀ r ∈ store.scan b.text,
    matchesMerged H a b on l r = matchesSql H store a b on l r
  empty : ∀ l ∈ store.scan a.last, (∀ r ∈ store.scan b.text, matchesSql H store a b on l r = false) →
    ∀ x ∈ tableColumns store b.text, ∀ v,
      compoundColumn (present a l) [b.scopeName, x] = some v → v = .null
  matched : ∀ r ∈ store.scan b.text, ∃ l ∈ store.scan a.last, matchesSql H store a b on l r = true

variable {l r : Row ν}

theorem mem_pairs_some (matching : Row ν → Row ν → Bool) (lefts rights : List (Row ν))
    (isLeft : Bool) :
    (l, some r) ∈ (lefts.flatMap fun l =>
        if isLeft && (rights.filter (matching l)).isEmpty then [(l, none)]
        else (rights.filter (matching l)).map fun r => (l, some r)) ↔
      l ∈ lefts ∧ r ∈ rights ∧ matching l r = true := by
  simp only [mem_flatMap]
  constructor
  · rintro ⟨k, inLefts, member⟩
    split at member
    · simp at member
    · obtain ⟨s, kept, same⟩ := mem_map.mp member
      cases same
      exact ⟨inLefts, mem_filter.mp kept⟩
  · rintro ⟨inLefts, kept⟩
    have member := mem_filter.mpr kept
    refine ⟨l, inLefts, ?_⟩
    rw [if_neg (by simp [ne_nil_of_mem member])]
    exact mem_map_of_mem member

theorem mem_pairs_none {matching : Row ν → Row ν → Bool} {lefts rights : List (Row ν)} {l : Row ν} :
    (l, none) ∈ (lefts.flatMap fun l =>
        if true && (rights.filter (matching l)).isEmpty then [(l, none)]
        else (rights.filter (matching l)).map fun r => (l, some r)) ↔
      l ∈ lefts ∧ ∀ r ∈ rights, matching l r = false := by
  simp only [List.mem_flatMap, Bool.true_and, List.isEmpty_iff, List.filter_eq_nil_iff,
    Bool.not_eq_true]
  constructor
  · rintro ⟨k, inLefts, member⟩
    split at member
    · next alone =>
      cases List.mem_singleton.mp member
      exact ⟨inLefts, alone⟩
    · simp at member
  · rintro ⟨inLefts, alone⟩
    exact ⟨l, inLefts, by rw [if_pos alone]; simp⟩

theorem mem_joinedPairs {isLeft : Bool} :
    (l, some r) ∈ joinedPairs H store a b on isLeft ↔
      l ∈ store.scan a.last ∧ r ∈ store.scan b.text ∧ matchesMerged H a b on l r = true :=
  mem_pairs_some _ _ _ _

theorem mem_sqlLeftJoin : (l, some r) ∈ sqlLeftJoin H store a b on ↔
      l ∈ store.scan a.last ∧ r ∈ store.scan b.text ∧ matchesSql H store a b on l r = true := by
  have both := mem_pairs_some (matchesSql H store a b on) (store.scan a.last) (store.scan b.text)
    true (l := l) (r := r)
  simp only [Bool.true_and] at both
  exact both

theorem filter_matches {l : Row ν}
    (agrees : ∀ r ∈ store.scan b.text, matchesMerged H a b on l r = matchesSql H store a b on l r) :
    (store.scan b.text).filter (matchesMerged H a b on l) =
      (store.scan b.text).filter (matchesSql H store a b on l) :=
  filter_congr agrees

theorem joinedPairs_eq (agrees : ∀ l ∈ store.scan a.last, ∀ r ∈ store.scan b.text,
      matchesMerged H a b on l r = matchesSql H store a b on l r) :
    joinedPairs H store a b on true = sqlLeftJoin H store a b on := by
  refine flatMap_congr fun l member => ?_
  simp only [pairsOf, Bool.true_and, filter_matches H store a b on (agrees l member)]

theorem rightPairs_eq (agrees : ∀ l ∈ store.scan a.last, ∀ r ∈ store.scan b.text,
      matchesMerged H a b on l r = matchesSql H store a b on l r) :
    rightPairs H store a b on = (store.scan a.last).flatMap fun l =>
      ((store.scan b.text).filter (matchesSql H store a b on l)).map fun r => (some l, r) := by
  rw [rightPairs, joinedPairs, filterMap_flatMap]
  refine flatMap_congr fun l member => ?_
  simp only [pairsOf, Bool.false_and, Bool.false_eq_true, if_false, filterMap_map,
    filter_matches H store a b on (agrees l member)]
  exact congrFun filterMap_eq_map _

theorem isNull_columnResult (found : Option (Value ν)) :
    (columnResult found).isNull = true ↔ ∀ v, found = some v → v = .null := by
  cases found with
  | none => simp [columnResult, EvalResult.isNull]
  | some v => cases v <;> simp [columnResult, EvalResult.isNull]

end Sql

end WowDb.Query.SelectExec
