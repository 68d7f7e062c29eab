import Mathlib

/-!
# The rewrites of the optimizer

`query-node/src/planner/cbo/optimizer.rs`, which never fails.
-/
namespace WowDb.Query.Planner

structure ColumnRef where
  table : Option String
  column : String
  deriving DecidableEq

def ColumnRef.new (column : String) : ColumnRef := ⟨none, column⟩

inductive ScalarValue (φ : Type) where
  | int64 (n : Option Int)
  | float64 (x : Option φ)
  | utf8 (s : Option String)
  | boolean (b : Option Bool)
  | null
  deriving DecidableEq

inductive BinaryOp where
  | add | sub | mul | div | eq | ne | lt | le | gt | ge | and | or
  deriving DecidableEq

inductive AggFunc where
  | count | sum | avg | min | max | countDistinct
  deriving DecidableEq

inductive Expr (φ : Type) where
  | column (c : ColumnRef)
  | literal (v : ScalarValue φ)
  | binaryOp (left : Expr φ) (op : BinaryOp) (right : Expr φ)
  | alias (e : Expr φ) (name : String)
  | aggFunc (func : AggFunc) (input : Expr φ) (name : String) (distinct : Bool)
  | wildcard
  deriving DecidableEq

structure AggExpr (φ : Type) where
  func : AggFunc
  input : Expr φ
  name : String
  distinct : Bool
  deriving DecidableEq

structure Predicate (φ : Type) where
  expr : Expr φ
  deriving DecidableEq

structure PartitionFilter (φ : Type) where
  column : String
  lo : Option (ScalarValue φ)
  hi : Option (ScalarValue φ)
  deriving DecidableEq

inductive PartitionVariant where
  | range (column : String)
  | list (column : String)
  deriving DecidableEq

structure ScanNode (φ : Type) where
  cubeName : String
  partitionKey : PartitionVariant
  projectedCols : Option (List ColumnRef)
  predicates : List (Predicate φ)
  partitionFilter : Option (PartitionFilter φ)
  deriving DecidableEq

structure SortKeyExpr (φ : Type) where
  expr : Expr φ
  descending : Bool
  nullsFirst : Bool
  deriving DecidableEq

inductive PlanJoinType where
  | inner | left | right | full | cross
  deriving DecidableEq

structure FunnelParams where
  userKey : String
  steps : List String
  windowSec : Int
  deriving DecidableEq

structure CohortParams where
  userKey : String
  entryEvent : String
  returnEvent : String
  periodUnit : String
  maxPeriods : Nat
  deriving DecidableEq

structure PathParams where
  userKey : String
  maxDepth : Nat
  sessionGap : Int
  topN : Nat
  deriving DecidableEq

inductive LogicalPlan (φ : Type) where
  | scan (node : ScanNode φ)
  | filter (input : LogicalPlan φ) (predicate : Predicate φ)
  | project (input : LogicalPlan φ) (exprs : List (Expr φ))
  | aggregate (input : LogicalPlan φ) (groupBy : List (Expr φ)) (aggExprs : List (AggExpr φ))
  | join (left right : LogicalPlan φ) (joinType : PlanJoinType) (condition : Predicate φ)
  | limit (input : LogicalPlan φ) (n : Nat)
  | sort (input : LogicalPlan φ) (sortKeys : List (SortKeyExpr φ))
  | funnelAnalysis (input : LogicalPlan φ) (params : FunnelParams)
  | cohortAnalysis (input : LogicalPlan φ) (params : CohortParams)
  | pathAnalysis (input : LogicalPlan φ) (params : PathParams)
  | values (rows : List (List (ScalarValue φ)))

variable {φ : Type}

def Expr.columns : Expr φ → List String
  | .column c => [c.column]
  | .literal _ => []
  | .binaryOp left _ right => left.columns ++ right.columns
  | .alias e _ => e.columns
  | .aggFunc _ input _ _ => input.columns
  | .wildcard => []

/-- What a plan's meaning depends on, over rows of any type. In a plan over one table a
qualifier can only name that table, so a row is read by the name of the column. -/
structure Interpretation (φ ρ : Type) where
  table : String → List ρ
  value : ρ → String → ScalarValue φ
  /-- `none` for values that are not comparable, such as NULL. -/
  compare : ScalarValue φ → ScalarValue φ → Option Ordering
  compare_swap : ∀ a b, compare b a = (compare a b).map Ordering.swap
  truth : Expr φ → ρ → Bool
  /-- The row with these columns only. -/
  restrict : List String → ρ → ρ
  value_restrict : ∀ cols row col, col ∈ cols → value (restrict cols row) col = value row col
  truth_restrict : ∀ cols row e, (∀ col ∈ Expr.columns e, col ∈ cols) →
    truth e (restrict cols row) = truth e row
  project : List (Expr φ) → List ρ → List ρ
  aggregate : List (Expr φ) → List (AggExpr φ) → List ρ → List ρ
  join : PlanJoinType → Predicate φ → List ρ → List ρ → List ρ
  sort : List (SortKeyExpr φ) → List ρ → List ρ
  funnel : FunnelParams → List ρ → List ρ
  cohort : CohortParams → List ρ → List ρ
  path : PathParams → List ρ → List ρ
  values : List (List (ScalarValue φ)) → List ρ

def BinaryOp.accepts : BinaryOp → Option (Ordering → Bool)
  | .eq => some (· == .eq)
  | .lt => some (· == .lt)
  | .le => some (· != .gt)
  | .gt => some (· == .gt)
  | .ge => some (· != .lt)
  | .add | .sub | .mul | .div | .ne | .and | .or => none

namespace Interpretation

variable {ρ : Type} (I : Interpretation φ ρ)

def compares (accept : Ordering → Bool) (a b : ScalarValue φ) : Bool :=
  match I.compare a b with
  | some outcome => accept outcome
  | none => false

def holds (e : Expr φ) (row : ρ) : Bool :=
  match e with
  | .binaryOp (.column c) op (.literal v) =>
    match op.accepts with
    | some accept => I.compares accept (I.value row c.column) v
    | none => I.truth e row
  | _ => I.truth e row

def inRange (f : PartitionFilter φ) (row : ρ) : Bool :=
  (f.lo.all fun lo => I.compares (· != .gt) lo (I.value row f.column)) &&
    f.hi.all fun hi => I.compares (· != .gt) (I.value row f.column) hi

def scanRows (node : ScanNode φ) : List ρ :=
  let rows := (I.table node.cubeName).filter fun row =>
    (node.predicates.all fun p => I.holds p.expr row) && node.partitionFilter.all (I.inRange · row)
  match node.projectedCols with
  | none => rows
  | some cols => rows.map (I.restrict (cols.map (·.column)))

def eval : LogicalPlan φ → List ρ
  | .scan node => I.scanRows node
  | .filter input predicate => (eval input).filter (I.holds predicate.expr)
  | .project input exprs => I.project exprs (eval input)
  | .aggregate input groupBy aggExprs => I.aggregate groupBy aggExprs (eval input)
  | .join left right joinType condition => I.join joinType condition (eval left) (eval right)
  | .limit input n => (eval input).take n
  | .sort input sortKeys => I.sort sortKeys (eval input)
  | .funnelAnalysis input params => I.funnel params (eval input)
  | .cohortAnalysis input params => I.cohort params (eval input)
  | .pathAnalysis input params => I.path params (eval input)
  | .values rows => I.values rows

theorem holds_restrict (cols : List String) (row : ρ) (e : Expr φ)
    (reads : ∀ col ∈ e.columns, col ∈ cols) : I.holds e (I.restrict cols row) = I.holds e row := by
  have same := I.truth_restrict cols row e reads
  unfold holds
  split
  · next c op v =>
    have value := I.value_restrict cols row c.column (reads c.column (by simp [Expr.columns]))
    rw [value, same]
  · exact same

end Interpretation

variable {φ ρ : Type}

def PartitionVariant.column : PartitionVariant → String
  | .range column => column
  | .list column => column

namespace CboOptimizer

def pushDownPredicates : LogicalPlan φ → LogicalPlan φ
  | .filter (.scan node) predicate =>
    .scan { node with predicates := node.predicates ++ [predicate] }
  | .filter input predicate => .filter (pushDownPredicates input) predicate
  | .limit input n => .limit (pushDownPredicates input) n
  | other => other

def extractRange (expr : Expr φ) (col : String) :
    Option (Option (ScalarValue φ) × Option (ScalarValue φ)) :=
  match expr with
  | .binaryOp (.column c) op (.literal v) =>
    if c.column = col then
      match op with
      | .gt | .ge => some (some v, none)
      | .lt | .le => some (none, some v)
      | .eq => some (some v, some v)
      | _ => none
    else none
  | _ => none

def tighten (col : String) (range : Option (ScalarValue φ) × Option (ScalarValue φ))
    (pred : Predicate φ) : Option (ScalarValue φ) × Option (ScalarValue φ) :=
  match extractRange pred.expr col with
  | some (plo, phi) => (plo.or range.1, phi.or range.2)
  | none => range

def pruneScan (node : ScanNode φ) : ScanNode φ :=
  let col := node.partitionKey.column
  let (lo, hi) := node.predicates.foldl (tighten col) (none, none)
  if lo.isSome || hi.isSome then { node with partitionFilter := some ⟨col, lo, hi⟩ } else node

def partitionPruning : LogicalPlan φ → LogicalPlan φ
  | .scan node => .scan (pruneScan node)
  | .filter input predicate => .filter (partitionPruning input) predicate
  | .limit input n => .limit (partitionPruning input) n
  | other => other

def estimateRows (rowCount : String → Nat) : LogicalPlan φ → Nat
  | .scan node => rowCount node.cubeName
  | .filter input _ => estimateRows rowCount input / 10
  | .limit _ n => n
  | _ => 1000

def optimizeJoinOrder (rowCount : String → Nat) : LogicalPlan φ → LogicalPlan φ
  | .join left right joinType condition =>
    if estimateRows rowCount right < estimateRows rowCount left then
      .join right left joinType condition
    else .join left right joinType condition
  | other => other

def optimize (rowCount : String → Nat) (plan : LogicalPlan φ) : LogicalPlan φ :=
  optimizeJoinOrder rowCount (partitionPruning (pushDownPredicates plan))

end CboOptimizer

namespace LogicalPlan

def joinFree : LogicalPlan φ → Bool
  | .scan _ | .values _ => true
  | .join _ _ _ _ => false
  | .filter input _ | .project input _ | .aggregate input _ _ | .limit input _ | .sort input _
  | .funnelAnalysis input _ | .cohortAnalysis input _ | .pathAnalysis input _ => input.joinFree

def Unpruned : LogicalPlan φ → Prop
  | .scan node => node.partitionFilter = none
  | .values _ => True
  | .join left right _ _ => left.Unpruned ∧ right.Unpruned
  | .filter input _ | .project input _ | .aggregate input _ _ | .limit input _ | .sort input _
  | .funnelAnalysis input _ | .cohortAnalysis input _ | .pathAnalysis input _ => input.Unpruned

def Scoped : LogicalPlan φ → Prop
  | .scan _ | .values _ => True
  | .join left right _ _ => left.Scoped ∧ right.Scoped
  | .filter input predicate => input.Scoped ∧ ∀ node, input = .scan node →
      ∀ cols ∈ node.projectedCols, ∀ col ∈ predicate.expr.columns, col ∈ cols.map (·.column)
  | .project input _ | .aggregate input _ _ | .limit input _ | .sort input _
  | .funnelAnalysis input _ | .cohortAnalysis input _ | .pathAnalysis input _ => input.Scoped

end LogicalPlan

namespace CboOptimizer
open Interpretation List

variable (I : Interpretation φ ρ)

theorem scanRows_push (node : ScanNode φ) (predicate : Predicate φ)
    (reads : ∀ cols ∈ node.projectedCols, ∀ col ∈ predicate.expr.columns,
      col ∈ cols.map (·.column)) :
    I.scanRows { node with predicates := node.predicates ++ [predicate] } =
      (I.scanRows node).filter (I.holds predicate.expr) := by
  have rows : (I.table node.cubeName).filter (fun row =>
        ((node.predicates ++ [predicate]).all fun p => I.holds p.expr row) &&
          node.partitionFilter.all (I.inRange · row)) =
      ((I.table node.cubeName).filter fun row => (node.predicates.all fun p => I.holds p.expr row) &&
          node.partitionFilter.all (I.inRange · row)).filter (I.holds predicate.expr) := by
    rw [filter_filter]
    refine filter_congr fun row _ => ?_
    rw [all_append, all_cons, all_nil, Bool.and_true, Bool.and_right_comm,
      Bool.and_comm]
  cases projection : node.projectedCols with
  | none => simp only [scanRows, rows, projection]
  | some cols =>
    simp only [scanRows, rows, projection, filter_map]
    congr 1
    refine filter_congr fun row _ => ?_
    exact (I.holds_restrict _ row predicate.expr (reads cols projection)).symm

variable (plan : LogicalPlan φ)

theorem eval_pushDownPredicates (inScope : plan.Scoped) :
    I.eval (pushDownPredicates plan) = I.eval plan := by
  induction plan using pushDownPredicates.induct with
  | case1 node predicate => exact scanRows_push I node predicate (inScope.2 node rfl)
  | case2 input predicate notScan ih =>
    rw [pushDownPredicates, eval, eval, ih inScope.1]
    exact notScan
  | case3 input n ih => rw [pushDownPredicates, eval, eval, ih inScope]
  | case4 other =>
    rw [pushDownPredicates]
    all_goals assumption

theorem unpruned_pushDownPredicates (unpruned : plan.Unpruned) :
    (pushDownPredicates plan).Unpruned := by
  induction plan using pushDownPredicates.induct with
  | case1 node predicate => exact unpruned
  | case2 input predicate notScan ih =>
    rw [pushDownPredicates]
    · exact ih unpruned
    · exact notScan
  | case3 input n ih =>
    rw [pushDownPredicates]
    exact ih unpruned
  | case4 other =>
    rw [pushDownPredicates]
    all_goals assumption

variable {f g : Ordering → Bool} {a b : ScalarValue φ}

theorem compares_weaken (related : ∀ o, f o = true → g o = true)
    (holds : I.compares f a b = true) : I.compares g a b = true := by
  unfold compares at holds ⊢
  cases outcome : I.compare a b with
  | none =>
    rw [outcome] at holds
    cases holds
  | some o =>
    rw [outcome] at holds
    exact related o holds

theorem compares_swap (related : ∀ o, f o = true → g o.swap = true)
    (holds : I.compares f a b = true) : I.compares g b a = true := by
  have turned : I.compares g b a = I.compares (fun o => g o.swap) a b := by
    rw [compares, compares, I.compare_swap a b]
    cases I.compare a b <;> rfl
  rw [turned]
  exact compares_weaken I related holds

theorem inRange_extractRange {expr : Expr φ} {col : String}
    {lo hi : Option (ScalarValue φ)} (extracted : extractRange expr col = some (lo, hi)) {row : ρ}
    (holds : I.holds expr row = true) : I.inRange ⟨col, lo, hi⟩ row = true := by
  unfold extractRange at extracted
  split at extracted
  · next c op v =>
    split at extracted
    · next own =>
      subst own
      -- each operator either gives a bound that it implies, or none
      cases op <;> simp only [reduceCtorEq, Option.some.injEq, Prod.mk.injEq] at extracted <;>
        obtain ⟨rfl, rfl⟩ := extracted <;>
        simp only [Interpretation.holds, BinaryOp.accepts] at holds
      case eq =>
        have above := compares_swap I (g := (· != .gt)) (by decide) holds
        have below := compares_weaken I (g := (· != .gt)) (by decide) holds
        simp [inRange, above, below]
      case lt =>
        have below := compares_weaken I (g := (· != .gt)) (by decide) holds
        simp [inRange, below]
      case le => simp [inRange, holds]
      case gt =>
        have above := compares_swap I (g := (· != .gt)) (by decide) holds
        simp [inRange, above]
      case ge =>
        have above := compares_swap I (g := (· != .gt)) (by decide) holds
        simp [inRange, above]
    · cases extracted
  · cases extracted

theorem inRange_or {col : String} {lo lo' hi hi' : Option (ScalarValue φ)} {row : ρ}
    (first : I.inRange ⟨col, lo, hi⟩ row = true) (second : I.inRange ⟨col, lo', hi'⟩ row = true) :
    I.inRange ⟨col, lo.or lo', hi.or hi'⟩ row = true := by
  simp only [inRange, Bool.and_eq_true] at first second ⊢
  refine ⟨?_, ?_⟩
  · cases lo with
    | none => exact second.1
    | some _ => exact first.1
  · cases hi with
    | none => exact second.2
    | some _ => exact first.2

theorem inRange_foldl_tighten (col : String) (preds : List (Predicate φ)) {row : ρ}
    (holds : ∀ p ∈ preds, I.holds p.expr row = true)
    (range : Option (ScalarValue φ) × Option (ScalarValue φ))
    (implied : I.inRange ⟨col, range.1, range.2⟩ row = true) :
    I.inRange ⟨col, (preds.foldl (tighten col) range).1, (preds.foldl (tighten col) range).2⟩ row =
      true := by
  induction preds generalizing range with
  | nil => exact implied
  | cons pred rest ih =>
    refine ih (fun p member => holds p (by simp [member])) _ ?_
    unfold tighten
    cases extracted : extractRange pred.expr col with
    | none => exact implied
    | some bounds =>
      exact inRange_or I (inRange_extractRange I extracted (holds pred (by simp))) implied

theorem scanRows_pruneScan (node : ScanNode φ) (unpruned : node.partitionFilter = none) :
    I.scanRows (pruneScan node) = I.scanRows node := by
  unfold pruneScan
  simp only
  split
  · have kept : (I.table node.cubeName).filter (fun row =>
          (node.predicates.all fun p => I.holds p.expr row) &&
            I.inRange ⟨node.partitionKey.column,
              (node.predicates.foldl (tighten node.partitionKey.column) (none, none)).1,
              (node.predicates.foldl (tighten node.partitionKey.column) (none, none)).2⟩ row) =
        (I.table node.cubeName).filter fun row =>
          node.predicates.all fun p => I.holds p.expr row := by
      refine filter_congr fun row _ => ?_
      cases selected : node.predicates.all fun p => I.holds p.expr row with
      | false => rfl
      | true =>
        rw [Bool.true_and]
        exact inRange_foldl_tighten I _ _ (all_eq_true.mp selected) (none, none) rfl
    simp only [scanRows, unpruned, Option.all_some, Option.all_none, Bool.and_true, kept]
  · rfl

theorem eval_partitionPruning (unpruned : plan.Unpruned) :
    I.eval (partitionPruning plan) = I.eval plan := by
  induction plan using partitionPruning.induct with
  | case1 node => exact scanRows_pruneScan I node unpruned
  | case2 input predicate ih => rw [partitionPruning, eval, eval, ih unpruned]
  | case3 input n ih => rw [partitionPruning, eval, eval, ih unpruned]
  | case4 other =>
    rw [partitionPruning]
    all_goals assumption

theorem joinFree_pushDownPredicates : (pushDownPredicates plan).joinFree = plan.joinFree := by
  induction plan using pushDownPredicates.induct with
  | case1 node predicate => rfl
  | case2 input predicate notScan ih =>
    rw [pushDownPredicates]
    · exact ih
    · exact notScan
  | case3 input n ih =>
    rw [pushDownPredicates]
    exact ih
  | case4 other =>
    rw [pushDownPredicates]
    all_goals assumption

theorem joinFree_partitionPruning : (partitionPruning plan).joinFree = plan.joinFree := by
  induction plan using partitionPruning.induct with
  | case1 node => rfl
  | case2 input predicate ih => exact ih
  | case3 input n ih => exact ih
  | case4 other =>
    rw [partitionPruning]
    all_goals assumption

theorem optimizeJoinOrder_of_joinFree (rowCount : String → Nat) {plan : LogicalPlan φ}
    (joinFree : plan.joinFree = true) : optimizeJoinOrder rowCount plan = plan := by
  cases plan with
  | join left right joinType condition => cases joinFree
  | _ => rfl

/-- The rewrites keep the rows of every plan over one table, in their order. -/
theorem eval_optimize (rowCount : String → Nat) (plan : LogicalPlan φ)
    (joinFree : plan.joinFree = true) (unpruned : plan.Unpruned) (inScope : plan.Scoped) :
    I.eval (optimize rowCount plan) = I.eval plan := by
  have free : (partitionPruning (pushDownPredicates plan)).joinFree = true := by
    rw [joinFree_partitionPruning, joinFree_pushDownPredicates]
    exact joinFree
  rw [optimize, optimizeJoinOrder_of_joinFree rowCount free,
    eval_partitionPruning I _ (unpruned_pushDownPredicates plan unpruned),
    eval_pushDownPredicates I plan inScope]

def namedRows (table : String → List (List (String × ScalarValue φ))) :
    Interpretation φ (List (String × ScalarValue φ)) where
  table := table
  value row col := (row.lookup col).getD .null
  compare
    | .int64 (some a), .int64 (some b) => some (compare a b)
    | _, _ => none
  compare_swap a b := by
    rcases a with (_ | a) | _ | _ | _ | _ <;> rcases b with (_ | b) | _ | _ | _ | _ <;> try rfl
    exact congrArg some Std.OrientedOrd.eq_swap
  truth e _ := match e with
    | .literal (.boolean (some b)) => b
    | _ => false
  restrict cols row := row.filter fun entry => cols.contains entry.1
  value_restrict cols row col listed := by
    congr 1
    induction row with
    | nil => rfl
    | cons entry rest ih =>
      obtain ⟨name, v⟩ := entry
      by_cases own : col = name
      · subst own
        simp [listed]
      · have key : (col == name) = false := by simpa using own
        rw [List.lookup_cons, key, ← ih, List.filter_cons]
        split
        · rw [List.lookup_cons, key]
        · rfl
  truth_restrict _ _ _ _ := rfl
  project _ rows := rows
  aggregate _ _ rows := rows
  join _ _ left _ := left
  sort _ rows := rows
  funnel _ rows := rows
  cohort _ rows := rows
  path _ rows := rows
  values _ := []

theorem eval_optimize_two_filters :
    let row (ts : Int) : List (String × ScalarValue Nat) := [("event_time", .int64 (some ts))]
    let events : ScanNode Nat := ⟨"events", .range "event_time", none, [], none⟩
    let bound (op : BinaryOp) (n : Int) : Predicate Nat :=
      ⟨.binaryOp (.column (.new "event_time")) op (.literal (.int64 (some n)))⟩
    let plan : LogicalPlan Nat :=
      .limit (.filter (.filter (.scan events) (bound .ge 3)) (bound .lt 9)) 2
    let pruned : ScanNode Nat :=
      { events with
        predicates := [bound .ge 3]
        partitionFilter := some ⟨"event_time", some (.int64 (some 3)), none⟩ }
    let I := namedRows fun _ => [row 1, row 3, row 12, row 5, row 7]
    CboOptimizer.optimize (fun _ => 0) plan = .limit (.filter (.scan pruned) (bound .lt 9)) 2 ∧
      I.eval (CboOptimizer.optimize (fun _ => 0) plan) = I.eval plan ∧
      I.eval plan = [row 3, row 5] := by
  intro row events bound plan pruned I
  refine ⟨rfl, eval_optimize I (fun _ => 0) plan rfl rfl ⟨⟨trivial, ?_⟩, nofun⟩, by decide +kernel⟩
  intro node same cols member
  cases same
  cases member

end CboOptimizer

variable {φ ρ : Type}

/-- What a join depends on: columns by name. -/
structure SqlJoin (φ ρ : Type) where
  rows : LogicalPlan φ → Multiset ρ
  nullRow : LogicalPlan φ → ρ
  on : Predicate φ → LogicalPlan φ → LogicalPlan φ → ρ → ρ → Bool
  on_comm : ∀ condition l r a b, on condition r l b a = on condition l r a b

namespace SqlJoin

abbrev Row (φ ρ : Type) := Multiset (LogicalPlan φ × ρ)

def row (l r : LogicalPlan φ) (a b : ρ) : Row φ ρ := {(l, a), (r, b)}

variable (S : SqlJoin φ ρ) (condition : Predicate φ) (l r : LogicalPlan φ)

def matched : Multiset (Row φ ρ) :=
  (S.rows l).bind fun a => (S.rows r).bind fun b =>
    if S.on condition l r a b then {row l r a b} else 0

def crossed : Multiset (Row φ ρ) :=
  (S.rows l).bind fun a => (S.rows r).bind fun b => {row l r a b}

def unmatched : Multiset ρ :=
  (S.rows l).filter fun a => ∀ b ∈ S.rows r, S.on condition l r a b = false

def kept : Multiset (Row φ ρ) :=
  (S.unmatched condition l r).map fun a => row l r a (S.nullRow r)

/-- The rows of a join; `none` for other plans. -/
def eval : LogicalPlan φ → Option (Multiset (Row φ ρ))
  | .join l r .inner condition => some (S.matched condition l r)
  | .join l r .left condition => some (S.matched condition l r + S.kept condition l r)
  | .join l r .right condition => some (S.matched condition l r + S.kept condition r l)
  | .join l r .full condition =>
    some (S.matched condition l r + S.kept condition l r + S.kept condition r l)
  | .join l r .cross _ => some (S.crossed l r)
  | _ => none

theorem row_comm (a b : ρ) : row r l b a = row l r a b := Multiset.pair_comm _ _

theorem matched_comm : S.matched condition r l = S.matched condition l r := by
  rw [matched, Multiset.bind_bind, matched]
  simp only [S.on_comm condition l r, row_comm]

theorem crossed_comm : S.crossed r l = S.crossed l r := by
  rw [crossed, Multiset.bind_bind, crossed]
  simp only [row_comm]

/-- Unmatched rows are NULLs, equally many. -/
def NullsOnly : Prop :=
  (∀ a ∈ S.unmatched condition l r, a = S.nullRow l) ∧
    (∀ b ∈ S.unmatched condition r l, b = S.nullRow r) ∧
    (S.unmatched condition l r).card = (S.unmatched condition r l).card

variable {l r}

theorem row_inj (differ : l ≠ r) {a b a' b' : ρ} :
    row l r a b = row l r a' b' ↔ a = a' ∧ b = b' := by
  constructor
  · intro same
    have first : (l, a) ∈ row l r a' b' := same ▸ by simp [row]
    have second : (r, b) ∈ row l r a' b' := same ▸ by simp [row]
    simp only [row, Multiset.insert_eq_cons, Multiset.mem_cons, Multiset.mem_singleton,
      Prod.mk.injEq, differ, differ.symm, false_and, true_and, or_false, false_or] at first second
    exact ⟨first, second⟩
  · rintro ⟨rfl, rfl⟩
    rfl

theorem kept_eq_iff (differ : l ≠ r) :
    S.kept condition l r = S.kept condition r l ↔ S.NullsOnly condition l r := by
  have flipped : S.kept condition r l =
      (S.unmatched condition r l).map fun b => row l r (S.nullRow l) b :=
    Multiset.map_congr rfl fun b _ => row_comm l r _ b
  rw [flipped, kept]
  constructor
  · intro same
    refine ⟨fun a mem => ?_, fun b mem => ?_, ?_⟩
    · have there := same ▸ Multiset.mem_map_of_mem (fun a => row l r a (S.nullRow r)) mem
      obtain ⟨b, -, equal⟩ := Multiset.mem_map.mp there
      exact ((row_inj differ).mp equal).1.symm
    · have there := same.symm ▸ Multiset.mem_map_of_mem (fun b => row l r (S.nullRow l) b) mem
      obtain ⟨a, -, equal⟩ := Multiset.mem_map.mp there
      exact ((row_inj differ).mp equal).2.symm
    · have sizes := congrArg Multiset.card same
      simpa using sizes
  · rintro ⟨left, right, sizes⟩
    rw [Multiset.eq_replicate_card.mpr left, Multiset.eq_replicate_card.mpr right,
      Multiset.map_replicate, Multiset.map_replicate, sizes]

end SqlJoin

namespace CboOptimizer

/-- Exactly when the sides stay or cannot be told apart. -/
theorem eval_optimizeJoinOrder_iff (S : SqlJoin φ ρ) (rowCount : String → Nat)
    (l r : LogicalPlan φ) (joinType : PlanJoinType) (condition : Predicate φ) :
    S.eval (optimizeJoinOrder rowCount (.join l r joinType condition)) =
        S.eval (.join l r joinType condition) ↔
      estimateRows rowCount l ≤ estimateRows rowCount r ∨
        (joinType ≠ .left ∧ joinType ≠ .right) ∨ S.NullsOnly condition l r := by
  rw [optimizeJoinOrder]
  split
  · next fewer =>
    have differ : l ≠ r := fun same => by simp [same] at fewer
    rw [or_iff_right (Nat.not_le.mpr fewer)]
    have kept := S.kept_eq_iff condition differ
    have swapped := S.matched_comm condition l r
    cases joinType with
    | inner => simp [SqlJoin.eval, swapped]
    | cross => simp [SqlJoin.eval, S.crossed_comm l r]
    | full => simp [SqlJoin.eval, swapped, add_right_comm]
    | left => simp [SqlJoin.eval, swapped, ← kept, eq_comm]
    | right => simp [SqlJoin.eval, swapped, ← kept]
  · next atMost => exact iff_of_true rfl (.inl (Nat.not_lt.mp atMost))

theorem left_join_loses_row :
    let scan (name : String) : LogicalPlan Nat := .scan ⟨name, .range "ts", none, [], none⟩
    let S : SqlJoin Nat Nat :=
      ⟨fun | .scan ⟨"a", _, _, _, _⟩ => {1, 2} | _ => {1}, fun _ => 0, fun _ _ _ a b => a == b,
        fun _ _ _ _ _ => Bool.beq_comm⟩
    let plan : LogicalPlan Nat := .join (scan "a") (scan "b") .left ⟨.wildcard⟩
    let rowCount : String → Nat := fun name => if name = "a" then 2 else 1
    (S.eval plan).map Multiset.card = some 2 ∧
      (S.eval (optimizeJoinOrder rowCount plan)).map Multiset.card = some 1 := by
  decide

end CboOptimizer
end WowDb.Query.Planner
