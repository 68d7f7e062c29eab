import WowDb.Lib.Subsequence
import WowDb.Query.Select

/-!
# When pruning and hashing go unnoticed

The conditions under which `execute_select_sync` gives the result of the naive evaluation, asked at
every point of the FROM clause where rows are pruned or hashed, and the theorem that they are
enough.
-/
namespace WowDb.Query
open WowDb.Lib List

namespace Expr

mutual

def lookups : Expr → List String
  | .identifier name => [trimTicks name]
  | .compoundIdentifier parts =>
    [Eval.joinName parts, (parts.getLast?.map trimTicks).getD ""]
  | .value _ => []
  | .unaryOp _ e => lookups e
  | .binaryOp left _ right => lookups left ++ lookups right
  | .like _ e pattern => lookups e ++ lookups pattern
  | .isNull e => lookups e
  | .isNotNull e => lookups e
  | .inList e list _ => lookups e ++ lookupsList list
  | .between e low high _ => lookups e ++ (lookups low ++ lookups high)
  | .nested e => lookups e
  | .function _ args _ _ _ => lookupsList args
  | .case operand conditions results elseResult =>
    lookupsOption operand ++ (lookupsList conditions ++
      (lookupsList results ++ lookupsOption elseResult))
  | .other => []

def lookupsList : List Expr → List String
  | [] => []
  | e :: rest => lookups e ++ lookupsList rest

def lookupsOption : Option Expr → List String
  | none => []
  | some e => lookups e

end

end Expr

namespace Eval

variable {ν φ : Type} (H : Host ν φ)

mutual

variable {r s : Row ν}

/-- Evaluation, panics included, depends on the columns that are looked up. -/
theorem outcome_congr : ∀ e : Expr, (∀ k ∈ e.lookups, r.get? k = s.get? k) →
    evalExpr H r e = evalExpr H s e ∧ panics H r e = panics H s e
  | .identifier name, same => by
    simp only [Expr.lookups, mem_singleton, forall_eq] at same
    simp only [evalExpr, panics, same, and_self]
  | .compoundIdentifier parts, same => by
    simp only [Expr.lookups, mem_cons, not_mem_nil, or_false, forall_eq_or_imp,
      forall_eq] at same
    simp only [evalExpr, panics, compoundColumn, same.1, same.2, and_self]
  | .value _, _ => ⟨rfl, rfl⟩
  | .unaryOp _ e, same => by
    simp only [evalExpr, panics, outcome_congr e same, and_self]
  | .binaryOp left _ right, same => by
    simp only [Expr.lookups, forall_mem_append] at same
    simp only [evalExpr, panics, outcome_congr left same.1, outcome_congr right same.2, and_self]
  | .like _ e pattern, same => by
    simp only [Expr.lookups, forall_mem_append] at same
    simp only [evalExpr, panics, outcome_congr e same.1, outcome_congr pattern same.2, and_self]
  | .isNull e, same => by
    simp only [evalExpr, panics, outcome_congr e same, and_self]
  | .isNotNull e, same => by
    simp only [evalExpr, panics, outcome_congr e same, and_self]
  | .inList e list _, same => by
    simp only [Expr.lookups, forall_mem_append] at same
    simp only [evalExpr, panics, outcome_congr e same.1, outcomeList_congr list same.2, and_self]
  | .between e low high _, same => by
    simp only [Expr.lookups, forall_mem_append] at same
    simp only [evalExpr, panics, outcome_congr e same.1, outcome_congr low same.2.1,
      outcome_congr high same.2.2, and_self]
  | .nested e, same => by
    simp only [evalExpr, panics, outcome_congr e same, and_self]
  | .function _ args _ _ _, same => by
    simp only [evalExpr, panics, outcomeList_congr args same, and_self]
  | .case operand conditions results elseResult, same => by
    simp only [Expr.lookups, forall_mem_append] at same
    simp only [evalExpr, panics, outcomeOption_congr operand same.1,
      outcomeList_congr conditions same.2.1, outcomeList_congr results same.2.2.1,
      outcomeOption_congr elseResult same.2.2.2, and_self]
  | .other, _ => ⟨rfl, rfl⟩

theorem outcomeList_congr : ∀ es : List Expr, (∀ k ∈ Expr.lookupsList es, r.get? k = s.get? k) →
    evalList H r es = evalList H s es ∧ outcomeList H r es = outcomeList H s es
  | [], _ => ⟨rfl, rfl⟩
  | e :: rest, same => by
    simp only [Expr.lookupsList, forall_mem_append] at same
    simp only [evalList, outcomeList, outcome_congr e same.1, outcomeList_congr rest same.2, and_self]

theorem outcomeOption_congr : ∀ o : Option Expr,
    (∀ k ∈ Expr.lookupsOption o, r.get? k = s.get? k) →
    evalOption H r o = evalOption H s o ∧ outcomeOption H r o = outcomeOption H s o
  | none, _ => ⟨rfl, rfl⟩
  | some e, same => by
    simp only [evalOption, outcomeOption, outcome_congr e same, and_self]

end

theorem holds_splitAndConjuncts (row : Row ν) (e : Expr) :
    holds H row e = e.splitAndConjuncts.all (holds H row) := by
  fun_induction Expr.splitAndConjuncts e with
  | case1 left right ihLeft ihRight =>
    rw [all_append, ← ihLeft, ← ihRight]
    rfl
  | case2 e ih =>
    rw [← ih]
    rfl
  | case3 e _ _ => simp

theorem lookups_splitAndConjuncts {e c : Expr} (member : c ∈ e.splitAndConjuncts) :
    ∀ k ∈ c.lookups, k ∈ e.lookups := by
  fun_induction Expr.splitAndConjuncts e with
  | case1 left right ihLeft ihRight =>
    intro k looked
    rw [Expr.lookups, mem_append]
    rcases mem_append.mp member with inLeft | inRight
    · exact Or.inl (ihLeft inLeft k looked)
    · exact Or.inr (ihRight inRight k looked)
  | case2 e ih => exact ih member
  | case3 e _ _ =>
    rw [mem_singleton.mp member]
    exact fun _ looked => looked

end Eval

namespace SelectExec

variable {ν φ : Type} (H : Host ν φ)

open Eval

def Looks : Option (List String) → String → Prop
  | none, _ => True
  | some keys, k => k ∈ keys

instance (keys : Option (List String)) (k : String) : Decidable (Looks keys k) := by
  cases keys <;> unfold Looks <;> infer_instance

def Agree (keys : Option (List String)) (r s : Row ν) : Prop :=
  ∀ k, Looks keys k → r.get? k = s.get? k

theorem Agree.refl (keys : Option (List String)) (r : Row ν) : Agree keys r r := fun _ _ => rfl

variable {r s : Row ν}

theorem Agree.eq_of_all (agree : Agree none r s) : r = s :=
  OrdMap.ext_get? fun k => agree k trivial

theorem Agree.evalExpr_eq {keys : Option (List String)} (agree : Agree keys r s)
    {e : Expr} (looks : ∀ k ∈ e.lookups, Looks keys k) : evalExpr H r e = evalExpr H s e :=
  (outcome_congr H e fun k looked => agree k (looks k looked)).1

theorem Agree.panics_eq {keys : Option (List String)} (agree : Agree keys r s)
    {e : Expr} (looks : ∀ k ∈ e.lookups, Looks keys k) : panics H r e = panics H s e :=
  (outcome_congr H e fun k looked => agree k (looks k looked)).2

theorem Agree.holds_eq {keys : Option (List String)} (agree : Agree keys r s)
    {e : Expr} (looks : ∀ k ∈ e.lookups, Looks keys k) : holds H r e = holds H s e := by
  rw [holds, holds, agree.evalExpr_eq H looks]

section Rows

variable {keys : List String} {rows rows' : List (Row ν)}

theorem map_eq_of_agree {β : Type} {f : Row ν → β} (all : List.Forall₂ (Agree (some keys)) rows rows')
    (same : ∀ r s, Agree (some keys) r s → f r = f s) : rows.map f = rows'.map f := by
  induction all with
  | nil => rfl
  | cons agree _ ih => rw [map_cons, map_cons, same _ _ agree, ih]

theorem head_eq_of_agree {β : Type} {f : Row ν → β} (all : List.Forall₂ (Agree (some keys)) rows rows')
    (same : ∀ r s, Agree (some keys) r s → f r = f s) : rows.head?.map f = rows'.head?.map f := by
  have mapped := congrArg head? (map_eq_of_agree all same)
  rwa [head?_map, head?_map] at mapped

theorem any_congr_left {α : Type*} {p p' : α → Bool} {l : List α} (same : ∀ a ∈ l, p a = p' a) :
    l.any p = l.any p' := by
  rw [Bool.eq_iff_iff, any_eq_true, any_eq_true]
  exact exists_congr fun a => and_congr_right fun member => by rw [same a member]

theorem any_eq_of_agree {f : Row ν → Bool} (all : List.Forall₂ (Agree (some keys)) rows rows')
    (same : ∀ r s, Agree (some keys) r s → f r = f s) : rows.any f = rows'.any f := by
  have mapped := congrArg (fun tests : List Bool => tests.any id) (map_eq_of_agree all same)
  simpa only [any_map, Function.id_comp] using mapped

theorem evalAggregate_congr (all : List.Forall₂ (Agree (some keys)) rows rows') {e : Expr}
    (looks : ∀ k ∈ e.lookups, k ∈ keys) : evalAggregate H rows e = evalAggregate H rows' e ∧
      aggregatePanics H rows e = aggregatePanics H rows' e := by
  cases e with
  | function name args wildcard distinct argsText =>
    have column : (args.head?.map fun e => rows.map fun row => evalExpr H row e) =
        args.head?.map fun e => rows'.map fun row => evalExpr H row e := by
      cases args with
      | nil => rfl
      | cons e rest =>
        simp only [Expr.lookups, Expr.lookupsList, forall_mem_append] at looks
        have values := map_eq_of_agree all fun r s agree =>
          Agree.evalExpr_eq H agree (e := e) looks.1
        simp only [head?_cons, Option.map_some, values]
    refine ⟨by simp only [evalAggregate, column, all.length_eq], ?_⟩
    cases args with
    | nil => rfl
    | cons e rest =>
      simp only [Expr.lookups, Expr.lookupsList, forall_mem_append] at looks
      have cut := any_eq_of_agree all fun r s agree => Agree.panics_eq H agree (e := e) looks.1
      simp only [aggregatePanics, head?_cons, Option.any_some, cut]
  | _ => exact ⟨rfl, rfl⟩

theorem evalAggregateExpr_congr (all : List.Forall₂ (Agree (some keys)) rows rows') (e : Expr)
    (looks : ∀ k ∈ e.lookups, k ∈ keys) :
    evalAggregateExpr H rows e = evalAggregateExpr H rows' e ∧
      aggregateExprPanics H rows e = aggregateExprPanics H rows' e := by
  have first : ∀ e : Expr, (∀ k ∈ e.lookups, k ∈ keys) →
      (rows.head?.map fun row => (evalExpr H row e).intoValue) =
        rows'.head?.map fun row => (evalExpr H row e).intoValue := fun e looks =>
    head_eq_of_agree all fun r s agree => by rw [Agree.evalExpr_eq H agree looks]
  have firstCut : ∀ e : Expr, (∀ k ∈ e.lookups, k ∈ keys) →
      rows.head?.any (panics H · e) = rows'.head?.any (panics H · e) := by
    intro e looks
    cases all with
    | nil => rfl
    | cons agree _ => exact agree.panics_eq H looks
  fun_induction evalAggregateExpr H rows e with
  | case1 name args wildcard distinct argsText e direct =>
    simp only [evalAggregateExpr, aggregateExprPanics, e, direct, if_true,
      evalAggregate_congr H all looks, and_self]
  | case2 name args wildcard distinct argsText e plain =>
    simp only [evalAggregateExpr, aggregateExprPanics, e, plain, first _ looks, firstCut _ looks,
      Bool.false_eq_true, if_false, and_self]
  | case3 left op right l r ihLeft ihRight =>
    simp only [Expr.lookups, forall_mem_append] at looks
    simp only [evalAggregateExpr, aggregateExprPanics, l, r, ihLeft looks.1, ihRight looks.2,
      and_self]
  | case4 e ih => simpa only [evalAggregateExpr, aggregateExprPanics] using ih looks
  | case5 v => simp only [evalAggregateExpr, aggregateExprPanics, and_self]
  | case6 e notFunction notBinary notNested notValue =>
    rw [first e looks]
    cases e with
    | function => exact (notFunction _ _ _ _ _ rfl).elim
    | binaryOp => exact (notBinary _ _ _ rfl).elim
    | nested => exact (notNested _ rfl).elim
    | value => exact (notValue _ rfl).elim
    | _ => exact ⟨rfl, firstCut _ looks⟩

theorem getElem?_rel (all : List.Forall₂ (Agree (some keys)) rows rows') (i : Nat) :
    (rows[i]? = none ∧ rows'[i]? = none) ∨
      ∃ r s, rows[i]? = some r ∧ rows'[i]? = some s ∧ Agree (some keys) r s := by
  induction all generalizing i with
  | nil => exact Or.inl ⟨rfl, rfl⟩
  | @cons r s _ _ agree _ ih =>
    cases i with
    | zero => exact Or.inr ⟨r, s, rfl, rfl, agree⟩
    | succ i => exact ih i

theorem picked_agree (all : List.Forall₂ (Agree (some keys)) rows rows') (positions : List Nat) :
    List.Forall₂ (Agree (some keys)) (positions.filterMap fun i => rows[i]?)
      (positions.filterMap fun i => rows'[i]?) := by
  induction positions with
  | nil => exact .nil
  | cons i rest ih =>
    rw [filterMap_cons, filterMap_cons]
    obtain ⟨missing, missing'⟩ | ⟨r, s, found, found', agree⟩ := getElem?_rel all i
    · rw [missing, missing']
      exact ih
    · rw [found, found']
      exact .cons agree ih

end Rows

def groupLookups (item : SelectItem) : List String :=
  match SelectItem.expr? item with
  | some e => if isAggregate H e then e.lookups else [exprToColName H e]
  | none => []

def outputLookups (q : Select) : List String :=
  if q.groupBy.isEmpty then (q.projection.filterMap SelectItem.expr?).flatMap Expr.lookups
  else q.groupBy.map (exprToColName H) ++ q.projection.flatMap (groupLookups H)

section Output

variable {keys : List String} {rows rows' : List (Row ν)}
  (all : List.Forall₂ (Agree (some keys)) rows rows')
include all

theorem groupItem_congr (groupKeys key : List String) {item : SelectItem}
    (looks : ∀ k ∈ groupLookups H item, k ∈ keys) :
    groupItem H groupKeys key rows item = groupItem H groupKeys key rows' item := by
  have column : ∀ e : Expr, (∀ k ∈ if isAggregate H e then e.lookups else [exprToColName H e],
      k ∈ keys) →
      (if isAggregate H e then evalAggregate H rows e
        else groupColumn groupKeys key (exprToColName H e) rows) =
      if isAggregate H e then evalAggregate H rows' e
        else groupColumn groupKeys key (exprToColName H e) rows' := by
    intro e looks
    by_cases aggregate : isAggregate H e = true
    · simp only [aggregate, if_true] at looks ⊢
      exact (evalAggregate_congr H all looks).1
    · simp only [aggregate, Bool.false_eq_true, if_false, mem_singleton, forall_eq] at looks ⊢
      have first : (rows.head?.bind fun row => row.get? (exprToColName H e)) =
          rows'.head?.bind fun row => row.get? (exprToColName H e) := by
        cases all with
        | nil => rfl
        | cons agree _ => exact agree (exprToColName H e) looks
      simp only [groupColumn, first]
  cases item with
  | unnamedExpr e => simp only [groupItem, column e looks]
  | exprWithAlias e aliasName => simp only [groupItem, column e looks]
  | wildcard => rfl
  | qualifiedWildcard name => rfl

theorem executeGroupBy_congr (items : List SelectItem) {groupKeys : List String}
    (groupLooks : ∀ k ∈ groupKeys, k ∈ keys)
    (looks : ∀ item ∈ items, ∀ k ∈ groupLookups H item, k ∈ keys) :
    executeGroupBy H items groupKeys rows = executeGroupBy H items groupKeys rows' ∧
      groupPanics H items groupKeys rows = groupPanics H items groupKeys rows' := by
  have groupsSame : rows.map (groupKey H groupKeys) = rows'.map (groupKey H groupKeys) :=
    map_eq_of_agree all fun r s agree => by
      apply map_congr_left
      intro k member
      rw [agree k (groupLooks k member)]
  simp only [executeGroupBy, groupPanics, groupsSame]
  constructor
  · congr 1
    apply map_congr_left
    intro group _
    apply flatMap_congr
    intro item member
    exact groupItem_congr H (picked_agree all group.2) groupKeys group.1 (looks item member)
  · refine any_congr_left fun group _ => any_congr_left fun e member => ?_
    obtain ⟨item, inItems, found⟩ := mem_filterMap.mp member
    have looked := looks item inItems
    simp only [groupLookups, found] at looked
    cases aggregate : isAggregate H e with
    | false => rfl
    | true =>
      rw [if_pos aggregate] at looked
      rw [(evalAggregate_congr H (picked_agree all group.2) looked).2]

theorem projectItems_congr {items : List SelectItem} (distinct : Bool)
    (looks : ∀ item ∈ items, ∀ e, SelectItem.expr? item = some e → ∀ k ∈ e.lookups, k ∈ keys) :
    projectItems H items distinct rows = projectItems H items distinct rows' ∧
      projectPanics H items rows = projectPanics H items rows' := by
  have looked : ∀ e ∈ items.filterMap SelectItem.expr?, ∀ k ∈ e.lookups, k ∈ keys := by
    intro e member
    obtain ⟨item, inItems, found⟩ := mem_filterMap.mp member
    exact looks item inItems e found
  have projected : (rows.map fun row => items.map (projectItem H row)) =
      rows'.map fun row => items.map (projectItem H row) :=
    map_eq_of_agree all fun r s agree => by
      apply map_congr_left
      intro item member
      unfold projectItem
      cases found : SelectItem.expr? item with
      | none => rfl
      | some e => simp only [agree.evalExpr_eq H (looks item member e found)]
  have aggregated : items.map (aggregateItem H rows) = items.map (aggregateItem H rows') := by
    apply map_congr_left
    intro item member
    unfold aggregateItem
    cases found : SelectItem.expr? item with
    | none => rfl
    | some e => exact (evalAggregateExpr_congr H all e (looks item member e found)).1
  have evaluated := any_eq_of_agree (f := fun row => (items.filterMap SelectItem.expr?).any fun e =>
      !isAggregate H e && panics H row e) all fun r s agree =>
    any_congr_left fun e member => by rw [agree.panics_eq H (looked e member)]
  have summed : (items.filterMap SelectItem.expr?).any (aggregateExprPanics H rows) =
      (items.filterMap SelectItem.expr?).any (aggregateExprPanics H rows') :=
    any_congr_left fun e member => (evalAggregateExpr_congr H all e (looked e member)).2
  simp only [projectItems, projectPanics, projected, aggregated, evaluated, summed, and_self]

end Output

theorem output_congr (q : Select) {keys : Option (List String)} {rows rows' : List (Row ν)}
    (all : List.Forall₂ (Agree keys) rows rows') (looks : ∀ k ∈ outputLookups H q, Looks keys k)
    (wildcard : q.projection.any SelectItem.isWildcard = true → keys = none) :
    output H q rows = output H q rows' ∧ outputPanics H q rows = outputPanics H q rows' := by
  cases keys with
  | none =>
    have same : rows = rows' := forall₂_eq_eq_eq ▸ all.imp fun _ _ agree => agree.eq_of_all
    rw [same]
    exact ⟨rfl, rfl⟩
  | some keys =>
    have plain : ∀ item ∈ q.projection, ¬ isStar item = true := by
      intro item member star
      have some : q.projection.any SelectItem.isWildcard = true := by
        refine any_eq_true.mpr ⟨item, member, ?_⟩
        cases item with
        | wildcard => rfl
        | _ => cases star
      cases wildcard some
    have noStar : q.projection.any isStar = false := by simpa using plain
    unfold output outputPanics
    unfold outputLookups at looks
    by_cases flat : q.groupBy.isEmpty = true
    · simp only [flat, if_true, projectRows, noStar, Bool.false_eq_true, if_false] at looks ⊢
      refine projectItems_congr H all q.distinct fun item member e found k looked => ?_
      exact looks k (mem_flatMap.mpr ⟨e, mem_filterMap.mpr ⟨item, member, found⟩, looked⟩)
    · simp only [flat, Bool.false_eq_true, if_false, forall_mem_append] at looks ⊢
      refine executeGroupBy_congr H all q.projection looks.1 fun item member k looked => ?_
      exact looks.2 k (mem_flatMap.mpr ⟨item, member, looked⟩)

variable (store : InMemoryStore ν)

/-- A table yet to be joined, with its ON condition. -/
structure Pending where
  name : String
  aliasName : Option String
  on : Option Expr

def pendingJoins (joins : List Join) : List Pending :=
  joins.filterMap fun j =>
    match j.relation with
    | .table _ text aliasName => some ⟨text, aliasName, JoinOperator.onExpr j.operator⟩
    | .other => none

def pendingExtras (extras : List TableWithJoins) : List Pending :=
  extras.flatMap fun extra =>
    match extra.relation with
    | .table last _ aliasName => ⟨last, aliasName, none⟩ :: pendingJoins extra.joins
    | .other => []

namespace Pending

def columns (t : Pending) : List String :=
  (store.scan t.name).flatMap fun row => row.entries.map Prod.fst

def aliased (t : Pending) : List String :=
  match t.aliasName with
  | some a => (t.columns store).map (qualify a)
  | none => []

end Pending

def Settled (later : List Pending) (row : Row ν) (k : String) : Prop :=
  ∀ t ∈ later, k ∉ t.aliased store ∧ (row.get? k = none → k ∉ t.columns store)

def Doomed (conjuncts : List Expr) (later : List Pending) (row : Row ν) : Prop :=
  ∃ c ∈ conjuncts, holds H row c = false ∧ ∀ k ∈ c.lookups, Settled store later row k

def lookedUp (q : Select) (later : List Pending) : Option (List String) :=
  if q.projection.any SelectItem.isWildcard then none
  else some (outputLookups H q ++ (Expr.lookupsOption q.selection ++
    later.flatMap fun t => Expr.lookupsOption t.on))

theorem get?_orInsert (m : Row ν) (j k : String) (v : Value ν) :
    (orInsert m k v).get? j = if j = k then some ((m.get? k).getD v) else m.get? j := by
  unfold orInsert
  cases found : m.get? k with
  | none =>
    rw [if_neg (by simp), OrdMap.get?_insert]
    rfl
  | some w =>
    rw [if_pos (by simp)]
    by_cases same : j = k
    · simp [same, found]
    · simp [same]

variable (aliasName : Option String)

theorem get?_mergeEntry (m : Row ν) (e : String × Value ν) (k : String) :
    (mergeEntry aliasName m e).get? k =
      if aliasName.map (fun a => qualify a e.1) = some k then some e.2
      else if k = e.1 then some ((m.get? k).getD e.2) else m.get? k := by
  have plain : (orInsert m e.1 e.2).get? k =
      if k = e.1 then some ((m.get? k).getD e.2) else m.get? k := by
    rw [get?_orInsert]
    by_cases same : k = e.1
    · simp [same]
    · simp [same]
  cases aliasName with
  | none => simpa [mergeEntry] using plain
  | some a =>
    simp [mergeEntry, OrdMap.get?_insert, plain, eq_comm (a := k) (b := qualify a e.1)]

theorem agree_mergeRow {keys : Option (List String)} {l l' : Row ν}
    (agree : Agree keys l l') (right : Row ν) :
    Agree keys (mergeRow aliasName l right) (mergeRow aliasName l' right) := by
  unfold mergeRow
  generalize right.entries = entries
  induction entries generalizing l l' with
  | nil => exact agree
  | cons e rest ih =>
    apply ih
    intro k looked
    rw [get?_mergeEntry, get?_mergeEntry, agree k looked]

variable {t : Pending} {later : List Pending} {row : Row ν}

theorem get?_mergeRow_of_settled {right : Row ν} {k : String}
    (settled : Settled store (t :: later) row k) (member : right ∈ store.scan t.name) :
    (mergeRow t.aliasName row right).get? k = row.get? k := by
  obtain ⟨notAliased, notColumn⟩ := settled t (by simp)
  have entries : ∀ e ∈ right.entries, e.1 ∈ t.columns store := fun e inRight =>
    mem_flatMap.mpr ⟨right, member, mem_map_of_mem inRight⟩
  clear settled
  unfold mergeRow
  revert entries
  generalize right.entries = rest
  intro entries
  induction rest generalizing row with
  | nil => rfl
  | cons e rest ih =>
    have column := entries e (by simp)
    have noAlias : t.aliasName.map (fun a => qualify a e.1) ≠ some k := by
      intro same
      obtain ⟨a, aliased, rfl⟩ := Option.map_eq_some_iff.mp same
      apply notAliased
      rw [Pending.aliased, aliased]
      exact mem_map_of_mem column
    have unchanged : (mergeEntry t.aliasName row e).get? k = row.get? k := by
      rw [get?_mergeEntry, if_neg noAlias]
      by_cases same : k = e.1
      · rw [if_pos same]
        cases found : row.get? k with
        | none => exact absurd (same ▸ column) (notColumn found)
        | some v => rfl
      · rw [if_neg same]
    rw [foldl_cons, ih (unchanged ▸ notColumn) fun f inRest => entries f (by simp [inRest])]
    exact unchanged

variable {conjuncts : List Expr}

theorem doomed_mergeRow {right : Row ν} (doomed : Doomed H store conjuncts (t :: later) row)
    (member : right ∈ store.scan t.name) :
    Doomed H store conjuncts later (mergeRow t.aliasName row right) := by
  obtain ⟨c, inConjuncts, fails, settled⟩ := doomed
  have same : ∀ k ∈ c.lookups, (mergeRow t.aliasName row right).get? k = row.get? k :=
    fun k looked => get?_mergeRow_of_settled store (settled k looked) member
  refine ⟨c, inConjuncts, ?_, fun k looked t' later => ?_⟩
  · rw [holds, (outcome_congr H c same).1]
    exact fails
  · rw [same k looked]
    exact settled k looked t' (by simp [later])

theorem Doomed.tail (doomed : Doomed H store conjuncts (t :: later) row) :
    Doomed H store conjuncts later row := by
  obtain ⟨c, inConjuncts, fails, settled⟩ := doomed
  exact ⟨c, inConjuncts, fails, fun k looked t' member => settled k looked t' (by simp [member])⟩

theorem Doomed.of_agree {keys : Option (List String)} {r s : Row ν} (agree : Agree keys r s)
    (looks : ∀ c ∈ conjuncts, ∀ k ∈ c.lookups, Looks keys k)
    (doomed : Doomed H store conjuncts later r) : Doomed H store conjuncts later s := by
  obtain ⟨c, inConjuncts, fails, settled⟩ := doomed
  refine ⟨c, inConjuncts, ?_, fun k looked => ?_⟩
  · rw [← agree.holds_eq H (looks c inConjuncts)]
    exact fails
  · unfold Settled
    rw [← agree k (looks c inConjuncts k looked)]
    exact settled k looked

theorem looks_lookedUp_iff (q : Select) (later : List Pending) (k : String) :
    Looks (lookedUp H q later) k ↔ q.projection.any SelectItem.isWildcard = true ∨
      k ∈ outputLookups H q ∨ k ∈ Expr.lookupsOption q.selection ∨
      ∃ t ∈ later, k ∈ Expr.lookupsOption t.on := by
  unfold lookedUp
  by_cases wildcard : q.projection.any SelectItem.isWildcard = true
  · rw [if_pos wildcard]
    exact iff_of_true trivial (Or.inl wildcard)
  · rw [if_neg wildcard, or_iff_right wildcard]
    simp only [Looks, mem_append, mem_flatMap]

variable {q : Select}

theorem looks_tail {k : String} (looked : Looks (lookedUp H q later) k) :
    Looks (lookedUp H q (t :: later)) k := by
  rw [looks_lookedUp_iff] at looked ⊢
  simp only [mem_cons, exists_eq_or_imp]
  tauto

theorem looks_selection (later : List Pending) {e : Expr} (selection : q.selection = some e) :
    ∀ k ∈ e.lookups, Looks (lookedUp H q later) k := by
  intro k looked
  rw [looks_lookedUp_iff, selection]
  exact Or.inr (Or.inr (Or.inl looked))

theorem looks_conjuncts (later : List Pending) :
    ∀ c ∈ (plan H q).conjuncts, ∀ k ∈ c.lookups, Looks (lookedUp H q later) k := by
  intro c member k looked
  cases selection : q.selection with
  | none => simp [plan, selection] at member
  | some e =>
    simp only [plan, selection, Option.map_some, Option.getD_some] at member
    exact looks_selection H later selection k (lookups_splitAndConjuncts member k looked)

theorem looks_on {e : Expr} (on : t.on = some e) :
    ∀ k ∈ e.lookups, Looks (lookedUp H q (t :: later)) k := by
  intro k looked
  rw [looks_lookedUp_iff]
  exact Or.inr (Or.inr (Or.inr ⟨t, by simp, by rw [on]; exact looked⟩))

def Tracks (q : Select) (later : List Pending) : List (Row ν) → List (Row ν) → Prop :=
  Aligned (Agree (lookedUp H q later)) (Doomed H store (plan H q).conjuncts later)

theorem joinRow_tracks (isLeft : Bool) {o n : Row ν}
    (agree : Agree (lookedUp H q (t :: later)) o n) :
    Tracks H store q later (joinRow H t.aliasName t.on isLeft (store.scan t.name) o)
      (joinRow H t.aliasName t.on isLeft (store.scan t.name) n) := by
  have weaker : ∀ r s : Row ν, Agree (lookedUp H q (t :: later)) r s →
      Agree (lookedUp H q later) r s := fun r s agree k looked => agree k (looks_tail H looked)
  have tests : ∀ r s : Row ν, Agree (lookedUp H q (t :: later)) r s →
      (t.on.map (holds H r)).getD true = (t.on.map (holds H s)).getD true := by
    intro r s agree
    cases on : t.on with
    | none => rfl
    | some e =>
      have same : holds H r e = holds H s e := agree.holds_eq H (looks_on H on)
      simp [same]
  have merged : List.Forall₂ (Agree (lookedUp H q (t :: later)))
      ((store.scan t.name).map (mergeRow t.aliasName o))
      ((store.scan t.name).map (mergeRow t.aliasName n)) := by
    rw [forall₂_map_left_iff, forall₂_map_right_iff]
    exact forall₂_same.mpr fun right _ => agree_mergeRow t.aliasName agree right
  have matched := (Aligned.of_forall₂ (D := fun _ => False) merged).forall₂_filter tests
    (fun _ gone => gone.elim)
  unfold joinRow
  simp only [Aligned.isEmpty_eq_of_forall₂ matched]
  split
  · exact .keep (weaker o n agree) .nil
  · exact .of_forall₂ (matched.imp weaker)

theorem doomed_joinRow (isLeft : Bool) (doomed : Doomed H store conjuncts (t :: later) row) :
    ∀ m ∈ joinRow H t.aliasName t.on isLeft (store.scan t.name) row,
      Doomed H store conjuncts later m := by
  intro m member
  unfold joinRow at member
  simp only at member
  split at member
  · rw [mem_singleton.mp member]
    exact doomed.tail
  · obtain ⟨merged, -⟩ := mem_filter.mp member
    obtain ⟨right, inTable, rfl⟩ := mem_map.mp merged
    exact doomed_mergeRow H store doomed inTable

theorem onPanics_of_tracks {rows naive : List (Row ν)}
    (tracks : Tracks H store q (t :: later) rows naive)
    (whole : (naive.any fun l => (store.scan t.name).any fun r =>
      t.on.any (panics H (mergeRow t.aliasName l r))) = false) :
    (rows.any fun l => (store.scan t.name).any fun r =>
      t.on.any (panics H (mergeRow t.aliasName l r))) = false := by
  simp only [any_eq_false, Bool.not_eq_true] at whole ⊢
  intro o inRows right inTable
  obtain ⟨n, inNaive, agree⟩ := Aligned.exists_of_mem tracks inRows
  have here := whole n inNaive right inTable
  cases on : t.on with
  | none => rfl
  | some e =>
    rw [on, Option.any_some] at here
    rw [Option.any_some, (agree_mergeRow t.aliasName agree right).panics_eq H (looks_on H on)]
    exact here

theorem applyJoins_tracks (joins : List Join) (later : List Pending) {rows naive : List (Row ν)}
    (tracks : Tracks H store q (pendingJoins joins ++ later) rows naive) :
    (joinsPanic H store joins naive = false → joinsPanic H store joins rows = false) ∧
    ((∃ message, applyJoins H store joins rows = .error message ∧
      applyJoins H store joins naive = .error message) ∨
    ∃ joined naiveJoined, applyJoins H store joins rows = .ok joined ∧
      applyJoins H store joins naive = .ok naiveJoined ∧
      Tracks H store q later joined naiveJoined) := by
  induction joins generalizing rows naive with
  | nil => exact ⟨id, Or.inr ⟨rows, naive, rfl, rfl, tracks⟩⟩
  | cons j rest ih =>
    cases relation : j.relation with
    | other =>
      simp only [joinsPanic, applyJoins, relation]
      exact ⟨id, Or.inl ⟨"Unsupported JOIN table type", rfl, rfl⟩⟩
    | table last text aliasName =>
      simp only [joinsPanic, applyJoins, relation, Bool.or_eq_false_iff]
      simp only [pendingJoins, filterMap_cons, relation, cons_append] at tracks
      have joined : Tracks H store q (pendingJoins rest ++ later) _ _ :=
        Aligned.flatMap tracks
          (fun o _ n agree => joinRow_tracks H store (JoinOperator.isLeft j.operator) agree)
          fun n doomed => doomed_joinRow H store (JoinOperator.isLeft j.operator) doomed
      obtain ⟨others, result⟩ := ih joined
      exact ⟨fun whole => ⟨onPanics_of_tracks H store tracks whole.1, others whole.2⟩, result⟩

variable (leftCol rightCol : String)

def paired (l r : Row ν) : Bool :=
  (r.get? rightCol).map (jsonToSortStr H) == some (((l.get? leftCol).map (jsonToSortStr H)).getD "")

theorem get?_foldl_indexRow (rightCol key : String) (right : List (Row ν))
    (index : OrdMap String (List (Row ν))) :
    ((right.foldl (indexRow H rightCol) index).get? key).getD [] = (index.get? key).getD [] ++
      right.filter fun r => (r.get? rightCol).map (jsonToSortStr H) == some key := by
  induction right generalizing index with
  | nil => simp
  | cons row rest ih =>
    rw [foldl_cons, ih, indexRow]
    cases found : row.get? rightCol with
    | none => simp [found]
    | some v =>
      by_cases same : key = jsonToSortStr H v
      · simp [OrdMap.get?_insert, found, same]
      · simp [OrdMap.get?_insert, found, same, Ne.symm same]

theorem hashJoinTables_eq (aliasName : Option String) (left right : List (Row ν)) :
    hashJoinTables H leftCol rightCol aliasName left right =
      left.flatMap fun l => (right.filter (paired H leftCol rightCol l)).map (mergeRow aliasName l) := by
  simp only [hashJoinTables, rightIndex, get?_foldl_indexRow, OrdMap.get?_empty, Option.getD_none,
    nil_append]
  rfl

def RejectsDoomed (q : Select) (later : List Pending) (aliasName : Option String)
    (rows right : List (Row ν)) : Prop :=
  ∀ key ∈ joinKey (plan H q) rows right, ∀ l ∈ rows, ∀ r ∈ right, paired H key.1 key.2 l r = false →
      Doomed H store (plan H q).conjuncts later (mergeRow aliasName l r)

theorem pairs_track {o n : Row ν}
    (agree : Agree (lookedUp H q later) o n) (keep : Row ν → Bool) {right : List (Row ν)}
    (rejected : ∀ r ∈ right, keep r = false → Doomed H store (plan H q).conjuncts later
      (mergeRow aliasName o r)) :
    Tracks H store q later ((right.filter keep).map (mergeRow aliasName o))
      (right.map (mergeRow aliasName n)) := by
  induction right with
  | nil => exact .nil
  | cons r rest ih =>
    have merged := agree_mergeRow aliasName agree r
    have others := ih fun r member => rejected r (by simp [member])
    cases kept : keep r with
    | true =>
      rw [filter_cons_of_pos kept]
      exact .keep merged others
    | false =>
      rw [filter_cons_of_neg (by simp [kept])]
      exact .drop ((rejected r (by simp) kept).of_agree H store merged (looks_conjuncts H later)) others

theorem joinTable_tracks {last : String} {aliasName : Option String} {rows naive : List (Row ν)}
    (tracks : Tracks H store q (⟨last, aliasName, none⟩ :: later) rows naive)
    (rejected : RejectsDoomed H store q later aliasName rows (store.scan last)) :
    Tracks H store q later (joinTable H (plan H q) aliasName rows (store.scan last))
      (crossJoinTables aliasName naive (store.scan last)) := by
  have expand : ∀ keep : Row ν → Row ν → Bool,
      (∀ l ∈ rows, ∀ r ∈ store.scan last, keep l r = false →
        Doomed H store (plan H q).conjuncts later (mergeRow aliasName l r)) →
      Tracks H store q later
        (rows.flatMap fun l => ((store.scan last).filter (keep l)).map (mergeRow aliasName l))
        (crossJoinTables aliasName naive (store.scan last)) := by
    intro keep rejected
    refine Aligned.flatMap tracks ?_ ?_
    · intro o inRows n agree
      exact pairs_track H store aliasName (fun k looked => agree k (looks_tail H looked)) (keep o)
        (rejected o inRows)
    · intro n doomed m member
      obtain ⟨right, inTable, rfl⟩ := mem_map.mp member
      exact doomed_mergeRow H store doomed inTable
  unfold joinTable
  cases key : joinKey (plan H q) rows (store.scan last) with
  | none =>
    have all := expand (fun _ _ => true) (by simp)
    simp only [filter_true] at all
    exact all
  | some cols =>
    obtain ⟨leftCol, rightCol⟩ := cols
    simp only [hashJoinTables_eq]
    exact expand (paired H leftCol rightCol) (rejected _ key)

/-- What the early conjuncts drop, WHERE drops too, whatever is joined later. -/
def DropsDoomed (q : Select) (later : List Pending) (rows : List (Row ν)) : Prop :=
  ∀ row ∈ rows, (applicable H (plan H q).conjuncts rows).all (holds H row) = false →
    Doomed H store (plan H q).conjuncts later row

/-- No column that is still looked up is dropped. -/
def KeepsLooked (q : Select) (later : List Pending) (rows : List (Row ν)) : Prop :=
  ∀ keep ∈ (plan H q).needed.bind fun needed => keepSet H needed rows,
    ∀ row ∈ rows, ∀ e ∈ row.entries, Looks (lookedUp H q later) e.1 → e.1 ∈ keep

/-- No conjunct that is applied early panics. -/
def AppliesWhole (q : Select) (rows : List (Row ν)) : Prop :=
  ∀ row ∈ rows, ∀ c ∈ applicable H (plan H q).conjuncts rows, panics H row c = false

def PruneSafe (q : Select) (later : List Pending) (rows : List (Row ν)) : Prop :=
  DropsDoomed H store q later rows ∧
    KeepsLooked H q later (applyPartialWhere H (plan H q).conjuncts rows) ∧ AppliesWhole H q rows

def JoinsSafe (q : Select) (joins : List Join) (later : List Pending) (rows : List (Row ν)) : Prop :=
  ¬ joins.isEmpty → ∀ joined ∈ (applyJoins H store joins rows).toOption,
    PruneSafe H store q later joined

def ExtrasSafe (q : Select) : List TableWithJoins → List (Row ν) → Prop
  | [], _ => True
  | extra :: rest, rows =>
    match extra.relation with
    | .table last _ aliasName =>
      let later := pendingJoins extra.joins ++ pendingExtras rest
      let joined := joinTable H (plan H q) aliasName rows (store.scan last)
      RejectsDoomed H store q later aliasName rows (store.scan last) ∧
        PruneSafe H store q later joined ∧
        JoinsSafe H store q extra.joins (pendingExtras rest) (prune H (plan H q) joined) ∧
        ∀ next ∈ (joinAndPrune H store (plan H q) extra.joins
          (prune H (plan H q) joined)).toOption, ExtrasSafe q rest next
    | .other => ExtrasSafe q rest rows

def Unnoticed (q : Select) : Prop :=
  match q.tables with
  | [] => True
  | first :: extras =>
    let base := baseRows store first.relation
    PruneSafe H store q (pendingJoins first.joins ++ pendingExtras extras) base ∧
      JoinsSafe H store q first.joins (pendingExtras extras) (prune H (plan H q) base) ∧
      ∀ rows ∈ (joinAndPrune H store (plan H q) first.joins
        (prune H (plan H q) base)).toOption, ExtrasSafe H store q extras rows

variable {rows naive : List (Row ν)}

theorem prune_tracks {later : List Pending} (tracks : Tracks H store q later rows naive)
    (safe : PruneSafe H store q later rows) :
    Tracks H store q later (prune H (plan H q) rows) naive := by
  obtain ⟨drops, keeps, -⟩ := safe
  have kept : Tracks H store q later (applyPartialWhere H (plan H q).conjuncts rows) naive := by
    refine Aligned.filter_left tracks ?_
    intro o member n agree fails
    exact (drops o member fails).of_agree H store agree (looks_conjuncts H later)
  unfold prune
  cases needed : (plan H q).needed with
  | none => exact kept
  | some cols =>
    simp only [KeepsLooked, needed, Option.bind_some] at keeps
    simp only [projectToNeededCols]
    cases keep : keepSet H cols (applyPartialWhere H (plan H q).conjuncts rows) with
    | none => exact kept
    | some columns =>
      refine Aligned.map_left kept ?_
      intro o member n agree k looked
      rw [OrdMap.get?_retain, ← agree k looked]
      cases found : o.get? k with
      | none => rfl
      | some v =>
        have inKeep := keeps columns keep o member (k, v) ((OrdMap.mem_entries_iff o k v).mpr found)
          looked
        simp [Option.filter, inKeep]

theorem not_prunePanics {later : List Pending} (safe : PruneSafe H store q later rows) :
    prunePanics H (plan H q) rows = false := by
  have each (row : Row ν) (cs : List Expr) (whole : ∀ c ∈ cs, panics H row c = false) :
      conjunctsPanic H row cs = false := by
    induction cs with
    | nil => rfl
    | cons c rest ih =>
      rw [forall_mem_cons] at whole
      rw [conjunctsPanic, whole.1, ih whole.2, Bool.and_false, Bool.or_self]
  simp only [prunePanics, any_eq_false, Bool.not_eq_true]
  exact fun row member => each row _ (safe.2.2 row member)

theorem joinAndPrune_tracks {joins : List Join} {later : List Pending}
    (tracks : Tracks H store q (pendingJoins joins ++ later) rows naive)
    (safe : JoinsSafe H store q joins later rows) :
    (joinsPanic H store joins naive = false →
      joinAndPrunePanics H store (plan H q) joins rows = false) ∧
    ((∃ message, joinAndPrune H store (plan H q) joins rows = .error message ∧
      applyJoins H store joins naive = .error message) ∨
    ∃ next naiveNext, joinAndPrune H store (plan H q) joins rows = .ok next ∧
      applyJoins H store joins naive = .ok naiveNext ∧ Tracks H store q later next naiveNext) := by
  unfold joinAndPrune joinAndPrunePanics
  by_cases noJoins : joins.isEmpty = true
  · rw [if_pos noJoins, noJoins, isEmpty_iff.mp noJoins]
    rw [isEmpty_iff.mp noJoins] at tracks
    exact ⟨fun _ => rfl, Or.inr ⟨rows, naive, rfl, rfl, tracks⟩⟩
  · rw [if_neg noJoins]
    obtain ⟨whole, ⟨message, failed, naiveFailed⟩ | ⟨joined, naiveJoined, ok, naiveOk, after⟩⟩ :=
      applyJoins_tracks H store joins later tracks
    · refine ⟨fun clean => ?_, Or.inl ⟨message, by rw [failed]; rfl, naiveFailed⟩⟩
      rw [whole clean, failed, Bool.false_or]
      exact Bool.and_false _
    · have prunes := safe noJoins joined (by rw [ok]; rfl)
      refine ⟨fun clean => ?_, Or.inr ⟨prune H (plan H q) joined, naiveJoined, by rw [ok]; rfl,
        naiveOk, prune_tracks H store after prunes⟩⟩
      rw [whole clean, ok, Bool.false_or]
      exact (congrArg _ (not_prunePanics H store prunes)).trans (Bool.and_false _)

theorem joinExtras_tracks (extras : List TableWithJoins)
    (tracks : Tracks H store q (pendingExtras extras) rows naive)
    (safe : ExtrasSafe H store q extras rows) :
    (naiveExtrasPanic H store extras naive = false →
      extrasPanic H store (plan H q) extras rows = false) ∧
    ((∃ message, joinExtras H store (plan H q) extras rows = .error message ∧
      naiveExtras H store extras naive = .error message) ∨
    ∃ all naiveAll, joinExtras H store (plan H q) extras rows = .ok all ∧
      naiveExtras H store extras naive = .ok naiveAll ∧ Tracks H store q [] all naiveAll) := by
  induction extras generalizing rows naive with
  | nil => exact ⟨id, Or.inr ⟨rows, naive, rfl, rfl, tracks⟩⟩
  | cons extra rest ih =>
    cases relation : extra.relation with
    | other =>
      simp only [joinExtras, naiveExtras, extrasPanic, naiveExtrasPanic, relation]
      simp only [ExtrasSafe, relation] at safe
      simp only [pendingExtras, flatMap_cons, relation, nil_append] at tracks
      exact ih tracks safe
    | table last text aliasName =>
      simp only [joinExtras, naiveExtras, extrasPanic, naiveExtrasPanic, relation,
        Bool.or_eq_false_iff]
      simp only [ExtrasSafe, relation] at safe
      obtain ⟨rejects, prunes, joins, others⟩ := safe
      simp only [pendingExtras, flatMap_cons, relation, cons_append] at tracks
      have joined := prune_tracks H store (joinTable_tracks H store tracks rejects) prunes
      have pruned := not_prunePanics H store prunes
      obtain ⟨whole, ⟨message, failed, naiveFailed⟩ | ⟨next, naiveNext, ok, naiveOk, after⟩⟩ :=
        joinAndPrune_tracks H store joined joins
      · refine ⟨fun clean => ⟨⟨pruned, whole clean.1⟩, by rw [failed]; rfl⟩,
          Or.inl ⟨message, by rw [failed]; rfl, by rw [naiveFailed]; rfl⟩⟩
      · obtain ⟨wholeRest, result⟩ := ih after (others next (by rw [ok]; rfl))
        rw [ok, naiveOk]
        exact ⟨fun clean => ⟨⟨pruned, whole clean.1⟩, wholeRest clean.2⟩, result⟩

theorem whereRows_eq_filter (selection : Option Expr) (rows : List (Row ν)) :
    whereRows H selection rows = rows.filter fun row => (selection.map (holds H row)).getD true := by
  cases selection with
  | none => exact (filter_true rows).symm
  | some e => rfl

theorem finish_eq_of_tracks (tracks : Tracks H store q [] rows naive) :
    finish H q rows = finish H q naive ∧
      (finishPanics H q naive = false → finishPanics H q rows = false) := by
  have tests : ∀ o n : Row ν, Agree (lookedUp H q []) o n →
      (q.selection.map (holds H o)).getD true = (q.selection.map (holds H n)).getD true := by
    intro o n agree
    cases selection : q.selection with
    | none => rfl
    | some e =>
      have same : holds H o e = holds H n e := agree.holds_eq H (looks_selection H [] selection)
      simp [same]
  have removed : ∀ n : Row ν, Doomed H store (plan H q).conjuncts [] n →
      (q.selection.map (holds H n)).getD true = false := by
    rintro n ⟨c, member, fails, -⟩
    cases selection : q.selection with
    | none => simp [plan, selection] at member
    | some e =>
      simp only [plan, selection, Option.map_some, Option.getD_some] at member ⊢
      rw [holds_splitAndConjuncts, all_eq_false]
      exact ⟨c, member, by simp [fails]⟩
  have left := Aligned.forall₂_filter tracks tests removed
  obtain ⟨same, samePanics⟩ := output_congr H q left
    (fun k looked => (looks_lookedUp_iff H q [] k).mpr (Or.inr (Or.inl looked)))
    (fun wildcard => if_pos wildcard)
  simp only [finish, finishPanics, whereRows_eq_filter, same, samePanics, Bool.or_eq_false_iff]
  refine ⟨trivial, fun clean => ⟨⟨?_, clean.1.2⟩, clean.2⟩⟩
  -- what WHERE meets here, it meets in the naive evaluation too
  have met := clean.1.1
  cases selection : q.selection with
  | none => rfl
  | some e =>
    simp only [wherePanics, selection, Option.any_some, any_eq_false, Bool.not_eq_true] at met ⊢
    intro o inRows
    obtain ⟨n, inNaive, agree⟩ := Aligned.exists_of_mem tracks inRows
    rw [agree.panics_eq H (looks_selection H [] selection)]
    exact met n inNaive

instance (later : List Pending) (row : Row ν) (k : String) :
    Decidable (Settled store later row k) := by
  unfold Settled
  infer_instance

instance (conjuncts : List Expr) (later : List Pending) (row : Row ν) :
    Decidable (Doomed H store conjuncts later row) := by
  unfold Doomed
  infer_instance

instance (q : Select) (later : List Pending) (rows : List (Row ν)) :
    Decidable (PruneSafe H store q later rows) := by
  unfold PruneSafe DropsDoomed KeepsLooked AppliesWhole
  infer_instance

instance (q : Select) (later : List Pending) (aliasName : Option String) (rows right : List (Row ν)) :
    Decidable (RejectsDoomed H store q later aliasName rows right) := by
  unfold RejectsDoomed
  infer_instance

instance (q : Select) (joins : List Join) (later : List Pending) (rows : List (Row ν)) :
    Decidable (JoinsSafe H store q joins later rows) := by
  unfold JoinsSafe
  infer_instance

instance decidableExtrasSafe (q : Select) : ∀ (extras : List TableWithJoins) (rows : List (Row ν)),
    Decidable (ExtrasSafe H store q extras rows)
  | [], _ => isTrue trivial
  | ⟨.table _ _ _, _⟩ :: rest, _ => by
    have others := decidableExtrasSafe q rest
    unfold ExtrasSafe
    infer_instance
  | ⟨.other, _⟩ :: rest, rows => decidableExtrasSafe q rest rows

instance (q : Select) : Decidable (Unnoticed H store q) := by
  unfold Unnoticed
  cases q.tables <;> infer_instance

def parseInteger (text : String) : Option Int := (parseUsize text).map Int.ofNat

def integerHost : Host Int Int where
  asF64 := some
  isInteger := fun _ => true
  ofF64 := some
  ofInt := id
  numberText := toString
  parseJson := fun text => (parseInteger text).map .number
  zero := 0
  ofNat := Int.ofNat
  neg := fun a => -a
  add := fun a b => a + b
  sub := fun a b => a - b
  mul := fun a b => a * b
  div := fun a b => a / b
  sum := List.sum
  min := fun a b => if a ≤ b then a else b
  max := fun a b => if a ≤ b then b else a
  round := id
  powi10 := fun n => 10 ^ n.toNat
  eq := fun a b => a == b
  partialCmp := fun a b => some (compare a b)
  hasNoFraction := fun _ => true
  belowTwoPow53 := fun a => a.natAbs < 2 ^ 53
  toI32 := id
  toI64 := id
  parseF64 := parseInteger
  sortText := fun a =>
    let digits := Nat.toDigits 10 a.natAbs
    String.ofList (List.replicate (13 - digits.length) '0' ++ digits ++ ".000000".toList)
  parseI64 := parseInteger
  upper := fun s => String.ofList (s.toList.map Char.toUpper)
  lower := fun s => String.ofList (s.toList.map Char.toLower)
  regexEscape := id
  regexMatch := fun _ _ => none
  exprText := fun _ => ""
  now := ""

def integerRow (columns : List (String × Int)) : Row Int :=
  OrdMap.ofList (columns.map fun c => (c.1, .number c.2))

def hashedSelect : Select where
  projection := [.unnamedExpr (.compoundIdentifier ["a", "v"]),
    .unnamedExpr (.compoundIdentifier ["b", "w"])]
  tables := [⟨.table "left_t" "left_t" (some "a"), []⟩, ⟨.table "right_t" "right_t" (some "b"), []⟩]
  selection := some (.binaryOp
    (.binaryOp (.compoundIdentifier ["a", "k"]) .eq (.compoundIdentifier ["b", "k"])) .and
    (.binaryOp (.compoundIdentifier ["a", "v"]) .gt (.value (.number "1"))))
  groupBy := []
  having := none
  distinct := false
  orderBy := []
  limit := none

def twoTables : InMemoryStore Int :=
  (InMemoryStore.new.insertAll "left_t"
    [integerRow [("k", 1), ("v", 1), ("u", 7)], integerRow [("k", 2), ("v", 2), ("u", 7)]]).insertAll
    "right_t" [integerRow [("k", 2), ("w", 5)], integerRow [("k", 3), ("w", 6)]]

def nullTest : Select where
  projection := [.unnamedExpr (.identifier "id")]
  tables := [⟨.table "t" "t" none, []⟩]
  selection := some (.isNull (.identifier "x"))
  groupBy := []
  having := none
  distinct := false
  orderBy := []
  limit := none

end SelectExec
end WowDb.Query
