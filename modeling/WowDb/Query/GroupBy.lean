import WowDb.Query.OrderBy

/-!
# GROUP BY

`execute_group_by` of `select_exec.rs` keys the rows by the sort texts (`json_to_sort_str`) of
columns: for every GROUP BY expression the column that has the expression's name. Both halves are
compared with SQL here. Values are grouped by a text, which different values share, and an
expression that is not a column is never evaluated; an item of a group is computed only if it is
itself an aggregate call. Where `eval_expr` panics an expression has no value.
-/
namespace WowDb.Query.SelectExec
open WowDb.Lib Eval List

section Groups

variable {keys : List (List String)} {key : List String}

theorem mem_groups {positions : List Nat} : (key, positions) ∈ (groups keys).entries ↔
      key ∈ keys ∧ positions = (keys.zipIdx.filter (·.1 = key)).map Prod.snd := by
  have named : (∃ p ∈ keys.zipIdx, p.1 = key) ↔ key ∈ keys := by
    rw [← mem_map, zipIdx_map_fst]
  have pushed : groups keys = keys.zipIdx.foldl (fun m p => m.push p.1 p.2) .empty := rfl
  rw [OrdMap.mem_entries_iff, ← named, pushed]
  convert OrdMap.get?_foldl_push Prod.fst Prod.snd keys.zipIdx key positions

theorem sameGroup_iff {i j : Nat} (inside : i < keys.length) :
    (∃ group ∈ (groups keys).entries, i ∈ group.2 ∧ j ∈ group.2) ↔ keys[i]? = keys[j]? := by
  have mem_positions (key : List String) (k : Nat) :
      k ∈ (keys.zipIdx.filter (·.1 = key)).map Prod.snd ↔ keys[k]? = some key := by
    simp [mem_zipIdx_iff_getElem?]
  constructor
  · rintro ⟨⟨key, positions⟩, member, first, second⟩
    obtain ⟨-, rfl⟩ := mem_groups.mp member
    rw [(mem_positions key i).mp first, (mem_positions key j).mp second]
  · intro same
    have here : keys[i]? = some keys[i] := getElem?_eq_getElem inside
    refine ⟨⟨keys[i], _⟩, mem_groups.mpr ⟨getElem_mem inside, rfl⟩, ?_, ?_⟩
    · exact (mem_positions _ i).mpr here
    · exact (mem_positions _ j).mpr (same ▸ here)

theorem entries_groups (some : keys ≠ []) (one : ∀ k ∈ keys, k = key) :
    (groups keys).entries = [(key, List.range keys.length)] := by
  have all : (keys.zipIdx.filter (·.1 = key)).map Prod.snd = range keys.length := by
    rw [filter_eq_self.mpr, zipIdx_map_snd, range_eq_range']
    rintro ⟨k, i⟩ member
    exact decide_eq_true (one k (fst_mem_of_mem_zipIdx member))
  have present : key ∈ keys := by
    obtain ⟨k, rest, rfl⟩ := exists_cons_of_ne_nil some
    exact one k mem_cons_self ▸ mem_cons_self
  refine perm_singleton.mp ((perm_ext_iff_of_nodup ?_ (nodup_singleton _)).mpr ?_)
  · exact List.Nodup.of_map Prod.fst (groups keys).nodup_keys
  · rintro ⟨k, positions⟩
    rw [mem_groups, mem_singleton, Prod.mk.injEq]
    constructor
    · rintro ⟨member, rfl⟩
      obtain rfl := one k member
      exact ⟨rfl, all⟩
    · rintro ⟨rfl, rfl⟩
      exact ⟨present, all.symm⟩

theorem filterMap_range_getElem? {α : Type} (xs : List α) :
    (List.range xs.length).filterMap (xs[·]?) = xs := by
  have found : xs.zipIdx.filterMap (fun p => xs[p.2]?) = xs.zipIdx.filterMap fun p => some p.1 :=
    filterMap_congr fun p member => mem_zipIdx_iff_getElem?.mp member
  rw [range_eq_range', ← zipIdx_map_snd, filterMap_map]
  refine found.trans ?_
  rw [filterMap_eq_map', zipIdx_map_fst]

end Groups

section Values

variable {ν φ : Type} (H : Host ν φ)

/-- The cell that stands for an expression in the group key. -/
def groupCell (e : Expr) (row : Row ν) : Value ν := (row.get? (exprToColName H e)).getD .null

/-- The number that `json_to_sort_str` reads in a value. -/
def numeral : Value ν → Option φ
  | .number n => some ((H.asF64 n).getD H.zero)
  | .string s => H.parseF64 s
  | _ => none

/-- The text of a value that is no numeral. -/
def letters : Value ν → String
  | .bool b => if b then "true" else "false"
  | .string s => s
  | .json text => text
  | _ => ""

/-- Two different values with one sort text. -/
inductive Confused : Value ν → Value ν → Prop
  /-- 1 and "1", "1" and "1.0", numbers that agree in six digits. -/
  | numerals {a b : Value ν} {x y : φ} (ne : a ≠ b) (left : numeral H a = some x)
      (right : numeral H b = some y) (same : H.sortText x = H.sortText y) : Confused a b
  /-- A numeral and a text that spells its padded form. -/
  | spelled {a b : Value ν} {x : φ} (left : numeral H a = some x) (right : numeral H b = none)
      (same : H.sortText x = letters b) : Confused a b
  | nullAndEmpty (text : H.parseF64 "" = none) : Confused .null (.string "")
  | boolAndText (b : Bool) (text : H.parseF64 (letters (.bool b : Value ν)) = none) :
      Confused (.bool b) (.string (letters (.bool b : Value ν)))
  | jsonAndText (t : String) (text : H.parseF64 t = none) : Confused (.json t) (.string t)
  | jsonAndNull : Confused (.json "") .null
  | jsonAndBool (b : Bool) : Confused (.json (letters (.bool b : Value ν))) (.bool b)
  | symm {a b : Value ν} (other : Confused b a) : Confused a b

theorem jsonToSortStr_eq (v : Value ν) :
    jsonToSortStr H v = ((numeral H v).map H.sortText).getD (letters v) := by
  cases v with
  | string s =>
    simp only [jsonToSortStr, numeral, letters]
    cases H.parseF64 s <;> rfl
  | _ => rfl

theorem Confused.sortStr_eq {a b : Value ν} (confused : Confused H a b) :
    jsonToSortStr H a = jsonToSortStr H b := by
  induction confused with
  | numerals _ left right same => simpa [jsonToSortStr_eq, left, right] using same
  | spelled left right same => simpa [jsonToSortStr_eq, left, right] using same
  | nullAndEmpty text => simp [jsonToSortStr, text]
  | boolAndText b text => simpa [jsonToSortStr, letters, text] using by simp [letters] at text ⊢; simp [text]
  | jsonAndText t text => simp [jsonToSortStr, text]
  | jsonAndNull => rfl
  | jsonAndBool b => rfl
  | symm _ same => exact same.symm

/-- Values that are no numerals share their letters only across types. -/
theorem eq_or_confused_of_letters {a b : Value ν} (left : numeral H a = none)
    (right : numeral H b = none) (same : letters a = letters b) : a = b ∨ Confused H a b := by
  cases a with
  | number n => cases left
  | null => cases b with
    | number n => cases right
    | null => exact .inl rfl
    | bool b => cases b <;> simp [letters] at same
    | string t =>
      obtain rfl : "" = t := same
      exact .inr (.nullAndEmpty right)
    | json t =>
      obtain rfl : "" = t := same
      exact .inr (.symm .jsonAndNull)
  | bool x => cases b with
    | number n => cases right
    | null => cases x <;> simp [letters] at same
    | bool y => cases x <;> cases y <;> simp_all [letters]
    | string t =>
      obtain rfl : letters (.bool x : Value ν) = t := same
      exact .inr (.boolAndText x right)
    | json t =>
      obtain rfl : letters (.bool x : Value ν) = t := same
      exact .inr (.symm (.jsonAndBool x))
  | string t => cases b with
    | number n => cases right
    | null =>
      obtain rfl : t = "" := same
      exact .inr (.symm (.nullAndEmpty left))
    | bool y =>
      obtain rfl : t = letters (.bool y : Value ν) := same
      exact .inr (.symm (.boolAndText y left))
    | string u =>
      obtain rfl : t = u := same
      exact .inl rfl
    | json u =>
      obtain rfl : t = u := same
      exact .inr (.symm (.jsonAndText t left))
  | json t => cases b with
    | number n => cases right
    | null =>
      obtain rfl : t = "" := same
      exact .inr .jsonAndNull
    | bool y =>
      obtain rfl : t = letters (.bool y : Value ν) := same
      exact .inr (.jsonAndBool y)
    | string u =>
      obtain rfl : t = u := same
      exact .inr (.jsonAndText t right)
    | json u =>
      obtain rfl : t = u := same
      exact .inl rfl

theorem jsonToSortStr_eq_iff (a b : Value ν) :
    jsonToSortStr H a = jsonToSortStr H b ↔ a = b ∨ Confused H a b := by
  constructor
  · intro same
    rw [jsonToSortStr_eq, jsonToSortStr_eq] at same
    by_cases equal : a = b
    · exact .inl equal
    · cases left : numeral H a with
      | none =>
        cases right : numeral H b with
        | none => exact eq_or_confused_of_letters H left right (by simpa [left, right] using same)
        | some y =>
          exact .inr (.symm (.spelled right left (by simpa [left, right] using same.symm)))
      | some x =>
        cases right : numeral H b with
        | none => exact .inr (.spelled left right (by simpa [left, right] using same))
        | some y => exact .inr (.numerals equal left right (by simpa [left, right] using same))
  · rintro (rfl | confused)
    · rfl
    · exact confused.sortStr_eq

/-- The value of an expression on a row; none where its evaluation panics. -/
def valueOf (e : Expr) (row : Row ν) : Option (Value ν) :=
  if panics H row e then none else some (evalExpr H row e).intoValue

/-- The expression has one value on the two rows. -/
def SameValue (r s : Row ν) (e : Expr) : Prop :=
  ∃ v, valueOf H e r = some v ∧ valueOf H e s = some v

/-- Two rows are in one group exactly when every expression has one value on them. -/
def GroupsByValue (es : List Expr) (rows : List (Row ν)) : Prop :=
  ∀ i j r s, i < j → rows[i]? = some r → rows[j]? = some s →
    ((∃ group ∈ (groups (rows.map (groupKey H (es.map (exprToColName H))))).entries,
      i ∈ group.2 ∧ j ∈ group.2) ↔ ∀ e ∈ es, SameValue H r s e)

/-- The key cells of an expression are equal, or different values that get confused. -/
def CellsMeet (r s : Row ν) (e : Expr) : Prop :=
  groupCell H e r = groupCell H e s ∨ Confused H (groupCell H e r) (groupCell H e s)

def isColumn : Expr → Bool
  | .identifier _ => true
  | _ => false

/-- What two rows of a table must satisfy: if all key cells meet, no expression tells the rows
apart; and if no expression does, the key cells of those that are not plain columns meet. -/
structure ToldApart (es : List Expr) (r s : Row ν) : Prop where
  merged : (∀ e ∈ es, CellsMeet H r s e) → ∀ e ∈ es, SameValue H r s e
  split : (∀ e ∈ es, SameValue H r s e) → ∀ e ∈ es, isColumn e = false → CellsMeet H r s e

theorem groupKey_eq_iff (es : List Expr) (r s : Row ν) :
    groupKey H (es.map (exprToColName H)) r = groupKey H (es.map (exprToColName H)) s ↔
      ∀ e ∈ es, CellsMeet H r s e := by
  have text (e : Expr) (row : Row ν) : ((row.get? (exprToColName H e)).map (jsonToSortStr H)).getD "" =
      jsonToSortStr H (groupCell H e row) := by
    unfold groupCell
    cases row.get? (exprToColName H e) <;> rfl
  simp [groupKey, map_inj_left, text, jsonToSortStr_eq_iff, CellsMeet]

/-- The cell of a plain column is its value. -/
theorem cellsMeet_of_sameValue {r s : Row ν} {e : Expr} (column : isColumn e = true)
    (same : SameValue H r s e) : CellsMeet H r s e := by
  cases e with
  | identifier name =>
    have value (row : Row ν) : valueOf H (.identifier name) row =
        some (groupCell H (.identifier name) row) := by
      simp only [valueOf, panics, Bool.false_eq_true, if_false, evalExpr, groupCell, exprToColName]
      cases row.get? (trimTicks name) <;> rfl
    obtain ⟨v, left, right⟩ := same
    rw [value] at left right
    exact .inl (Option.some.inj (left.trans right.symm))
  | _ => cases column

end Values

section Aggregates

variable {ν φ : Type} (H : Host ν φ)

/-- A select item from an expression and its alias. -/
def asItem (p : Expr × Option String) : SelectItem :=
  match p.2 with
  | some aliasName => .exprWithAlias p.1 aliasName
  | none => .unnamedExpr p.1

/-- The values of a SELECT over the rows that WHERE left; none if their evaluation panics. -/
def outputOutcome (q : Select) (rows : List (Row ν)) : Option (List (List (Value ν))) :=
  if outputPanics H q rows then none else some (output H q rows).rows

/-- The GROUP BY expressions put all rows in one group. -/
def OneGroup (groupBy : List Expr) (rows : List (Row ν)) : Prop :=
  ∀ r ∈ rows, ∀ s ∈ rows, groupKey H (groupBy.map (exprToColName H)) r =
    groupKey H (groupBy.map (exprToColName H)) s

instance (groupBy : List Expr) (rows : List (Row Int)) : Decidable (OneGroup integerHost groupBy rows) :=
  inferInstanceAs (Decidable (∀ r ∈ rows, _))

/-- SELECT of these items gives one result with and without a GROUP BY that makes one group. -/
def GroupedAgrees (q : Select) (es : List (Expr × Option String)) : Prop :=
  ∀ (rows : List (Row ν)) (groupBy : List Expr), rows ≠ [] → groupBy ≠ [] → OneGroup H groupBy rows →
    outputOutcome H { q with projection := es.map asItem, groupBy } rows =
      outputOutcome H { q with projection := es.map asItem, groupBy := [] } rows

variable {es : List (Expr × Option String)}

theorem filterMap_asItem (es : List (Expr × Option String)) :
    (es.map asItem).filterMap SelectItem.expr? = es.map Prod.fst := by
  rw [filterMap_map, ← filterMap_eq_map]
  refine filterMap_congr ?_
  rintro ⟨e, _ | _⟩ _ <;> rfl

/-- What GROUP BY gives for one group: an aggregate call is computed, and anything else is looked up
as a column. -/
theorem outputOutcome_oneGroup (q : Select) {groupBy : List Expr} (keyed : groupBy ≠ [])
    {row : Row ν} {rest : List (Row ν)} (one : OneGroup H groupBy (row :: rest)) :
    let keys := groupBy.map (exprToColName H)
    outputOutcome H { q with projection := es.map asItem, groupBy } (row :: rest) =
      if es.any fun p => isAggregate H p.1 && aggregatePanics H (row :: rest) p.1 then none
      else some [es.map fun p => if isAggregate H p.1 then evalAggregate H (row :: rest) p.1
        else groupColumn keys (groupKey H keys row) (exprToColName H p.1) (row :: rest)] := by
  intro keys
  have single : ∀ (keys key : List String) (rows : List (Row ν)) (p : Expr × Option String),
      groupItem H keys key rows (asItem p) = [if isAggregate H p.1 then evalAggregate H rows p.1
        else groupColumn keys key (exprToColName H p.1) rows] := by
    rintro keys key rows ⟨e, _ | _⟩ <;> rfl
  have grouped : (groups ((row :: rest).map (groupKey H keys))).entries =
      [(groupKey H keys row, range (row :: rest).length)] := by
    have key : ∀ k ∈ (row :: rest).map (groupKey H keys), k = groupKey H keys row :=
      forall_mem_map.mpr fun r inRows => one r inRows row mem_cons_self
    rw [entries_groups (by simp) key, length_map]
  have nonempty : groupBy.isEmpty = false := by simpa using keyed
  simp only [outputOutcome, outputPanics, output, nonempty, Bool.false_eq_true, if_false, groupPanics,
    executeGroupBy]
  rw [grouped]
  simp only [any_cons, any_nil, Bool.or_false, map_cons, map_nil, filterMap_range_getElem?,
    flatMap_map, single, filterMap_asItem, any_map, Function.comp_def]
  rw [← map_eq_flatMap]

/-- What a list of aggregate calls gives without GROUP BY. -/
theorem outputOutcome_ungrouped (q : Select) (some : es ≠ [])
    (aggregates : ∀ p ∈ es, isAggregate H p.1 = true) (rows : List (Row ν)) :
    outputOutcome H { q with projection := es.map asItem, groupBy := [] } rows =
      if es.any fun p => aggregatePanics H rows p.1 then none
      else Option.some [es.map fun p => evalAggregate H rows p.1] := by
  have expr : ∀ p, SelectItem.expr? (asItem p) = Option.some p.1 := by
    rintro ⟨e, _ | _⟩ <;> rfl
  have noStar : (es.map asItem).any isStar = false := by
    rw [any_map, any_eq_false]
    rintro ⟨e, _ | _⟩ _ <;> exact Bool.false_ne_true
  have call : ∀ p ∈ es, containsAggregate H p.1 = true ∧
      aggregateExprPanics H rows p.1 = aggregatePanics H rows p.1 ∧
      evalAggregateExpr H rows p.1 = evalAggregate H rows p.1 := by
    rintro ⟨e, aliasName⟩ member
    have aggregate := aggregates _ member
    cases e with
    | function name args wildcard distinct argsText =>
      exact ⟨aggregate, if_pos aggregate, if_pos aggregate⟩
    | _ => cases aggregate
  obtain ⟨p, rest, rfl⟩ := exists_cons_of_ne_nil some
  have contains : ((p :: rest).map Prod.fst).any (containsAggregate H) = true := by
    simp [(call p mem_cons_self).1]
  have contained : ((p :: rest).map asItem).any (fun item =>
      ((SelectItem.expr? item).map (containsAggregate H)).getD false) = true := by
    simp [expr, (call p mem_cons_self).1]
  have evaluated : (rows.any fun row => ((p :: rest).map Prod.fst).any fun e =>
      !isAggregate H e && panics H row e) = false := by
    simp only [any_eq_false, any_map, Bool.not_eq_true, Function.comp_apply]
    intro row _ x member
    rw [aggregates x member, Bool.not_true, Bool.false_and]
  have summed : ((p :: rest).map Prod.fst).any (aggregateExprPanics H rows) =
      (p :: rest).any fun p => aggregatePanics H rows p.1 := by
    rw [any_map]
    exact any_congr_left fun x member => (call x member).2.1
  have values : ((p :: rest).map asItem).map (aggregateItem H rows) =
      (p :: rest).map fun p => evalAggregate H rows p.1 := by
    rw [map_map]
    refine map_congr_left fun x member => ?_
    simp only [Function.comp_apply, aggregateItem, expr, (call x member).2.2]
  simp only [outputOutcome, outputPanics, output, isEmpty_nil, if_true, projectPanics, projectRows,
    noStar, projectItems, contained, filterMap_asItem, evaluated, contains, summed, values,
    Bool.not_false, Bool.true_and, Bool.false_or, Bool.false_eq_true, if_false]

/-- Items survive a GROUP BY exactly as aggregate calls: any choice of the items gives one result
with and without GROUP BY exactly when each item is an aggregate call. -/
theorem grouped_agrees_iff (q : Select) (es : List (Expr × Option String)) :
    (∀ chosen, chosen ⊆ es → chosen ≠ [] → GroupedAgrees H q chosen) ↔
      ∀ p ∈ es, isAggregate H p.1 = true := by
  constructor
  · intro agrees p member
    have alone : GroupedAgrees H q [p] :=
      agrees [p] (by simpa using member) (cons_ne_nil _ _)
    by_contra other
    -- one row without columns, grouped by the expression and by another name
    have value : ∀ name : Expr, outputOutcome H { q with
        projection := [p].map asItem, groupBy := [] } [.empty] =
        some [[if exprToColName H name = exprToColName H p.1 then .string "" else .null]] := by
      intro name
      have one : OneGroup H [name] [(.empty : Row ν)] := by simp [OneGroup]
      rw [← alone [.empty] [name] (cons_ne_nil _ _) (cons_ne_nil _ _) one,
        outputOutcome_oneGroup H q (cons_ne_nil _ _) one]
      by_cases same : exprToColName H name = exprToColName H p.1 <;>
        simp [other, groupColumn, OrdMap.get?_empty, groupKey, idxOf?_cons, same]
    have own := value p.1
    rw [if_pos rfl] at own
    have single : ∀ name, exprToColName H name = exprToColName H p.1 := by
      intro name
      by_contra different
      have missing := value name
      rw [own, if_neg different] at missing
      cases missing
    have names := (single (.identifier "a")).trans (single (.identifier "b")).symm
    exact absurd names (by decide : trimTicks "a" ≠ trimTicks "b")
  · intro aggregates chosen inside some rows groupBy nonempty keyed one
    have all : ∀ p ∈ chosen, isAggregate H p.1 = true := fun p member => aggregates p (inside member)
    obtain ⟨row, rest, rfl⟩ := exists_cons_of_ne_nil nonempty
    rw [outputOutcome_oneGroup H q keyed one, outputOutcome_ungrouped H q some all]
    have cuts : (chosen.any fun p => isAggregate H p.1 && aggregatePanics H (row :: rest) p.1) =
        chosen.any fun p => aggregatePanics H (row :: rest) p.1 :=
      any_congr_left fun p member => by rw [all p member, Bool.true_and]
    have values : (chosen.map fun p => if isAggregate H p.1 then evalAggregate H (row :: rest) p.1
        else groupColumn (groupBy.map (exprToColName H))
          (groupKey H (groupBy.map (exprToColName H)) row) (exprToColName H p.1) (row :: rest)) =
        chosen.map fun p => evalAggregate H (row :: rest) p.1 :=
      map_congr_left fun p member => if_pos (all p member)
    rw [cuts, values]

/-- SUM(a) + 1 is NULL in a group and a sum without one. -/
theorem sum_plus_one_differs :
    let rows : List (Row Int) := [integerRow [("a", 1), ("g", 7)], integerRow [("a", 2), ("g", 7)]]
    let sum : Expr := .function "SUM" [.identifier "a"] false false "a"
    let items := [asItem (.binaryOp sum .plus (.value (.number "1")), none)]
    OneGroup integerHost [.identifier "g"] rows ∧
      (executeGroupBy integerHost items ["g"] rows).rows = [[.null]] ∧
      (projectRows integerHost items false rows).rows = [[.number 4]] := by
  decide +kernel

end Aggregates

end WowDb.Query.SelectExec
