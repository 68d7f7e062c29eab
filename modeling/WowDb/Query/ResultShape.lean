import WowDb.Query.OrderBy

/-!
# The shape of a result

`project_rows` of `select_exec.rs`: with a wildcard the header is the column names of the first row
and every row gives its own values in the order of their names; without one every item is evaluated
on every row, or over all rows when some item holds an aggregate. The evaluation of an item can
panic, and then there is no result.
-/
namespace WowDb.Query.SelectExec
open WowDb.Lib Eval List

section Distinct

variable {ν φ : Type} (H : Host ν φ)

/-- The rows that DISTINCT keeps: the first one of each text. -/
def keptRows (text : Row ν → String) : List String → List (Row ν) → List (Row ν)
  | _, [] => []
  | seen, row :: rest =>
    if seen.contains (text row) then keptRows text seen rest
    else row :: keptRows text (text row :: seen) rest

theorem distinctRows_map (text : List (Value ν) → String) (values : Row ν → List (Value ν))
    (rows : List (Row ν)) : ∀ seen, distinctRows text seen (rows.map values) =
      (keptRows (fun row => text (values row)) seen rows).map values := by
  induction rows with
  | nil => exact fun _ => rfl
  | cons row rest ih =>
    intro seen
    rw [map_cons, distinctRows, keptRows]
    split
    · exact ih seen
    · rw [ih, map_cons]

/-- The rows that stand behind the result. -/
def sources (distinct : Bool) (values : Row ν → List (Value ν)) (rows : List (Row ν)) :
    List (Row ν) :=
  if distinct then
    keptRows (fun row => String.intercalate "\x00" ((values row).map (jsonText H))) [] rows
  else rows

theorem map_sources (distinct : Bool) (values : Row ν → List (Value ν)) (rows : List (Row ν)) :
    (if distinct then
        distinctRows (fun row => String.intercalate "\x00" (row.map (jsonText H))) []
          (rows.map values)
      else rows.map values) = (sources H distinct values rows).map values := by
  cases distinct with
  | false => rfl
  | true => exact distinctRows_map _ values rows []

end Distinct

section Aligned

variable {ν φ : Type} (H : Host ν φ) (items : List SelectItem)

/-- What stands in each column, for every row of the result: with `*` what the row has under
the name, otherwise the value of the item. -/
def columnValues (distinct : Bool) (rows : List (Row ν)) : List (Nat → Value ν) :=
  if items.any isStar then
    (sources H distinct (fun row => row.entries.map Prod.snd) rows).map fun row i =>
      ((columnsOf rows)[i]?.map fun name => (row.get? name).getD .null).getD .null
  else if items.any fun item => ((SelectItem.expr? item).map (containsAggregate H)).getD false then
    [fun i => (items[i]?.map (aggregateItem H rows)).getD .null]
  else (sources H distinct (fun row => items.map (projectItem H row)) rows).map fun row i =>
    (items[i]?.map (projectItem H row)).getD .null

/-- `project_rows` returns, and every row of its result has one value for each header, that of its
column. -/
def RowsAligned (distinct : Bool) (rows : List (Row ν)) : Prop :=
  projectPanics H items rows = false ∧
    (projectRows H items distinct rows).rows = (columnValues H items distinct rows).map fun column =>
      (List.range (projectRows H items distinct rows).columns.length).map column

/-- The row has as many columns as the header, and NULL where its name is not the header's. -/
def FitsHeader (columns : List String) (row : Row ν) : Prop :=
  row.entries.length = columns.length ∧ ∀ (i : Nat) (name : String) (value : Value ν),
    row.entries[i]? = some (name, value) → columns[i]? ≠ some name → value = .null

/-- No item panics where `project_rows` evaluates it: on a row, and over all rows if some item holds
an aggregate. -/
structure ItemsWhole (exprs : List Expr) (rows : List (Row ν)) : Prop where
  each : ∀ row ∈ rows, ∀ e ∈ exprs, isAggregate H e = false → panics H row e = false
  all : (∃ e ∈ exprs, containsAggregate H e = true) → ∀ e ∈ exprs, aggregateExprPanics H rows e = false

theorem not_projectPanics_iff (rows : List (Row ν)) :
    projectPanics H items rows = false ↔
      (items.any isStar = false → ItemsWhole H (items.filterMap SelectItem.expr?) rows) := by
  cases star : items.any isStar with
  | true => simp [projectPanics, star]
  | false =>
    simp only [projectPanics, star, Bool.not_false, Bool.true_and, Bool.or_eq_false_iff, true_imp_iff]
    constructor
    · rintro ⟨each, all⟩
      refine ⟨fun row member e inItems plain => ?_, fun found f inside => ?_⟩
      · have here := any_eq_false.mp (Bool.eq_false_iff.mpr (any_eq_false.mp each row member)) e inItems
        simpa [plain] using here
      · have some : (items.filterMap SelectItem.expr?).any (containsAggregate H) = true :=
          any_eq_true.mpr found
        rw [some, Bool.true_and] at all
        exact Bool.eq_false_iff.mpr (any_eq_false.mp all f inside)
    · intro whole
      constructor
      · simp only [any_eq_false, Bool.not_eq_true]
        intro row member e inItems
        cases aggregate : isAggregate H e with
        | true => rfl
        | false => rw [whole.each row member e inItems aggregate, Bool.and_false]
      · cases contains : (items.filterMap SelectItem.expr?).any (containsAggregate H) with
        | false => rfl
        | true =>
          rw [Bool.true_and, any_eq_false]
          exact fun e inItems => Bool.eq_false_iff.mp (whole.all (any_eq_true.mp contains) e inItems)

theorem map_range_getD {α β : Type} (xs : List α) (f : α → β) (d : β) :
    (List.range xs.length).map (fun i => (xs[i]?.map f).getD d) = xs.map f := by
  apply List.ext_getElem
  · simp
  · intro i _ inside
    have bound : i < xs.length := by simpa using inside
    simp [getElem?_eq_getElem bound]

theorem rel_of_getElem? {α : Type} {r : α → α → Prop} {xs : List α} (sorted : xs.Pairwise r)
    {i j : Nat} {a b : α} (first : xs[i]? = some a) (second : xs[j]? = some b) (lt : i < j) :
    r a b := by
  obtain ⟨_, rfl⟩ := List.getElem?_eq_some_iff.mp first
  obtain ⟨_, rfl⟩ := List.getElem?_eq_some_iff.mp second
  exact pairwise_iff_getElem.mp sorted i j _ _ lt

variable {columns : List String} {row : Row ν}

theorem null_of_elsewhere (apart : String → String → Prop) (rank : Nat → Nat)
    (aligned : ∀ (i : Nat) (name column : String) (value : Value ν),
      row.entries[i]? = some (name, value) → columns[i]? = some column →
        value = (row.get? column).getD .null) (total : row.entries.length = columns.length)
    (falls : ∀ {i j : Nat} {e f : String × Value ν}, row.entries[i]? = some e →
      row.entries[j]? = some f → apart e.1 f.1 → rank j < rank i)
    (further : ∀ {i j : Nat} {c d : String}, columns[i]? = some c → columns[j]? = some d →
      rank j < rank i → apart c d) :
    ∀ (n i : Nat) (name column : String) (value : Value ν), rank i = n →
      row.entries[i]? = some (name, value) → columns[i]? = some column → apart name column →
        value = .null := by
  intro n
  induction n using Nat.strong_induction_on with
  | _ n ih =>
    rintro i name column value rfl here header elsewhere
    rw [aligned i name column value here header]
    cases found : row.get? column with
    | none => rfl
    | some other =>
      obtain ⟨j, there⟩ := getElem?_of_mem ((row.mem_entries_iff column other).mpr found)
      have lower := falls here there elsewhere
      have inside : j < columns.length := by
        rw [← total]
        exact (List.getElem?_eq_some_iff.mp there).1
      have next := getElem?_eq_getElem inside
      exact ih (rank j) lower j column _ other rfl there next (further header next lower)

theorem index_lt {i j : Nat} {e f : String × Value ν} (first : row.entries[i]? = some e)
    (second : row.entries[j]? = some f) (lt : e.1 < f.1) : i < j := by
  by_contra le
  rcases (not_lt.mp le).lt_or_eq with gt | rfl
  · exact lt_asymm lt (rel_of_getElem? row.sorted second first gt)
  · exact lt.ne (by rw [Option.some.inj (first.symm.trans second)])

theorem fitsHeader_iff (sorted : columns.Pairwise (· < ·)) :
    row.entries.map Prod.snd = columns.map (fun name => (row.get? name).getD .null) ↔
      FitsHeader columns row := by
  constructor
  · intro same
    have total : row.entries.length = columns.length := by
      simpa using congrArg List.length same
    have aligned : ∀ (i : Nat) (name column : String) (value : Value ν),
        row.entries[i]? = some (name, value) → columns[i]? = some column →
          value = (row.get? column).getD .null := by
      intro i name column value here header
      have at_i := congrArg (·[i]?) same
      simpa [here, header] using at_i
    refine ⟨total, fun i name value here elsewhere => ?_⟩
    have inside : i < columns.length := by
      rw [← total]
      exact (List.getElem?_eq_some_iff.mp here).1
    have header := getElem?_eq_getElem inside
    rcases lt_trichotomy columns[i] name with lt | eq | gt
    · exact null_of_elsewhere (· > ·) id aligned total (fun first second => index_lt second first)
        (fun first second lt => rel_of_getElem? sorted second first lt) _ i name _ value rfl here
        header lt
    · exact absurd (header.trans (congrArg some eq)) elsewhere
    · refine null_of_elsewhere (· < ·) (columns.length - ·) aligned total
        (fun first second lt => ?_)
        (fun first second lt => rel_of_getElem? sorted first second (by omega)) _ i name _ value
        rfl here header gt
      have later := index_lt first second lt
      have bound := (List.getElem?_eq_some_iff.mp second).1
      omega
  · rintro ⟨total, null⟩
    apply List.ext_getElem?
    intro i
    rw [getElem?_map, getElem?_map]
    cases here : row.entries[i]? with
    | none =>
      have beyond := getElem?_eq_none_iff.mp here
      rw [getElem?_eq_none (by omega)]
      rfl
    | some e =>
      have inside : i < columns.length := by
        rw [← total]
        exact (List.getElem?_eq_some_iff.mp here).1
      have header := getElem?_eq_getElem inside
      rw [header, Option.map_some, Option.map_some]
      congr 1
      by_cases same : columns[i] = e.1
      · rw [same, (row.mem_entries_iff e.1 e.2).mp (mem_of_getElem? here)]
        rfl
      · rw [null i e.1 e.2 here (by rw [header]; simpa using same)]
        cases found : row.get? columns[i] with
        | none => rfl
        | some other =>
          obtain ⟨j, there⟩ := getElem?_of_mem ((row.mem_entries_iff _ other).mpr found)
          refine (null j _ other there fun again => ?_).symm
          -- a name stands in the header once
          have once : j = i := by
            by_contra apart
            rcases lt_or_gt_of_ne apart with lt | gt
            · exact lt_irrefl _ (rel_of_getElem? sorted again header lt)
            · exact lt_irrefl _ (rel_of_getElem? sorted header again gt)
          rw [once, here] at there
          exact same (by rw [Option.some.inj there])

theorem sorted_columnsOf (rows : List (Row ν)) : (columnsOf rows).Pairwise (· < ·) := by
  cases rows with
  | nil => exact Pairwise.nil
  | cons first rest => exact pairwise_map.mpr first.sorted

/-- A result is aligned exactly when, with a wildcard, every row of it fits the header and, without
one, no item panics. -/
theorem rows_aligned_iff (items : List SelectItem) (distinct : Bool) (rows : List (Row ν)) :
    RowsAligned H items distinct rows ↔
      (items.any isStar = true →
        ∀ row ∈ sources H distinct (fun row => row.entries.map Prod.snd) rows,
          FitsHeader (columnsOf rows) row) ∧
      (items.any isStar = false → ItemsWhole H (items.filterMap SelectItem.expr?) rows) := by
  rw [RowsAligned, not_projectPanics_iff, and_comm]
  refine and_congr_left fun _ => ?_
  unfold columnValues projectRows
  by_cases star : items.any isStar = true
  · simp only [star, if_true, true_imp_iff, projectStar, map_sources]
    cases rows with
    | nil => cases distinct <;> simp [sources, keptRows]
    | cons first rest =>
      simp only [isEmpty_cons, Bool.false_eq_true, if_false, map_map, Function.comp_def,
        map_range_getD, map_inj_left, fitsHeader_iff (sorted_columnsOf _)]
  · simp only [star, Bool.false_eq_true, if_false, false_imp_iff, iff_true, projectItems,
      map_sources]
    split
    · simp only [length_map, map_cons, map_nil, map_range_getD]
    · simp only [length_map, map_map, Function.comp_def, map_range_getD]

/-- The second row of SELECT * gives the value of b under the header a, the third two values. -/
theorem star_rows_misaligned :
    let rows : List (Row Int) := [integerRow [("a", 1)], integerRow [("b", 2)],
      integerRow [("a", 3), ("b", 4)]]
    ¬ RowsAligned integerHost [.wildcard] false rows ∧
      (projectRows integerHost [.wildcard] false rows).columns = ["a"] ∧
      (projectRows integerHost [.wildcard] false rows).rows =
        [[.number 1], [.number 2], [.number 3, .number 4]] := by
  refine ⟨fun aligned => absurd aligned.2 (by decide +kernel), by decide +kernel⟩

end Aligned

end WowDb.Query.SelectExec
