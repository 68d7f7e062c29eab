import WowDb.Query.SelectTransparent
import WowDb.System.MysqlHandler

/-!
# The tables a SELECT fetches and the tables it scans

Before a SELECT runs, `quick_extract_all_tables` looks for table names in its text and the rows of
these tables are fetched from the storage nodes.
-/
namespace WowDb.System.RefreshedTables
open WowDb.Lib WowDb.Query WowDb.System.MysqlHandler List

def isTable : TableFactor → Bool
  | .table .. => true
  | .other => false

/-- `apply_joins` scans under the whole name as written; a factor that is no table stops it. -/
def joinTables : List Join → List String
  | [] => []
  | j :: rest =>
    match j.relation with
    | .table _ text _ => text :: joinTables rest
    | .other => []

def afterJoins (joins : List Join) (next : List String) : List String :=
  joinTables joins ++ if joins.all fun j => isTable j.relation then next else []

def extraTables : List TableWithJoins → List String
  | [] => []
  | extra :: rest =>
    match extra.relation with
    | .table last _ _ => last :: afterJoins extra.joins (extraTables rest)
    | .other => extraTables rest

def scannedTables (q : Select) : List String :=
  match q.tables with
  | [] => []
  | first :: extras =>
    (match first.relation with | .table last _ _ => last | .other => "") ::
      afterJoins first.joins (extraTables extras)

section Scans

variable {ν φ : Type} (H : Host ν φ) {s t : InMemoryStore ν}

variable {joins : List Join}

theorem applyJoins_congr (same : ∀ n ∈ joinTables joins, s.scan n = t.scan n)
    (rows : List (Row ν)) :
    SelectExec.applyJoins H s joins rows = SelectExec.applyJoins H t joins rows := by
  induction joins generalizing rows with
  | nil => rfl
  | cons j joins ih =>
    unfold joinTables at same
    unfold SelectExec.applyJoins
    cases relation : j.relation with
    | table last text aliasName =>
      rw [relation] at same
      simp only [same text mem_cons_self]
      exact ih (fun n mem => same n (mem_cons_of_mem _ mem)) _
    | other => rfl

theorem applyJoins_fails (fails : ¬ joins.all fun j => isTable j.relation) (rows : List (Row ν)) :
    SelectExec.applyJoins H s joins rows = .error "Unsupported JOIN table type" := by
  induction joins generalizing rows with
  | nil => exact absurd rfl fails
  | cons j joins ih =>
    unfold SelectExec.applyJoins
    cases relation : j.relation with
    | table last text aliasName =>
      rw [all_cons, relation] at fails
      exact ih fails _
    | other => rfl

theorem joinAndPrune_congr (p : SelectExec.Plan) {next : List String}
    {f g : List (Row ν) → Except String (List (Row ν))}
    (same : ∀ n ∈ afterJoins joins next, s.scan n = t.scan n)
    (rest : (∀ n ∈ next, s.scan n = t.scan n) → ∀ rows, f rows = g rows) (rows : List (Row ν)) :
    (SelectExec.joinAndPrune H s p joins rows >>= f) =
      (SelectExec.joinAndPrune H t p joins rows >>= g) := by
  have joined := applyJoins_congr H
    (fun n mem => same n (mem_append_left _ mem)) rows
  unfold SelectExec.joinAndPrune
  rw [joined]
  by_cases tables : joins.all fun j => isTable j.relation
  · rw [funext (rest fun n mem => same n (mem_append_right _ (by rwa [if_pos tables])))]
  · have nonempty : joins.isEmpty = false := by cases joins <;> simp_all
    rw [applyJoins_fails H tables, nonempty]
    rfl

theorem joinExtras_congr (p : SelectExec.Plan) {extras : List TableWithJoins}
    (same : ∀ n ∈ extraTables extras, s.scan n = t.scan n) (rows : List (Row ν)) :
    SelectExec.joinExtras H s p extras rows = SelectExec.joinExtras H t p extras rows := by
  induction extras generalizing rows with
  | nil => rfl
  | cons extra extras ih =>
    unfold extraTables at same
    unfold SelectExec.joinExtras
    cases relation : extra.relation with
    | table last text aliasName =>
      rw [relation] at same
      simp only [same last mem_cons_self]
      exact joinAndPrune_congr H p (fun n mem => same n (mem_cons_of_mem _ mem)) ih _
    | other =>
      rw [relation] at same
      exact ih same rows

/-- A SELECT depends on the tables it scans only. -/
theorem executeSelectSync_congr {q : Select} (same : ∀ n ∈ scannedTables q, s.scan n = t.scan n) :
    SelectExec.executeSelectSync H s q = SelectExec.executeSelectSync H t q := by
  unfold scannedTables at same
  unfold SelectExec.executeSelectSync
  cases tables : q.tables with
  | nil => rfl
  | cons first extras =>
    rw [tables] at same
    have base : SelectExec.baseRows s first.relation = SelectExec.baseRows t first.relation := by
      have scan := same _ mem_cons_self
      unfold SelectExec.baseRows
      cases relation : first.relation with
      | table last text aliasName =>
        rw [relation] at scan
        cases aliasName <;> simp only [scan]
      | other =>
        rw [relation] at scan
        exact scan
    unfold SelectExec.fromRows
    simp only [base]
    rw [joinAndPrune_congr H _ (fun n mem => same n (mem_cons_of_mem _ mem))
      (joinExtras_congr H _)]

open SelectExec in
theorem select_of_other_insert : executeSelectSync integerHost
      (twoTables.insertAll "t" [integerRow [("x", 5)]]) hashedSelect =
    executeSelectSync integerHost twoTables hashedSelect :=
  executeSelectSync_congr integerHost (by decide +kernel)

end Scans

end WowDb.System.RefreshedTables
