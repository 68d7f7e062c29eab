import WowDb.Query.OrderBy

/-!
# Comparisons with NULL

`SELECT * FROM t WHERE p` and `WHERE NOT p` for a comparison `p`, as `execute_select_sync` runs
them: `eval_expr` (`select_exec.rs`) has a NULL result but compares it like any value, and NOT
negates the truth of the comparison. A statement that meets a row on which an operand panics
returns nothing.
-/
namespace WowDb.Query.SelectExec
open WowDb.Lib Eval List

variable {ν φ : Type} (H : Host ν φ) (store : InMemoryStore ν)

/-- `SELECT * FROM table WHERE e`. -/
def selectStar (table : String) (e : Expr) : Select where
  projection := [.wildcard]
  tables := [⟨.table table table none, []⟩]
  selection := some e
  groupBy := []
  having := none
  distinct := false
  orderBy := []
  limit := none

/-- The rows that the statement returns, before they are rendered. -/
def survivors (q : Select) : Except String (List (Row ν)) :=
  match q.tables with
  | [] => .ok []
  | first :: extras => (fromRows H store (plan H q) first extras).map (whereRows H q.selection)

variable (table : String)

theorem survivors_selectStar (e : Expr) : survivors H store (selectStar table e) =
      .ok ((store.scan table).filter fun row => holds H row e) := by
  -- conjuncts that are applied early hold on every row that WHERE keeps
  have early : ∀ row ∈ store.scan table, (holds H row e &&
      (applicable H e.splitAndConjuncts (store.scan table)).all (holds H row)) = holds H row e := by
    intro row _
    cases kept : holds H row e with
    | false => rfl
    | true =>
      rw [holds_splitAndConjuncts, List.all_eq_true] at kept
      rw [Bool.true_and, List.all_eq_true]
      exact fun c member => kept c (List.mem_filter.mp member).1
  have where_rows : survivors H store (selectStar table e) =
      .ok (((store.scan table).filter fun row =>
        (applicable H e.splitAndConjuncts (store.scan table)).all (holds H row)).filter
          fun row => holds H row e) := rfl
  rw [where_rows, List.filter_filter, List.filter_congr early]

/-- `SELECT * FROM table WHERE e` does not panic and returns the row. -/
def Returned (table : String) (e : Expr) (row : Row ν) : Prop :=
  selectPanics H store (selectStar table e) = false ∧
    ∃ rows, survivors H store (selectStar table e) = .ok rows ∧ row ∈ rows

/-- A statement whose WHERE is one conjunct panics exactly if WHERE panics on a row: the conjunct
meets every row, early or late. -/
theorem selectPanics_selectStar (e : Expr) (one : e.splitAndConjuncts = [e]) :
    selectPanics H store (selectStar table e) = (store.scan table).any (panics H · e) := by
  have conjuncts : (plan H (selectStar table e)).conjuncts = [e] := one
  have parts : selectPanics H store (selectStar table e) =
      (prunePanics H (plan H (selectStar table e)) (store.scan table) ||
        (prune H (plan H (selectStar table e)) (store.scan table)).any (panics H · e)) := by
    simp [selectPanics, selectStar, fromPanics, fromRows, joinAndPrune, joinAndPrunePanics,
      joinExtras, extrasPanic, baseRows, finishPanics, wherePanics, outputPanics, projectPanics,
      havingPanics, isStar, Except.toOption, bind, Except.bind]
  have pruned : prune H (plan H (selectStar table e)) (store.scan table) =
      (store.scan table).filter fun row =>
        (applicable H (plan H (selectStar table e)).conjuncts (store.scan table)).all (holds H row) :=
    rfl
  rw [parts, pruned, prunePanics, conjuncts, applicable, filter_singleton]
  cases isApplicable H ((columnsOf (store.scan table)).map H.lower) e with
  | false => simp [conjunctsPanic]
  | true =>
    -- applied early: what is left was evaluated before
    rw [Bool.eq_iff_iff]
    simp only [conjunctsPanic, cond_true, Bool.and_false, Bool.or_false, Bool.or_eq_true,
      any_eq_true, mem_filter]
    constructor
    · rintro (panicked | ⟨row, ⟨member, -⟩, cut⟩)
      · exact panicked
      · exact ⟨row, member, cut⟩
    · exact .inl

theorem returned_iff (e : Expr) (one : e.splitAndConjuncts = [e]) (row : Row ν) :
    Returned H store table e row ↔ (∀ r ∈ store.scan table, panics H r e = false) ∧
      row ∈ store.scan table ∧ holds H row e = true := by
  rw [Returned, survivors_selectStar, selectPanics_selectStar H store table e one]
  simp only [any_eq_false, Bool.not_eq_true, Except.ok.injEq, exists_eq_left', mem_filter]

theorem holds_not (row : Row ν) (e : Expr) : holds H row (.unaryOp .not e) = !holds H row e := rfl

/-- The operand evaluates to NULL; a missing column does. -/
def IsNullOn (row : Row ν) (e : Expr) : Prop :=
  panics H row e = false ∧ (evalExpr H row e).isNull = true

def HasValueOn (row : Row ν) (e : Expr) : Prop :=
  panics H row e = false ∧ (evalExpr H row e).isNull = false

/-- A row with a NULL operand is returned for neither `p` nor NOT `p`, and a row with two values for
exactly one of them. -/
structure NullsUnknown (table : String) (left : Expr) (op : BinaryOp) (right : Expr) : Prop where
  unknown : ∀ row ∈ store.scan table, IsNullOn H row left ∨ IsNullOn H row right →
    ¬ Returned H store table (.binaryOp left op right) row ∧
      ¬ Returned H store table (.unaryOp .not (.binaryOp left op right)) row
  decided : ∀ row ∈ store.scan table, HasValueOn H row left ∧ HasValueOn H row right →
    (Returned H store table (.binaryOp left op right) row ↔
      ¬ Returned H store table (.unaryOp .not (.binaryOp left op right)) row)

/-- NULL is unknown exactly on the tables where no operand panics and none is NULL, or where an
operand panics on some row and no row has two values. -/
theorem nullsUnknown_iff (table : String) (left : Expr) (op : BinaryOp) (right : Expr)
    (compares : op ≠ .and) :
    NullsUnknown H store table left op right ↔
      (∀ row ∈ store.scan table, HasValueOn H row left ∧ HasValueOn H row right) ∨
      ((∃ row ∈ store.scan table, panics H row left = true ∨ panics H row right = true) ∧
        ∀ row ∈ store.scan table, ¬ (HasValueOn H row left ∧ HasValueOn H row right)) := by
  have single : (Expr.binaryOp left op right).splitAndConjuncts = [.binaryOp left op right] := by
    cases op <;> first | exact absurd rfl compares | rfl
  have cut : ∀ row, panics H row (.binaryOp left op right) =
      (panics H row left || panics H row right) := fun row => by rw [panics]
  have positive := returned_iff H store table (.binaryOp left op right) single
  have negative : ∀ row, Returned H store table (.unaryOp .not (.binaryOp left op right)) row ↔
      (∀ r ∈ store.scan table, panics H r (.binaryOp left op right) = false) ∧
        row ∈ store.scan table ∧ holds H row (.binaryOp left op right) = false := by
    intro row
    rw [returned_iff H store table _ rfl, holds_not, Bool.not_eq_true']
    simp only [panics]
  by_cases whole : ∀ r ∈ store.scan table, panics H r (.binaryOp left op right) = false
  · -- no row is cut: every row is returned by exactly one statement
    have clean : ∀ r ∈ store.scan table, panics H r left = false ∧ panics H r right = false := by
      intro r member
      have here := whole r member
      rwa [cut, Bool.or_eq_false_iff] at here
    have exactly : ∀ row ∈ store.scan table, Returned H store table (.binaryOp left op right) row ↔
        ¬ Returned H store table (.unaryOp .not (.binaryOp left op right)) row := by
      intro row member
      rw [positive, negative, and_iff_right whole, and_iff_right whole, and_iff_right member,
        and_iff_right member, Bool.not_eq_false]
    constructor
    · intro nulls
      refine .inl fun row member => ?_
      have known : ¬ (IsNullOn H row left ∨ IsNullOn H row right) := by
        intro null
        obtain ⟨notPositive, notNegative⟩ := nulls.unknown row member null
        exact notPositive ((exactly row member).mpr notNegative)
      simpa [IsNullOn, HasValueOn, clean row member] using known
    · rintro (values | ⟨⟨row, member, panicked⟩, -⟩)
      · refine ⟨fun row member null => ?_, fun row member _ => exactly row member⟩
        obtain ⟨⟨-, first⟩, -, second⟩ := values row member
        rcases null with ⟨-, isNull⟩ | ⟨-, isNull⟩
        · exact absurd (first.symm.trans isNull) Bool.false_ne_true
        · exact absurd (second.symm.trans isNull) Bool.false_ne_true
      · simp [clean row member] at panicked
  · -- some row is cut: neither statement returns a row
    have none (row : Row ν) : ¬ Returned H store table (.binaryOp left op right) row ∧
        ¬ Returned H store table (.unaryOp .not (.binaryOp left op right)) row := by
      rw [positive, negative]
      exact ⟨fun returned => whole returned.1, fun returned => whole returned.1⟩
    simp only [cut, Bool.or_eq_false_iff, not_forall, not_and_or, Bool.not_eq_false] at whole
    obtain ⟨r, member, panicked⟩ := whole
    constructor
    · intro nulls
      refine .inr ⟨⟨r, member, panicked⟩, fun row inTable values => ?_⟩
      exact (none row).1 ((nulls.decided row inTable values).mpr (none row).2)
    · rintro (values | ⟨-, valueless⟩)
      · obtain ⟨⟨first, -⟩, second, -⟩ := values r member
        simp [first, second] at panicked
      · exact ⟨fun row _ _ => none row, fun row inTable values =>
          absurd values (valueless row inTable)⟩

theorem number_decided :
    NullsUnknown integerHost (InMemoryStore.new.insertAll "t" [integerRow [("x", 2)]]) "t"
      (.identifier "x") .eq (.value (.number "1")) := by
  refine (nullsUnknown_iff integerHost _ "t" (.identifier "x") .eq (.value (.number "1"))
    (by decide)).mpr (.inl ?_)
  unfold HasValueOn
  decide +kernel

/-- NOT x = 1 returns the row whose x is NULL. -/
theorem null_returned_by_not :
    ¬ NullsUnknown integerHost (InMemoryStore.new.insertAll "t" [.ofList [("x", .null)]]) "t"
      (.identifier "x") .eq (.value (.number "1")) := by
  intro nulls
  have member : (.ofList [("x", .null)] : Row Int) ∈
      (InMemoryStore.new.insertAll "t" [.ofList [("x", .null)]]).scan "t" := by
    decide +kernel
  refine (nulls.unknown _ member (.inl (by unfold IsNullOn; decide +kernel))).2 ?_
  rw [returned_iff _ _ _ _ rfl]
  exact ⟨by decide +kernel, member, by decide +kernel⟩

end WowDb.Query.SelectExec
