import WowDb.Query.SelectTransparent

/-!
# The choice of the join

For a second table of the FROM list `execute_select_sync` (`select_exec.rs`) takes a hash join on
the first equality of WHERE whose columns the two tables have, and a cross join if there is none;
WHERE runs on the joined rows either way. The hash key is `json_to_sort_str`, a text, while WHERE
compares values, and WHERE can panic on a pair that the hash join never forms.
-/
namespace WowDb.Query.SelectExec
open WowDb.Lib Eval List

variable {ν φ : Type} (H : Host ν φ) (store : InMemoryStore ν) (q : Select)
  (aliasName : Option String)

/-- The rows of the first table that the early WHERE leaves. -/
def firstRows (q : Select) (first : TableFactor) : List (Row ν) :=
  prune H (plan H q) (baseRows store first)

/-- What the early WHERE, a join of the two tables and WHERE return; `none` if one of them
panics. -/
def joinOutcome (first : TableFactor) (joined : List (Row ν)) : Option (List (Row ν)) :=
  if prunePanics H (plan H q) (baseRows store first) || wherePanics H q.selection joined then none
  else some (whereRows H q.selection joined)

/-- The join that is chosen and a cross join both panic, or return the same rows in some order. -/
def JoinsAlike (first : TableFactor) (last : String) : Prop :=
  Option.Rel Perm
    (joinOutcome H store q first
      (joinTable H (plan H q) aliasName (firstRows H store q first) (store.scan last)))
    (joinOutcome H store q first
      (crossJoinTables aliasName (firstRows H store q first) (store.scan last)))

theorem JoinsAlike.length_eq {first : TableFactor} {last : String}
    (alike : JoinsAlike H store q aliasName first last) :
    (joinOutcome H store q first (joinTable H (plan H q) aliasName (firstRows H store q first)
      (store.scan last))).map length =
    (joinOutcome H store q first (crossJoinTables aliasName (firstRows H store q first)
      (store.scan last))).map length := by
  unfold JoinsAlike at alike
  generalize joinOutcome H store q first (joinTable _ _ _ _ _) = chosen at alike ⊢
  generalize joinOutcome H store q first (crossJoinTables _ _ _) = crossed at alike ⊢
  cases alike with
  | none => rfl
  | some perm => exact congrArg some perm.length_eq

def passes (pair : Row ν × Row ν) : Bool :=
  (q.selection.map (holds H (mergeRow aliasName pair.1 pair.2))).getD true

/-- WHERE panics on the merged row of a pair. -/
def cuts (l r : Row ν) : Bool := q.selection.any (panics H (mergeRow aliasName l r))

/-- The text under which a left row is looked up; that of a missing column is empty. -/
def probeText (leftCol : String) (l : Row ν) : String :=
  ((l.get? leftCol).map (jsonToSortStr H)).getD ""

/-- The right row has the join column, with the text of the left one. -/
def SameText (leftCol rightCol : String) (l r : Row ν) : Prop :=
  ∃ v, r.get? rightCol = some v ∧ jsonToSortStr H v = probeText H leftCol l

/-- WHERE panics on a pair of equal texts, or it panics on no pair at all and passes only pairs of
equal texts. -/
def LosesNoPair (leftCol rightCol : String) (rows right : List (Row ν)) : Prop :=
  (∃ l ∈ rows, ∃ r ∈ right, SameText H leftCol rightCol l r ∧ cuts H q aliasName l r = true) ∨
    ((∀ l ∈ rows, ∀ r ∈ right, cuts H q aliasName l r = false) ∧
      ∀ l ∈ rows, ∀ r ∈ right, passes H q aliasName (l, r) = true → SameText H leftCol rightCol l r)

theorem paired_iff (leftCol rightCol : String) (l r : Row ν) :
    paired H leftCol rightCol l r = true ↔ SameText H leftCol rightCol l r := by
  rw [SameText, paired, beq_iff_eq, Option.map_eq_some_iff]
  rfl

theorem whereRows_flatMap (keep : Row ν → Row ν → Bool) (rows right : List (Row ν)) :
    whereRows H q.selection
        (rows.flatMap fun l => (right.filter (keep l)).map (mergeRow aliasName l)) =
      (((rows.product right).filter (passes H q aliasName)).filter fun pair =>
        keep pair.1 pair.2).map fun pair => mergeRow aliasName pair.1 pair.2 := by
  have byPair : whereRows H q.selection = filter fun row =>
      (q.selection.map (holds H row)).getD true := by
    funext rows
    unfold whereRows
    cases q.selection with
    | none => simp
    | some e => simp
  rw [byPair, filter_comm, product, filter_flatMap, filter_flatMap,
    filter_flatMap, map_flatMap]
  refine flatMap_congr fun l _ => ?_
  rw [filter_map, filter_map, filter_map, map_map]
  rfl

theorem whereRows_cross (rows right : List (Row ν)) :
    whereRows H q.selection (crossJoinTables aliasName rows right) =
      ((rows.product right).filter (passes H q aliasName)).map fun pair =>
        mergeRow aliasName pair.1 pair.2 := by
  have all := whereRows_flatMap H q aliasName (fun _ _ => true) rows right
  simp only [filter_true] at all
  exact all

theorem whereRows_perm_iff (keep : Row ν → Row ν → Bool) (rows right : List (Row ν)) :
    (whereRows H q.selection
        (rows.flatMap fun l => (right.filter (keep l)).map (mergeRow aliasName l))).Perm
      (whereRows H q.selection (crossJoinTables aliasName rows right)) ↔
      ∀ l ∈ rows, ∀ r ∈ right, passes H q aliasName (l, r) = true → keep l r = true := by
  rw [whereRows_flatMap, whereRows_cross]
  constructor
  · intro perm l inLeft r inRight passed
    have lengths := perm.length_eq
    rw [length_map, length_map, length_filter_eq_length_iff] at lengths
    exact lengths (l, r)
      (mem_filter.mpr ⟨mem_product.mpr ⟨inLeft, inRight⟩, passed⟩)
  · intro kept
    have same : (((rows.product right).filter (passes H q aliasName)).filter fun pair =>
        keep pair.1 pair.2) = (rows.product right).filter (passes H q aliasName) := by
      rw [filter_eq_self]
      rintro ⟨l, r⟩ member
      obtain ⟨inProduct, passed⟩ := mem_filter.mp member
      obtain ⟨inLeft, inRight⟩ := mem_product.mp inProduct
      exact kept l inLeft r inRight passed
    rw [same]

theorem wherePanics_flatMap (keep : Row ν → Row ν → Bool) (rows right : List (Row ν)) :
    wherePanics H q.selection
        (rows.flatMap fun l => (right.filter (keep l)).map (mergeRow aliasName l)) = true ↔
      ∃ l ∈ rows, ∃ r ∈ right, keep l r = true ∧ cuts H q aliasName l r = true := by
  unfold wherePanics cuts
  cases q.selection with
  | none => simp
  | some e => simp [any_flatMap, any_map, any_filter]

theorem wherePanics_cross (rows right : List (Row ν)) :
    wherePanics H q.selection (crossJoinTables aliasName rows right) = true ↔
      ∃ l ∈ rows, ∃ r ∈ right, cuts H q aliasName l r = true := by
  have all := wherePanics_flatMap H q aliasName (fun _ _ => true) rows right
  simp only [filter_true, true_and] at all
  exact all

/-- A join that keeps some pairs and one that keeps all of them have one outcome exactly if WHERE
panics on a kept pair, or on none and passes kept pairs only. -/
theorem joinOutcome_rel_iff (first : TableFactor) (keep : Row ν → Row ν → Bool)
    (rows right : List (Row ν)) (early : prunePanics H (plan H q) (baseRows store first) = false) :
    Option.Rel Perm
        (joinOutcome H store q first
          (rows.flatMap fun l => (right.filter (keep l)).map (mergeRow aliasName l)))
        (joinOutcome H store q first (crossJoinTables aliasName rows right)) ↔
      (∃ l ∈ rows, ∃ r ∈ right, keep l r = true ∧ cuts H q aliasName l r = true) ∨
        ((∀ l ∈ rows, ∀ r ∈ right, cuts H q aliasName l r = false) ∧
          ∀ l ∈ rows, ∀ r ∈ right, passes H q aliasName (l, r) = true → keep l r = true) := by
  have kept := wherePanics_flatMap H q aliasName keep rows right
  have all := wherePanics_cross H q aliasName rows right
  simp only [joinOutcome, early, Bool.false_or, kept, all]
  by_cases cutKept : ∃ l ∈ rows, ∃ r ∈ right, keep l r = true ∧ cuts H q aliasName l r = true
  · obtain ⟨l, inLeft, r, inRight, -, cut⟩ := id cutKept
    rw [if_pos cutKept, if_pos ⟨l, inLeft, r, inRight, cut⟩]
    exact iff_of_true .none (Or.inl cutKept)
  · rw [if_neg cutKept, or_iff_right cutKept]
    by_cases cutAll : ∃ l ∈ rows, ∃ r ∈ right, cuts H q aliasName l r = true
    · rw [if_pos cutAll]
      refine iff_of_false nofun fun clean => ?_
      obtain ⟨l, inLeft, r, inRight, cut⟩ := cutAll
      simp [clean.1 l inLeft r inRight] at cut
    · rw [if_neg cutAll, Option.rel_some_some, whereRows_perm_iff]
      simp only [not_exists, not_and, Bool.not_eq_true] at cutAll
      exact (and_iff_right cutAll).symm

def equalityJoin : Select where
  projection := [.wildcard]
  tables := [⟨.table "left_t" "left_t" (some "a"), []⟩, ⟨.table "right_t" "right_t" (some "b"), []⟩]
  selection := some (.binaryOp (.compoundIdentifier ["a", "k"]) .eq (.compoundIdentifier ["b", "k"]))
  groupBy := []
  having := none
  distinct := false
  orderBy := []
  limit := none

end WowDb.Query.SelectExec
