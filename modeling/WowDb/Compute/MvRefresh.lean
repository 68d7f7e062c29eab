import WowDb.Lib.Quoted
import WowDb.Query.Select

/-!
# Refresh of materialized views

`compute-node/src/mv_refresh.rs`.
-/
namespace WowDb.Compute
open WowDb.Lib
open WowDb.Query (Value Row)

inductive MvAggFunc where
  | count | sum | avg | min | max | countDistinct
  deriving DecidableEq

inductive MvRefreshMode where
  | incremental | full
  deriving DecidableEq

structure MvAggSpec where
  aliasName : String
  func : MvAggFunc
  srcCol : String
  deriving DecidableEq

structure MvRefreshRequest (ν : Type) where
  mvName : String
  groupBy : List String
  aggCols : List MvAggSpec
  mode : MvRefreshMode
  newRows : List (Row ν)

structure MvRefreshResult where
  mvName : String
  rowsProcessed : Nat
  groupsUpdated : Nat
  deriving DecidableEq

structure MvNumbers (ν φ : Type) where
  asF64 : ν → Option φ
  /-- `json!` of a double, null if it is not finite. -/
  ofF64 : φ → Option ν
  ofInt : Int → ν
  numberText : ν → String
  zero : φ
  /-- `f64::MAX`. -/
  maxValue : φ
  /-- `f64::MIN`. -/
  minValue : φ
  ofCount : Int → φ
  add : φ → φ → φ
  div : φ → φ → φ
  lt : φ → φ → Bool
  eq : φ → φ → Bool

inductive AggState (φ : Type) where
  | count (c : Int)
  | sum (s : φ)
  | min (m : φ)
  | max (m : φ)
  | avg (sum : φ) (count : Int)
  | countDistinct (set : Finset String)

section Refresh

variable {ν φ : Type} (N : MvNumbers ν φ)

namespace AggState

def initial : MvAggFunc → AggState φ
  | .count => count 0
  | .sum => sum N.zero
  | .min => min N.maxValue
  | .max => max N.minValue
  | .avg => avg N.zero 0
  | .countDistinct => countDistinct ∅

def num : Value ν → φ
  | .number n => (N.asF64 n).getD N.zero
  | _ => N.zero

def update (val : Value ν) : AggState φ → AggState φ
  | count c => count (c + 1)
  | sum s => sum (N.add s (num N val))
  | min m => if N.lt (num N val) m then min (num N val) else min m
  | max m => if N.lt m (num N val) then max (num N val) else max m
  | avg s c => avg (N.add s (num N val)) (c + 1)
  | countDistinct set => countDistinct (insert (val.plain N.numberText) set)

def jsonF64 (x : φ) : Value ν := ((N.ofF64 x).map Value.number).getD .null

def toValue : AggState φ → Value ν
  | count c => .number (N.ofInt c)
  | sum s => jsonF64 N s
  | min m => jsonF64 N (if N.eq m N.maxValue then N.zero else m)
  | max m => jsonF64 N (if N.eq m N.minValue then N.zero else m)
  | avg s c => jsonF64 N (if c = 0 then N.zero else N.div s (N.ofCount c))
  | countDistinct set => .number (N.ofInt set.card)

end AggState

abbrev AggBucket (φ : Type) := OrdMap String (AggState φ)

abbrev MvState (φ : Type) := OrdMap String (AggBucket φ)

def groupKey (groupBy : List String) (row : Row ν) : String :=
  String.intercalate "|" (groupBy.map fun col =>
    ((row.get? col).map (·.text N.numberText)).getD "NULL")

def refreshBucket (aggCols : List MvAggSpec) (row : Row ν) (bucket : AggBucket φ) : AggBucket φ :=
  aggCols.foldl (fun bucket agg => bucket.upsert agg.aliasName (.initial N agg.func)
    (.update N ((row.get? agg.srcCol).getD .null))) bucket

def refreshRow (groupBy : List String) (aggCols : List MvAggSpec) (mv : MvState φ) (row : Row ν) :
    MvState φ :=
  mv.upsert (groupKey N groupBy row) .empty (refreshBucket N aggCols row)

structure MvRefreshExecutor (φ : Type) where
  state : OrdMap String (MvState φ)

namespace MvRefreshExecutor

def new : MvRefreshExecutor φ := ⟨.empty⟩

def groups (ex : MvRefreshExecutor φ) (mvName : String) : MvState φ :=
  (ex.state.get? mvName).getD .empty

def refresh (ex : MvRefreshExecutor φ) (req : MvRefreshRequest ν) :
    MvRefreshExecutor φ × MvRefreshResult :=
  let mv := req.newRows.foldl (refreshRow N req.groupBy req.aggCols) (ex.groups req.mvName)
  (⟨ex.state.insert req.mvName mv⟩, ⟨req.mvName, req.newRows.length, mv.entries.length⟩)

def applyIncremental (ex : MvRefreshExecutor φ) (req : MvRefreshRequest ν) :
    Except String (MvRefreshExecutor φ × MvRefreshResult) :=
  if req.mode ≠ .incremental then .error "apply_incremental called with non-incremental mode"
  else .ok (refresh N ex req)

def applyFull (ex : MvRefreshExecutor φ) (req : MvRefreshRequest ν) :
    MvRefreshExecutor φ × MvRefreshResult :=
  refresh N ⟨ex.state.erase req.mvName⟩ req

def groupRow (groupBy : List String) (aggCols : List MvAggSpec) (key : String)
    (bucket : AggBucket φ) : Row ν :=
  let parts := (key.toList.splitOn '|').map String.ofList
  let named := groupBy.zipIdx.foldl
    (fun row col => row.insert col.1 (.string (parts[col.2]?.getD "NULL"))) OrdMap.empty
  aggCols.foldl (fun row agg =>
    row.insert agg.aliasName (((bucket.get? agg.aliasName).map (AggState.toValue N)).getD .null)) named

variable (order : HashIteration String (AggBucket φ))

def readMv (ex : MvRefreshExecutor φ) (mvName : String)
    (groupBy : List String) (aggCols : List MvAggSpec) : List (Row ν) :=
  match ex.state.get? mvName with
  | none => []
  | some mv => (order.iterate mv).map fun e => groupRow N groupBy aggCols e.1 e.2

def applyAll (ex : MvRefreshExecutor φ) : List (MvRefreshRequest ν) →
    Except String (MvRefreshExecutor φ)
  | [] => .ok ex
  | req :: rest => do
    let done ← applyIncremental N ex req
    done.1.applyAll rest

variable (ex : MvRefreshExecutor φ)

variable (req : MvRefreshRequest ν)

theorem groups_refresh :
    (refresh N ex req).1.groups req.mvName =
      req.newRows.foldl (refreshRow N req.groupBy req.aggCols) (ex.groups req.mvName) := by
  unfold refresh groups
  rw [OrdMap.get?_insert, if_pos rfl]
  rfl

theorem groups_applyFull :
    (applyFull N ex req).1.groups req.mvName =
      req.newRows.foldl (refreshRow N req.groupBy req.aggCols) .empty := by
  unfold applyFull
  rw [groups_refresh]
  unfold groups
  rw [OrdMap.get?_erase, if_pos rfl]
  rfl

def batchRequest (mvName : String) (groupBy : List String) (aggCols : List MvAggSpec)
    (rows : List (Row ν)) : MvRefreshRequest ν :=
  ⟨mvName, groupBy, aggCols, .incremental, rows⟩

theorem applyAll_batches (mvName : String) (groupBy : List String) (aggCols : List MvAggSpec)
    (batches : List (List (Row ν))) (ex : MvRefreshExecutor φ) :
    ∃ done, applyAll N ex (batches.map (batchRequest mvName groupBy aggCols)) = .ok done ∧
      done.groups mvName =
        batches.flatten.foldl (refreshRow N groupBy aggCols) (ex.groups mvName) := by
  induction batches generalizing ex with
  | nil => exact ⟨ex, rfl, rfl⟩
  | cons rows rest ih =>
    obtain ⟨done, applied, held⟩ := ih (refresh N ex (batchRequest mvName groupBy aggCols rows)).1
    refine ⟨done, ?_, ?_⟩
    · rw [List.map_cons, applyAll]
      exact applied
    · rw [held, List.flatten_cons, List.foldl_append]
      congr 1
      exact groups_refresh N ex (batchRequest mvName groupBy aggCols rows)

theorem readMv_perm (ex : MvRefreshExecutor φ)
    (mvName : String) (groupBy : List String) (aggCols : List MvAggSpec) :
    (readMv N order ex mvName groupBy aggCols).Perm
      ((ex.groups mvName).entries.map fun e => groupRow N groupBy aggCols e.1 e.2) := by
  unfold readMv groups
  cases ex.state.get? mvName with
  | none => exact List.Perm.refl _
  | some mv => exact (order.iterate_perm mv).map _

theorem readMv_perm_of_groups {ex other : MvRefreshExecutor φ} {mvName : String}
    (same : ex.groups mvName = other.groups mvName)
    (order otherOrder : HashIteration String (AggBucket φ)) (groupBy : List String)
    (aggCols : List MvAggSpec) :
    (readMv N order ex mvName groupBy aggCols).Perm
      (readMv N otherOrder other mvName groupBy aggCols) := by
  have ours := readMv_perm N order ex mvName groupBy aggCols
  have theirs := readMv_perm N otherOrder other mvName groupBy aggCols
  rw [same] at ours
  exact ours.trans theirs.symm

/-- Batches into a new view read like one full refresh. -/
theorem incremental_reads_as_full (mvName : String) (groupBy : List String)
    (aggCols : List MvAggSpec) (batches : List (List (Row ν))) (ex any : MvRefreshExecutor φ)
    (fresh : ex.state.get? mvName = none) (mode : MvRefreshMode)
    (order fullOrder anyOrder : HashIteration String (AggBucket φ)) (readBy : List String)
    (readCols : List MvAggSpec) :
    let full : MvRefreshRequest ν := ⟨mvName, groupBy, aggCols, mode, batches.flatten⟩
    (∃ done, applyAll N ex (batches.map (batchRequest mvName groupBy aggCols)) = .ok done ∧
      (readMv N order done mvName readBy readCols).Perm
        (readMv N fullOrder (applyFull N ex full).1 mvName readBy readCols)) ∧
    (readMv N anyOrder (applyFull N any full).1 mvName readBy readCols).Perm
      (readMv N fullOrder (applyFull N ex full).1 mvName readBy readCols) := by
  intro full
  have whole := groups_applyFull N ex full
  constructor
  · obtain ⟨done, applied, held⟩ := applyAll_batches N mvName groupBy aggCols batches ex
    have empty : ex.groups mvName = .empty := by
      unfold groups
      rw [fresh]
      rfl
    rw [empty] at held
    exact ⟨done, applied, readMv_perm_of_groups N (held.trans whole.symm) order fullOrder readBy readCols⟩
  · have other := groups_applyFull N any full
    exact readMv_perm_of_groups N (other.trans whole.symm) anyOrder fullOrder readBy readCols

end MvRefreshExecutor

end Refresh

def integers : MvNumbers Int Int where
  asF64 := some
  ofF64 := some
  ofInt := id
  numberText := toString
  zero := 0
  maxValue := 2 ^ 1024
  minValue := -2 ^ 1024
  ofCount := id
  add := (· + ·)
  div := Int.tdiv
  lt a b := decide (a < b)
  eq a b := decide (a = b)

theorem sum_reads_as_full :
    let row (n : Int) : Row Int := .ofList [("city", .string "a"), ("n", .number n)]
    let batches := [[row 1, row 2], [row 3]]
    let specs : List MvAggSpec := [⟨"total", .sum, "n"⟩]
    let old := (MvRefreshExecutor.applyFull integers .new ⟨"mv", [], specs, .full, [row 9]⟩).1
    MvRefreshExecutor.readMv integers .ascending old "mv" [] specs =
        [.ofList [("total", .number 9)]] ∧
      (MvRefreshExecutor.readMv integers .ascending
          (old.applyFull integers ⟨"mv", ["city"], specs, .full, batches.flatten⟩).1 "mv" ["city"]
          specs).Perm
        (MvRefreshExecutor.readMv integers .ascending
          (MvRefreshExecutor.applyFull integers .new
            ⟨"mv", ["city"], specs, .full, batches.flatten⟩).1 "mv" ["city"] specs) := by
  intro row batches specs old
  constructor
  · decide +kernel
  · exact (MvRefreshExecutor.incremental_reads_as_full integers "mv" ["city"] specs batches .new old
      rfl .full .ascending .ascending .ascending ["city"] specs).2

open List

variable {ν φ : Type} (N : MvNumbers ν φ) (same : ν → ν → Prop)

structure JsonTexts : Prop where
  plain : ∀ n, ∀ c ∈ (N.numberText n).toList, c ≠ '"' ∧ c ≠ '|'
  lead : ∀ n, ∃ c rest, (N.numberText n).toList = c :: rest ∧ (c = '-' ∨ c.isDigit = true)
  equal : ∀ n m, N.numberText n = N.numberText m → same n m

def WellFormed : Value ν → Prop
  | .json text => (text.toList.head? = some '[' ∨ text.toList.head? = some '{') ∧
      Quoted.Closed '|' text.toList
  | _ => True

instance (v : Value ν) : Decidable (WellFormed v) := by
  cases v <;> unfold WellFormed <;> infer_instance

def SameJson : Value ν → Value ν → Prop
  | .number n, .number m => same n m
  | a, b => a = b

instance [DecidableEq ν] [DecidableRel same] (a b : Value ν) : Decidable (SameJson same a b) := by
  unfold SameJson
  split <;> infer_instance

def SameCell : Option (Value ν) → Option (Value ν) → Prop
  | some a, some b => SameJson same a b
  | a, b => a = b

def cellText (cell : Option (Value ν)) : String := (cell.map (·.text N.numberText)).getD "NULL"

theorem groupKey_toList (groupBy : List String) (row : Row ν) : (groupKey N groupBy row).toList =
      ['|'].intercalate (groupBy.map fun col => (cellText N (row.get? col)).toList) := by
  rw [groupKey, String.toList_intercalate, map_map]
  rfl

variable {N same}

theorem toList_cellText_string (s : String) :
    (cellText N (some (.string s) : Option (Value ν))).toList = Json.quote s.toList :=
  String.toList_ofList

variable {cell : Option (Value ν)}

theorem closed_cellText (texts : JsonTexts N same) (wellFormed : ∀ v ∈ cell, WellFormed v) :
    Quoted.Closed '|' (cellText N cell).toList := by
  cases cell with
  | none => exact (by decide : Quoted.Closed '|' "NULL".toList)
  | some v =>
    cases v with
    | null => exact (by decide : Quoted.Closed '|' "null".toList)
    | bool b =>
      cases b with
      | false => exact (by decide : Quoted.Closed '|' "false".toList)
      | true => exact (by decide : Quoted.Closed '|' "true".toList)
    | number n => exact Quoted.closed_of_plain (texts.plain n)
    | string s =>
      rw [toList_cellText_string]
      exact Quoted.closed_quote (by decide) s.toList
    | json text => exact (wellFormed _ rfl).2

def kindOfLead (c : Char) : Nat :=
  if c = 'N' then 0 else if c = 'n' then 1 else if c = 't' then 2 else if c = 'f' then 3
  else if c = '"' then 4 else if c = '[' ∨ c = '{' then 5 else 6

def kindOf : Option (Value ν) → Nat
  | none => 0
  | some .null => 1
  | some (.bool b) => if b then 2 else 3
  | some (.string _) => 4
  | some (.json _) => 5
  | some (.number _) => 6

theorem kind_of_digit {c : Char} (digit : c = '-' ∨ c.isDigit = true) : kindOfLead c = 6 := by
  unfold kindOfLead
  rcases digit with rfl | digit
  · decide
  · have apart : ∀ d : Char, d.isDigit = false → c ≠ d := by
      rintro d other rfl
      rw [digit] at other
      cases other
    simp [apart 'N' (by decide), apart 'n' (by decide), apart 't' (by decide),
      apart 'f' (by decide), apart '"' (by decide), apart '[' (by decide), apart '{' (by decide)]

theorem kindOf_eq (texts : JsonTexts N same) (wellFormed : ∀ v ∈ cell, WellFormed v) :
    (cellText N cell).toList.head?.map kindOfLead = some (kindOf cell) := by
  cases cell with
  | none => exact (by decide : "NULL".toList.head?.map kindOfLead = some 0)
  | some v =>
    cases v with
    | null => exact (by decide : "null".toList.head?.map kindOfLead = some 1)
    | bool b =>
      cases b with
      | false => exact (by decide : "false".toList.head?.map kindOfLead = some 3)
      | true => exact (by decide : "true".toList.head?.map kindOfLead = some 2)
    | number n =>
      obtain ⟨c, rest, text, digit⟩ := texts.lead n
      have chars : (cellText N (some (.number n) : Option (Value ν))).toList = c :: rest := text
      rw [chars, head?_cons, Option.map_some, kind_of_digit digit]
      rfl
    | string s =>
      rw [toList_cellText_string]
      rfl
    | json text =>
      have chars : (cellText N (some (.json text) : Option (Value ν))).toList = text.toList := rfl
      rw [chars]
      rcases (wellFormed _ rfl).1 with bracket | bracket
      · rw [bracket]
        rfl
      · rw [bracket]
        rfl

variable {a b : Option (Value ν)}

theorem same_kind (kinds : kindOf a = kindOf b) :
    a = b ∨ (∃ m n, a = some (.number m) ∧ b = some (.number n)) ∨
      (∃ s t, a = some (.string s) ∧ b = some (.string t)) ∨
      (∃ s t, a = some (.json s) ∧ b = some (.json t)) := by
  cases a with
  | none =>
    rcases b with _ | (_ | _ | _ | _ | _)
    all_goals grind [kindOf]
  | some v =>
    rcases b with _ | (_ | _ | _ | _ | _)
    all_goals cases v <;> grind [kindOf]

theorem SameCell.refl (texts : JsonTexts N same) (cell : Option (Value ν)) :
    SameCell same cell cell := by
  cases cell with
  | none => rfl
  | some v =>
    cases v with
    | number n => exact texts.equal n n rfl
    | null => rfl
    | bool b => rfl
    | string s => rfl
    | json text => rfl

theorem sameCell_of_text (texts : JsonTexts N same) (wellFormedA : ∀ v ∈ a, WellFormed v)
    (wellFormedB : ∀ v ∈ b, WellFormed v) (equal : cellText N a = cellText N b) :
    SameCell same a b := by
  have kinds : kindOf a = kindOf b := by
    have first := kindOf_eq texts wellFormedA
    rw [equal, kindOf_eq texts wellFormedB] at first
    exact (Option.some_inj.mp first).symm
  rcases same_kind kinds with rfl | ⟨m, n, rfl, rfl⟩ | ⟨s, t, rfl, rfl⟩ | ⟨s, t, rfl, rfl⟩
  · exact .refl texts a
  · exact texts.equal m n equal
  · have quoted : Json.quote s.toList = Json.quote t.toList := by
      have chars := congrArg String.toList equal
      simpa [cellText, Value.text] using chars
    exact congrArg Value.string (String.toList_inj.mp (Json.quote_injective quoted))
  · exact congrArg Value.json equal

def WellFormedRow (groupBy : List String) (row : Row ν) : Prop :=
  ∀ col ∈ groupBy, ∀ v ∈ row.get? col, WellFormed v

instance (groupBy : List String) (row : Row ν) : Decidable (WellFormedRow groupBy row) := by
  unfold WellFormedRow
  infer_instance

theorem groupKey_eq_iff (texts : JsonTexts N same) {groupBy : List String} {a b : Row ν}
    (wellFormedA : WellFormedRow groupBy a) (wellFormedB : WellFormedRow groupBy b) :
    groupKey N groupBy a = groupKey N groupBy b ↔
      ∀ col ∈ groupBy, cellText N (a.get? col) = cellText N (b.get? col) := by
  rw [← String.toList_inj, groupKey_toList, groupKey_toList]
  constructor
  · intro equal
    have closed : ∀ {r : Row ν}, WellFormedRow groupBy r →
        ∀ text ∈ groupBy.map fun col => (cellText N (r.get? col)).toList,
          Quoted.Closed '|' text := by
      intro r wellFormed text member
      obtain ⟨col, inColumns, rfl⟩ := mem_map.mp member
      exact closed_cellText texts (wellFormed col inColumns)
    have each := Quoted.intercalate_injective (by simp) (closed wellFormedA) (closed wellFormedB)
      equal
    exact fun col member => String.toList_inj.mp (map_inj_left.mp each col member)
  · intro each
    rw [map_congr_left fun col member => congrArg String.toList (each col member)]

def AlikeTexts (N : MvNumbers ν φ) (groupBy : List String) (a b : Row ν) : Prop :=
  ∀ col ∈ groupBy, ∀ m n, a.get? col = some (.number m) → b.get? col = some (.number n) →
    N.numberText m = N.numberText n

theorem cellText_of_sameCell (equal : SameCell same a b)
    (alike : ∀ m n, a = some (.number m) → b = some (.number n) → N.numberText m = N.numberText n) :
    cellText N a = cellText N b := by
  cases a with
  | none =>
    cases b with
    | none => rfl
    | some w => cases equal
  | some v =>
    cases b with
    | none => cases equal
    | some w =>
      cases v with
      | number m =>
        cases w with
        | number n => exact alike m n rfl rfl
        | _ => cases equal
      | _ =>
        obtain rfl := equal
        rfl

theorem together_iff (texts : JsonTexts N same) {groupBy : List String} {a b : Row ν}
    (wellFormedA : WellFormedRow groupBy a) (wellFormedB : WellFormedRow groupBy b) :
    (groupKey N groupBy a = groupKey N groupBy b ↔
        ∀ col ∈ groupBy, SameCell same (a.get? col) (b.get? col)) ↔
      ((∀ col ∈ groupBy, SameCell same (a.get? col) (b.get? col)) → AlikeTexts N groupBy a b) := by
  rw [groupKey_eq_iff texts wellFormedA wellFormedB]
  constructor
  · intro one equal col member m n numberA numberB
    have text := one.mpr equal col member
    rw [numberA, numberB] at text
    exact text
  · intro alike
    constructor
    · intro equal col member
      exact sameCell_of_text texts (wellFormedA col member) (wellFormedB col member)
        (equal col member)
    · intro equal col member
      exact cellText_of_sameCell (equal col member) (alike equal col member)

theorem notMem_of_mem_splitOn {sep : Char} {text : List Char} :
    ∀ part ∈ text.splitOn sep, sep ∉ part := by
  unfold splitOn
  induction text with
  | nil => simp
  | cons c rest ih =>
    rw [splitOnP_cons_eq_if_modifyHead]
    split
    · intro part member
      rcases mem_cons.mp member with rfl | later
      · simp
      · exact ih part later
    next other =>
      obtain ⟨first, parts, split⟩ := exists_cons_of_ne_nil
        (splitOnP_ne_nil (· == sep) rest)
      rw [split] at ih ⊢
      intro part member
      rw [modifyHead_cons] at member
      rcases mem_cons.mp member with rfl | later
      · intro inside
        rcases mem_cons.mp inside with rfl | inFirst
        · exact other (beq_self_eq_true _)
        · exact ih first mem_cons_self inFirst
      · exact ih part (mem_cons_of_mem _ later)

theorem mem_quote_separator {s : List Char} (member : '|' ∈ Json.quote s) : '|' ∈ s := by
  have inBody : '|' ∈ s.flatMap Json.escapeChar := by
    simpa [Json.quote] using member
  obtain ⟨c, inText, escaped⟩ := mem_flatMap.mp inBody
  have verbatim : c = '|' := by
    unfold Json.escapeChar at escaped
    cases short : Json.shortEscape c with
    | some e =>
      have letter : e ≠ '|' := by
        unfold Json.shortEscape at short
        intro bar
        subst bar
        repeat' split at short
        all_goals cases short
      rw [short] at escaped
      simp [letter.symm] at escaped
    | none =>
      rw [short] at escaped
      dsimp only at escaped
      split at escaped
      next control =>
        have high := Quoted.hexDigit_not_special (show c.toNat / 16 < 16 by omega)
        have low := Quoted.hexDigit_not_special (Nat.mod_lt c.toNat (show 0 < 16 by decide))
        simp [high.2.2.symm, low.2.2.symm] at escaped
      next => exact (mem_singleton.mp escaped).symm
  exact verbatim ▸ inText

theorem length_quote (s : List Char) : s.length < (Json.quote s).length := by
  have longer : s.length ≤ (s.flatMap Json.escapeChar).length := by
    induction s with
    | nil => exact Nat.le_refl 0
    | cons c rest ih =>
      have one : 1 ≤ (Json.escapeChar c).length := by
        unfold Json.escapeChar
        split
        · simp
        · split <;> simp
      rw [flatMap_cons, length_append, length_cons]
      omega
  simp only [Json.quote, length_cons, length_append, length_nil]
  omega

theorem toValue_cases (state : AggState φ) :
    state.toValue N = .null ∨ ∃ n, state.toValue N = .number n := by
  have double : ∀ x, AggState.jsonF64 N x = .null ∨ ∃ n, AggState.jsonF64 N x = .number n := by
    intro x
    unfold AggState.jsonF64
    cases N.ofF64 x with
    | none => exact .inl rfl
    | some n => exact .inr ⟨n, rfl⟩
  cases state with
  | count c => exact .inr ⟨_, rfl⟩
  | countDistinct set => exact .inr ⟨_, rfl⟩
  | sum s => exact double s
  | min m => exact double _
  | max m => exact double _
  | avg s c => exact double _

def aggregateValue (N : MvNumbers ν φ) (bucket : AggBucket φ) (aliasName : String) : Value ν :=
  ((bucket.get? aliasName).map (AggState.toValue N)).getD .null

theorem aggregateValue_cases (bucket : AggBucket φ) (aliasName : String) :
    aggregateValue N bucket aliasName = .null ∨
      ∃ n, aggregateValue N bucket aliasName = .number n := by
  unfold aggregateValue
  cases bucket.get? aliasName with
  | none => exact .inl rfl
  | some state => exact toValue_cases state

def keyParts (key : String) : List String := (key.toList.splitOn '|').map String.ofList

theorem get?_groupRow {groupBy : List String} (aggCols : List MvAggSpec) (key : String)
    (bucket : AggBucket φ) {col : String} (grouped : col ∈ groupBy) :
    let row : Row ν := MvRefreshExecutor.groupRow N groupBy aggCols key bucket
    ((∃ agg ∈ aggCols, agg.aliasName = col) ∧ row.get? col = some (aggregateValue N bucket col)) ∨
      ((∀ agg ∈ aggCols, agg.aliasName ≠ col) ∧ ∃ i : Nat, groupBy[i]? = some col ∧
        row.get? col = some (.string ((keyParts key)[i]?.getD "NULL"))) := by
  intro row
  have aggregates := OrdMap.get?_foldl_insert_cases MvAggSpec.aliasName
    (fun agg => aggregateValue N bucket agg.aliasName) aggCols
    (groupBy.zipIdx.foldl (fun row col => row.insert col.1
      (.string ((keyParts key)[col.2]?.getD "NULL"))) OrdMap.empty) col
  rcases aggregates with ⟨agg, member, rfl, held⟩ | ⟨others, held⟩
  · exact .inl ⟨⟨agg, member, rfl⟩, held⟩
  · refine .inr ⟨others, ?_⟩
    have columns := OrdMap.get?_foldl_insert_cases (Prod.fst : String × Nat → String)
      (fun entry => (.string ((keyParts key)[entry.2]?.getD "NULL") : Value ν))
      groupBy.zipIdx OrdMap.empty col
    rcases columns with ⟨⟨_, i⟩, member, rfl, named⟩ | ⟨absent, -⟩
    · exact ⟨i, mem_zipIdx_iff_getElem?.mp member, held.trans named⟩
    · obtain ⟨i, inside, rfl⟩ := getElem_of_mem grouped
      exact absurd rfl (absent (groupBy[i], i)
        (mem_zipIdx_iff_getElem?.mpr (getElem?_eq_getElem inside)))

theorem eq_of_sameJson_string {s : String} {v : Value ν} (equal : SameJson same (.string s) v) :
    v = .string s := by
  cases v <;> exact equal.symm

theorem cell_of_sameJson_string {s : String} (equal : SameJson same (.string s) (cell.getD .null)) :
    cell = some (.string s) := by
  cases cell with
  | none => cases eq_of_sameJson_string equal
  | some v => exact congrArg some (eq_of_sameJson_string equal)

theorem notMem_keyPart (key : String) (i : Nat) :
    '|' ∉ ((keyParts key)[i]?.getD "NULL").toList := by
  cases found : (keyParts key)[i]? with
  | none => exact (by decide : '|' ∉ "NULL".toList)
  | some part =>
    obtain ⟨chars, member, rfl⟩ := mem_map.mp (mem_of_getElem? found)
    rw [Option.getD_some, String.toList_ofList]
    exact notMem_of_mem_splitOn chars member

theorem keyParts_groupKey {groupBy : List String} {r : Row ν} (nonempty : groupBy ≠ [])
    (plain : ∀ col ∈ groupBy, '|' ∉ (cellText N (r.get? col)).toList) :
    keyParts (groupKey N groupBy r) = groupBy.map fun col => cellText N (r.get? col) := by
  rw [keyParts, groupKey_toList, splitOn_intercalate '|' (forall_mem_map.mpr plain)
    (by simpa using nonempty), map_map]
  exact map_congr_left fun col _ => String.ofList_toList

theorem notMem_of_aggregate (texts : JsonTexts N same) {v : Value ν}
    (numeric : v = .null ∨ ∃ n, v = .number n) (equal : SameJson same v (cell.getD .null)) :
    '|' ∉ (cellText N cell).toList := by
  cases cell with
  | none => exact (by decide : '|' ∉ "NULL".toList)
  | some w =>
    cases w with
    | null => exact (by decide : '|' ∉ "null".toList)
    | number n => exact fun member => (texts.plain n _ member).2 rfl
    | _ => rcases numeric with rfl | ⟨n, rfl⟩ <;> cases equal

theorem restored_iff (texts : JsonTexts N same) {groupBy : List String}
    (aggCols : List MvAggSpec) (bucket : AggBucket φ) (r : Row ν) :
    (∀ col ∈ groupBy, ∃ v,
        (MvRefreshExecutor.groupRow N groupBy aggCols (groupKey N groupBy r) bucket).get? col =
          some v ∧ SameJson same v ((r.get? col).getD .null)) ↔
      ∀ col ∈ groupBy, (∃ agg ∈ aggCols, agg.aliasName = col) ∧
        SameJson same (aggregateValue N bucket col) ((r.get? col).getD .null) := by
  constructor
  · intro restored
    -- no text has the separator: what is read has none
    have plain : ∀ col ∈ groupBy, '|' ∉ (cellText N (r.get? col)).toList := by
      intro col grouped
      obtain ⟨v, held, equal⟩ := restored col grouped
      rcases get?_groupRow aggCols (groupKey N groupBy r) bucket grouped with
        ⟨-, aggregate⟩ | ⟨-, i, -, part⟩
      · obtain rfl := Option.some_inj.mp (held.symm.trans aggregate)
        exact notMem_of_aggregate texts (aggregateValue_cases bucket col) equal
      · obtain rfl := Option.some_inj.mp (held.symm.trans part)
        rw [cell_of_sameJson_string equal, toList_cellText_string]
        exact fun member => notMem_keyPart _ i (mem_quote_separator member)
    intro col grouped
    obtain ⟨v, held, equal⟩ := restored col grouped
    rcases get?_groupRow aggCols (groupKey N groupBy r) bucket grouped with
      ⟨named, aggregate⟩ | ⟨-, i, here, part⟩
    · obtain rfl := Option.some_inj.mp (held.symm.trans aggregate)
      exact ⟨named, equal⟩
    · -- the part is the text of the value, which is longer than a string that it prints
      obtain rfl := Option.some_inj.mp (held.symm.trans part)
      have parts := keyParts_groupKey (ne_nil_of_mem grouped) plain
      have text : (keyParts (groupKey N groupBy r))[i]?.getD "NULL" = cellText N (r.get? col) := by
        rw [parts, getElem?_map, here]
        rfl
      rw [text] at equal
      have own := cell_of_sameJson_string equal
      have chars := congrArg (fun cell => (cellText N cell).toList.length) own
      simp only [toList_cellText_string] at chars
      exact absurd chars (Nat.ne_of_lt (length_quote _))
  · intro aggregates col grouped
    obtain ⟨named, equal⟩ := aggregates col grouped
    rcases get?_groupRow aggCols (groupKey N groupBy r) bucket grouped with
      ⟨-, aggregate⟩ | ⟨others, -⟩
    · exact ⟨_, aggregate, equal⟩
    · obtain ⟨agg, member, same_name⟩ := named
      exact absurd same_name (others agg member)

section View

variable (N) (same) (groupBy : List String) (aggCols : List MvAggSpec) (rows : List (Row ν))

def groupBucket (r : Row ν) : AggBucket φ :=
  (rows.filter fun other => groupKey N groupBy other = groupKey N groupBy r).foldl
    (fun bucket row => refreshBucket N aggCols row bucket) .empty

/-- Groups are the rows of equal values, and read with them. -/
structure RealGroups (order : HashIteration String (AggBucket φ)) (ex : MvRefreshExecutor φ)
    (mvName : String) : Prop where
  together : ∀ a ∈ rows, ∀ b ∈ rows, groupKey N groupBy a = groupKey N groupBy b ↔
    ∀ col ∈ groupBy, SameCell same (a.get? col) (b.get? col)
  restored : ∀ e ∈ order.iterate (ex.groups mvName), ∀ r ∈ rows, groupKey N groupBy r = e.1 →
    ∀ col ∈ groupBy, ∃ v, (MvRefreshExecutor.groupRow N groupBy aggCols e.1 e.2).get? col = some v ∧
        SameJson same v ((r.get? col).getD .null)

variable {N same groupBy rows}

theorem mem_iterate_iff (order : HashIteration String (AggBucket φ)) {r : Row ν}
    (member : r ∈ rows) (bucket : AggBucket φ) :
    (groupKey N groupBy r, bucket) ∈
        order.iterate (rows.foldl (refreshRow N groupBy aggCols) .empty) ↔
      groupBucket N groupBy aggCols rows r = bucket := by
  have held := OrdMap.get?_foldl_upsert_of_mem (groupKey N groupBy) .empty
    (refreshBucket N aggCols) ⟨r, member, rfl⟩
  rw [order.mem_iterate, show (rows.foldl (refreshRow N groupBy aggCols) .empty).get?
    (groupKey N groupBy r) = _ from held, Option.some_inj]
  rfl

/-- Exactly when equal numbers print alike and columns are aggregates. -/
theorem realGroups_iff (texts : JsonTexts N same) (batches : List (List (Row ν)))
    (wellFormed : ∀ r ∈ batches.flatten, WellFormedRow groupBy r) (ex : MvRefreshExecutor φ)
    (mvName : String) (fresh : ex.state.get? mvName = none)
    (order : HashIteration String (AggBucket φ)) :
    ∃ done, MvRefreshExecutor.applyAll N ex
        (batches.map (MvRefreshExecutor.batchRequest mvName groupBy aggCols)) = .ok done ∧
      (RealGroups N same groupBy aggCols batches.flatten order done mvName ↔
        (∀ a ∈ batches.flatten, ∀ b ∈ batches.flatten,
          (∀ col ∈ groupBy, SameCell same (a.get? col) (b.get? col)) → AlikeTexts N groupBy a b) ∧
        ∀ r ∈ batches.flatten, ∀ col ∈ groupBy, (∃ agg ∈ aggCols, agg.aliasName = col) ∧
          SameJson same (aggregateValue N (groupBucket N groupBy aggCols batches.flatten r) col)
            ((r.get? col).getD .null)) := by
  obtain ⟨done, applied, held⟩ := MvRefreshExecutor.applyAll_batches N mvName groupBy aggCols
    batches ex
  have empty : ex.groups mvName = .empty := by
    unfold MvRefreshExecutor.groups
    rw [fresh]
    rfl
  rw [empty] at held
  refine ⟨done, applied, ?_⟩
  constructor
  · intro real
    constructor
    · intro a inA b inB
      exact (together_iff texts (wellFormed a inA) (wellFormed b inB)).mp (real.together a inA b inB)
    · intro r member
      refine (restored_iff texts aggCols _ r).mp (real.restored (_, _) ?_ r member rfl)
      rw [held]
      exact (mem_iterate_iff aggCols order member _).mpr rfl
  · intro ⟨alike, aggregates⟩
    constructor
    · intro a inA b inB
      exact (together_iff texts (wellFormed a inA) (wellFormed b inB)).mpr (alike a inA b inB)
    · intro ⟨key, bucket⟩ entry r member here
      obtain rfl : groupKey N groupBy r = key := here
      rw [held, mem_iterate_iff aggCols order member] at entry
      obtain rfl := entry
      exact (restored_iff texts aggCols _ r).mpr (aggregates r member)

end View

theorem integers_jsonTexts : JsonTexts integers Eq where
  plain n c member := by
    have printed : c ∈ Json.printInt n := Json.toList_toString_int n ▸ member
    rcases Json.mem_printInt printed with rfl | digit
    · decide
    · constructor
      · rintro rfl
        exact absurd digit (by decide)
      · rintro rfl
        exact absurd digit (by decide)
  lead n := by
    obtain ⟨c, rest, chars, lead⟩ := Json.printInt_eq_cons n
    exact ⟨c, rest, (Json.toList_toString_int n).trans chars, lead⟩
  equal m n text := by
    have printed := congrArg String.toList text
    exact Json.printInt_injective
      ((Json.toList_toString_int m).symm.trans (printed.trans (Json.toList_toString_int n)))

theorem greatest_as_group :
    let row (n : Int) : Row Int := .ofList [("n", .number n)]
    let batches := [[row 4, row 5], [row 4]]
    ∃ done, MvRefreshExecutor.applyAll integers .new
        (batches.map (MvRefreshExecutor.batchRequest "mv" ["n"] [⟨"n", .max, "n"⟩])) = .ok done ∧
      RealGroups integers Eq ["n"] [⟨"n", .max, "n"⟩] batches.flatten .ascending done "mv" := by
  intro row batches
  have wellFormed : ∀ r ∈ batches.flatten, WellFormedRow ["n"] r := by decide +kernel
  obtain ⟨done, applied, real⟩ := realGroups_iff [⟨"n", .max, "n"⟩] integers_jsonTexts batches
    wellFormed .new "mv" rfl .ascending
  refine ⟨done, applied, real.mpr ⟨?_, by decide +kernel⟩⟩
  intro a _ b _ equal col member m n numberA numberB
  have numbers := equal col member
  rw [numberA, numberB] at numbers
  exact congrArg integers.numberText numbers

theorem string_read_quoted :
    let row : Row Int := .ofList [("city", .string "a")]
    ∃ done, MvRefreshExecutor.applyAll integers .new
        [MvRefreshExecutor.batchRequest "mv" ["city"] [⟨"n", .count, "city"⟩] [row]] = .ok done ∧
      MvRefreshExecutor.readMv integers .ascending done "mv" ["city"] [⟨"n", .count, "city"⟩] =
        [.ofList [("city", .string "\"a\""), ("n", .number 1)]] ∧
      ¬ RealGroups integers Eq ["city"] [⟨"n", .count, "city"⟩] [row] .ascending done "mv" := by
  intro row
  refine ⟨_, rfl, by decide +kernel, ?_⟩
  intro real
  obtain ⟨v, held, equal⟩ := real.restored ("\"a\"", _) (mem_singleton.mpr rfl) row
    mem_cons_self (by decide +kernel) "city" mem_cons_self
  have quoted : v = .string "\"a\"" := Option.some_inj.mp (held.symm.trans (by decide +kernel))
  subst quoted
  exact absurd equal (by decide +kernel)

end WowDb.Compute
