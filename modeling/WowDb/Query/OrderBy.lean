import WowDb.Lib.Comparators
import WowDb.Query.SelectTransparent

/-!
# ORDER BY

`apply_order_by` sorts the result once for each key, from the last to the first, with a stable sort.
-/
namespace WowDb.Query
open WowDb.Lib

variable {ν φ κ : Type} [LinearOrder κ]

/-- Numbers are finite doubles in a linear order. -/
structure Host.Numeric (H : Host ν φ) (value : ν → κ) : Prop where
  finite : ∀ n, ∃ x, H.asF64 n = some x
  compares : ∀ m n x y, H.asF64 m = some x → H.asF64 n = some y →
    H.partialCmp x y = some (compare (value m) (value n))
  equates : ∀ m n x y, H.asF64 m = some x → H.asF64 n = some y →
    (H.eq x y = true ↔ value m = value n)
  printed : ∀ n, ∃ c rest, (H.numberText n).toList = c :: rest ∧ (c = '-' ∨ c.isDigit = true)

def Value.Bracketed : Value ν → Prop
  | .json text => text.toList.head? = some '[' ∨ text.toList.head? = some '{'
  | _ => True

instance : ∀ v : Value ν, Decidable v.Bracketed
  | .json _ => inferInstanceAs (Decidable (_ ∨ _))
  | .null | .bool _ | .number _ | .string _ => isTrue trivial

namespace Value

def rank : Value ν → Nat
  | null => 0
  | string _ => 1
  | number _ => 2
  | json text => if text.toList.head? = some '[' then 3 else 6
  | bool b => if b then 5 else 4

theorem same_kind {a b : Value ν} (same : a.rank = b.rank) :
    (∃ m n, a = number m ∧ b = number n) ∨ (∃ s t, a = string s ∧ b = string t) ∨
      (∃ s t, a = json s ∧ b = json t) ∨ (∃ p, a = bool p ∧ b = bool p) ∨
      (a = null ∧ b = null) := by
  cases a <;> cases b <;> grind [Value.rank]

def detail (value : ν → κ) : Value ν → WithBot κ ×ₗ String
  | number n => toLex ((value n : WithBot κ), "")
  | string s => toLex (⊥, s)
  | json text => toLex (⊥, text)
  | _ => toLex (⊥, "")

def orderKey (value : ν → κ) (v : Value ν) : ℕ ×ₗ (WithBot κ ×ₗ String) :=
  toLex (v.rank, v.detail value)

end Value

namespace Eval

variable {H : Host ν φ} {value : ν → κ}

def leadRank (c : Char) : Nat :=
  if c.toNat ≤ 34 then 1 else if c.toNat ≤ 57 then 2 else if c.toNat ≤ 91 then 3
  else if c.toNat ≤ 102 then 4 else if c.toNat ≤ 116 then 5 else 6

theorem lt_of_leadRank_lt {c d : Char} (less : leadRank c < leadRank d) : c < d := by
  rw [← not_le]
  intro le
  have codes : d.toNat ≤ c.toNat := le
  unfold leadRank at less
  repeat' split at less
  all_goals omega

variable (numeric : H.Numeric value)

include numeric in
theorem exists_lead {v : Value ν} (solid : v ≠ .null) (bracketed : v.Bracketed) :
    ∃ c rest, (jsonText H v).toList = c :: rest ∧ leadRank c = v.rank := by
  cases v with
  | null => exact absurd rfl solid
  | bool b =>
    cases b with
    | false =>
      exact ⟨'f', "alse".toList, (by decide : "false".toList = 'f' :: "alse".toList), rfl⟩
    | true => exact ⟨'t', "rue".toList, (by decide : "true".toList = 't' :: "rue".toList), rfl⟩
  | number n =>
    obtain ⟨c, rest, text, lead⟩ := numeric.printed n
    refine ⟨c, rest, text, ?_⟩
    rcases lead with rfl | digit
    · rfl
    · have range : 48 ≤ c.toNat ∧ c.toNat ≤ 57 := by
        simp only [Char.isDigit, Bool.and_eq_true, decide_eq_true_eq] at digit
        exact digit
      rw [leadRank, if_neg (by omega), if_pos range.2]
      rfl
  | string s =>
    exact ⟨'"', s.toList.flatMap Json.escapeChar ++ ['"'], by simp [jsonText, Value.text, Json.quote],
      rfl⟩
  | json text =>
    have first : ∀ c, text.toList.head? = some c → ∃ rest, (jsonText H (.json text)).toList = c ::
      rest := by
      intro c head
      cases chars : text.toList with
      | nil => simp [chars] at head
      | cons d rest =>
        rw [chars, List.head?_cons, Option.some.injEq] at head
        exact ⟨rest, by rw [← head]; exact chars⟩
    rcases bracketed with square | brace
    · obtain ⟨rest, chars⟩ := first '[' square
      exact ⟨'[', rest, chars, by rw [Value.rank, if_pos square]; rfl⟩
    · obtain ⟨rest, chars⟩ := first '{' brace
      exact ⟨'{', rest, chars, by rw [Value.rank, if_neg (by rw [brace]; decide)]; rfl⟩

variable {a b : Value ν}

include numeric

theorem jsonText_lt (solidA : a ≠ .null)
    (solidB : b ≠ .null) (bracketedA : a.Bracketed) (bracketedB : b.Bracketed)
    (less : a.rank < b.rank) : jsonText H a < jsonText H b := by
  obtain ⟨c, restA, textA, leadA⟩ := exists_lead numeric solidA bracketedA
  obtain ⟨d, restB, textB, leadB⟩ := exists_lead numeric solidB bracketedB
  rw [String.lt_iff_toList_lt, textA, textB]
  exact List.Lex.rel (lt_of_leadRank_lt (by rw [leadA, leadB]; exact less))

theorem cmpJson_of_rank_lt (bracketedA : a.Bracketed)
    (bracketedB : b.Bracketed) (less : a.rank < b.rank) :
    cmpJson H a b = .lt ∧ cmpJson H b a = .gt := by
  have solidB : b ≠ .null := by
    rintro rfl
    exact Nat.not_lt_zero _ less
  by_cases isNull : a = .null
  · subst isNull
    cases b with
    | null => exact absurd rfl solidB
    | _ => exact ⟨rfl, rfl⟩
  · have texts := jsonText_lt numeric isNull solidB bracketedA bracketedB less
    have byText : compare (jsonText H a) (jsonText H b) = .lt ∧
        compare (jsonText H b) (jsonText H a) = .gt :=
      ⟨compare_lt_iff_lt.mpr texts, compare_gt_iff_gt.mpr texts⟩
    cases a with
    | null => exact absurd rfl isNull
    | bool p =>
      cases b with
      | null => exact absurd rfl solidB
      | bool q => cases p <;> cases q <;> first | exact ⟨rfl, rfl⟩ | exact absurd less (by simp [Value.rank])
      | _ => exact byText
    | number m =>
      cases b with
      | null => exact absurd rfl solidB
      | number n => exact absurd less (Nat.lt_irrefl _)
      | _ => exact byText
    | string s =>
      cases b with
      | null => exact absurd rfl solidB
      | string t => exact absurd less (Nat.lt_irrefl _)
      | _ => exact byText
    | json s =>
      cases b with
      | null => exact absurd rfl solidB
      | _ => exact byText

theorem cmpJson_number (m n : ν) :
    cmpJson H (.number m) (.number n) = compare (value m) (value n) := by
  obtain ⟨x, ofM⟩ := numeric.finite m
  obtain ⟨y, ofN⟩ := numeric.finite n
  rw [cmpJson, ofM, ofN, Option.getD_some, Option.getD_some, numeric.compares m n x y ofM ofN]
  rfl

omit numeric

theorem compare_of_strictMono {α β : Type} [LinearOrder α] [LinearOrder β] {f : α → β}
    (mono : StrictMono f) (x y : α) : compare (f x) (f y) = compare x y := by
  rw [← cmp_eq_compare, ← cmp_eq_compare, mono.cmp_map_eq]

theorem strictMono_toLex {α β : Type} [Preorder α] [Preorder β] (a : α) :
    StrictMono fun b : β => toLex (a, b) := fun _ _ less =>
  Prod.Lex.toLex_lt_toLex.mpr (Or.inr ⟨rfl, less⟩)

include numeric

theorem cmpJson_of_rank_eq (same : a.rank = b.rank) :
    cmpJson H a b = compare (a.detail value) (b.detail value) := by
  rcases Value.same_kind same with ⟨m, n, rfl, rfl⟩ | ⟨s, t, rfl, rfl⟩ | ⟨s, t, rfl, rfl⟩ |
    ⟨p, rfl, rfl⟩ | ⟨rfl, rfl⟩
  · have mono : StrictMono fun x : κ => toLex ((x : WithBot κ), "") := fun _ _ less =>
      Prod.Lex.toLex_lt_toLex.mpr (Or.inl (WithBot.coe_lt_coe.mpr less))
    rw [cmpJson_number numeric]
    exact (compare_of_strictMono mono _ _).symm
  · exact (compare_of_strictMono (strictMono_toLex (⊥ : WithBot κ)) s t).symm
  · exact (compare_of_strictMono (strictMono_toLex (⊥ : WithBot κ)) s t).symm
  · rw [compare_eq_iff_eq.mpr rfl]
    cases p <;> rfl
  · rw [compare_eq_iff_eq.mpr rfl]
    rfl

theorem cmpJson_eq_compare (bracketedA : a.Bracketed) (bracketedB : b.Bracketed) :
    cmpJson H a b = compare (a.orderKey value) (b.orderKey value) := by
  rcases Nat.lt_trichotomy a.rank b.rank with less | same | greater
  · rw [(cmpJson_of_rank_lt numeric bracketedA bracketedB less).1, eq_comm, compare_lt_iff_lt]
    exact Prod.Lex.toLex_lt_toLex.mpr (Or.inl less)
  · rw [cmpJson_of_rank_eq numeric same, Value.orderKey, Value.orderKey, same]
    exact (compare_of_strictMono (strictMono_toLex b.rank) _ _).symm
  · rw [(cmpJson_of_rank_lt numeric bracketedB bracketedA greater).2, eq_comm, compare_gt_iff_gt]
    exact Prod.Lex.toLex_lt_toLex.mpr (Or.inl greater)

omit numeric

def Scalar : Value ν → Prop
  | .null => False
  | .json _ => False
  | _ => True

instance : ∀ v : Value ν, Decidable (Scalar v)
  | .null | .json _ => isFalse id
  | .bool _ | .number _ | .string _ => isTrue trivial

theorem Scalar.bracketed {v : Value ν} (scalar : Scalar v) : v.Bracketed := by
  cases v with
  | json text => cases scalar
  | _ => trivial

def isNumeral (H : Host ν φ) : Value ν → Value ν → Bool
  | .string s, .number n => f64Eq H (H.parseF64 s) (H.asF64 n)
  | .number n, .string s => f64Eq H (H.asF64 n) (H.parseF64 s)
  | _, _ => false

include numeric in
theorem jsonEq_number (m n : ν) : jsonEq H (.number m) (.number n) = true ↔ value m = value n := by
  obtain ⟨x, ofM⟩ := numeric.finite m
  obtain ⟨y, ofN⟩ := numeric.finite n
  rw [jsonEq, ofM, ofN]
  exact numeric.equates m n x y ofM ofN

theorem jsonEq_string (s t : String) : jsonEq H (.string s) (.string t) = true ↔ s = t := by
  simp only [jsonEq, sameValue, jsonText, Value.text, Bool.or_eq_true, beq_iff_eq]
  constructor
  · rintro (same | texts)
    · exact same
    · exact String.toList_injective (Json.quote_injective (String.ofList_injective texts))
  · exact Or.inl

include numeric

theorem jsonText_ne (solidA : a ≠ .null)
    (solidB : b ≠ .null) (bracketedA : a.Bracketed) (bracketedB : b.Bracketed)
    (apart : a.rank ≠ b.rank) : jsonText H a ≠ jsonText H b := by
  rcases Nat.lt_or_gt_of_ne apart with less | greater
  · exact (jsonText_lt numeric solidA solidB bracketedA bracketedB less).ne
  · exact (jsonText_lt numeric solidB solidA bracketedB bracketedA greater).ne'

theorem cmpJson_eq_eq_iff (bracketedA : a.Bracketed) (bracketedB : b.Bracketed) :
    cmpJson H a b = .eq ↔ a.rank = b.rank ∧ a.detail value = b.detail value := by
  rw [cmpJson_eq_compare numeric bracketedA bracketedB, compare_eq_iff_eq, Value.orderKey,
    Value.orderKey, toLex_inj, Prod.mk.injEq]

theorem jsonEq_of_rank_ne (scalarA : Scalar a)
    (scalarB : Scalar b) (apart : a.rank ≠ b.rank) : jsonEq H a b = isNumeral H a b := by
  have texts : (jsonText H a == jsonText H b) = false := by
    have solid : ∀ {v : Value ν}, Scalar v → v ≠ .null := by
      rintro _ scalar rfl
      exact scalar
    rw [beq_eq_false_iff_ne]
    exact jsonText_ne numeric (solid scalarA) (solid scalarB) scalarA.bracketed scalarB.bracketed apart
  cases a with
  | null => cases scalarA
  | json text => cases scalarA
  | bool p =>
    cases b with
    | null => cases scalarB
    | json text => cases scalarB
    | bool q =>
      cases p <;> cases q <;> first | rfl | exact absurd rfl apart
    | number n => exact texts
    | string t => exact texts
  | number m =>
    cases b with
    | null => cases scalarB
    | json text => cases scalarB
    | bool q => exact texts
    | number n => exact absurd rfl apart
    | string t => rfl
  | string s =>
    cases b with
    | null => cases scalarB
    | json text => cases scalarB
    | bool q => exact texts
    | number n => rfl
    | string t => exact absurd rfl apart

theorem jsonEq_of_rank_eq (scalar : Scalar a) (same : a.rank = b.rank) :
    (jsonEq H a b = true ↔ a.detail value = b.detail value) ∧ isNumeral H a b = false := by
  rcases Value.same_kind same with ⟨m, n, rfl, rfl⟩ | ⟨s, t, rfl, rfl⟩ | ⟨s, t, rfl, rfl⟩ |
    ⟨p, rfl, rfl⟩ | ⟨rfl, rfl⟩
  · refine ⟨?_, rfl⟩
    rw [jsonEq_number numeric, Value.detail, Value.detail, toLex_inj, Prod.mk.injEq,
      WithBot.coe_inj]
    simp
  · refine ⟨?_, rfl⟩
    rw [jsonEq_string, Value.detail, Value.detail, toLex_inj, Prod.mk.injEq]
    simp
  · cases scalar
  · cases p <;> exact ⟨iff_of_true rfl rfl, rfl⟩
  · cases scalar

theorem jsonEq_iff_cmpJson_iff (scalarA : Scalar a) (scalarB : Scalar b) :
    (jsonEq H a b = true ↔ cmpJson H a b = .eq) ↔ isNumeral H a b = false := by
  rw [cmpJson_eq_eq_iff numeric scalarA.bracketed scalarB.bracketed]
  by_cases same : a.rank = b.rank
  · obtain ⟨equal, notNumeral⟩ := jsonEq_of_rank_eq numeric scalarA same
    simp [equal, same, notNumeral]
  · rw [jsonEq_of_rank_ne numeric scalarA scalarB same]
    simp [same]

omit numeric

/-- The comparisons of two expressions agree. -/
structure Coherent (H : Host ν φ) (row : Row ν) (left right : Expr) : Prop where
  trichotomy : let less := holds H row (.binaryOp left .lt right)
    let equal := holds H row (.binaryOp left .eq right)
    let greater := holds H row (.binaryOp left .gt right)
    (less, equal, greater) = (true, false, false) ∨ (less, equal, greater) = (false, true, false) ∨
      (less, equal, greater) = (false, false, true)
  lessOrEqual : holds H row (.binaryOp left .ltEq right) =
    (holds H row (.binaryOp left .lt right) || holds H row (.binaryOp left .eq right))
  agree : jsonEq H (evalExpr H row left).intoValue (evalExpr H row right).intoValue = true ↔
    cmpJson H (evalExpr H row left).intoValue (evalExpr H row right).intoValue = .eq

/-- Exactly when no string reads as the other number. -/
theorem coherent_iff (numeric : H.Numeric value) (row : Row ν) (left right : Expr)
    (scalarLeft : Scalar (evalExpr H row left).intoValue)
    (scalarRight : Scalar (evalExpr H row right).intoValue) :
    Coherent H row left right ↔
      isNumeral H (evalExpr H row left).intoValue (evalExpr H row right).intoValue = false := by
  rw [← jsonEq_iff_cmpJson_iff numeric scalarLeft scalarRight]
  constructor
  · exact Coherent.agree
  · intro agree
    have decides : jsonEq H (evalExpr H row left).intoValue (evalExpr H row right).intoValue =
        (cmpVals H (evalExpr H row left) (evalExpr H row right) == .eq) := by
      rw [Bool.eq_iff_iff, agree, beq_iff_eq]
      rfl
    refine ⟨?_, ?_, agree⟩
    · simp only [holds, evalExpr, evalBinary, EvalResult.asBool, decides]
      cases cmpVals H (evalExpr H row left) (evalExpr H row right) <;> decide
    · simp only [holds, evalExpr, evalBinary, EvalResult.asBool, decides]
      cases cmpVals H (evalExpr H row left) (evalExpr H row right) <;> rfl

theorem integerHost_numeric : SelectExec.integerHost.Numeric (fun n : Int => n) where
  finite n := ⟨n, rfl⟩
  compares m n x y ofM ofN := by
    cases ofM
    cases ofN
    rfl
  equates m n x y ofM ofN := by
    cases ofM
    cases ofN
    exact beq_iff_eq
  printed n := by
    obtain ⟨c, rest, chars, lead⟩ := Json.printInt_eq_cons n
    exact ⟨c, rest, (Json.toList_toString_int n).trans chars, lead⟩

theorem string_and_number_coherent :
    let row : Row Int := .ofList [("a", .string "12"), ("b", .number 2)]
    holds SelectExec.integerHost row (.binaryOp (.identifier "a") .lt (.identifier "b")) = true ∧
      Coherent SelectExec.integerHost row (.identifier "a") (.identifier "b") := by
  intro row
  exact ⟨by decide +kernel, (coherent_iff integerHost_numeric row (.identifier "a") (.identifier "b")
    (by decide +kernel) (by decide +kernel)).mpr (by decide +kernel)⟩

theorem numeral_less_and_equal :
    let row : Row Int := .ofList [("a", .string "1"), ("b", .number 1)]
    ¬ Coherent SelectExec.integerHost row (.identifier "a") (.identifier "b") := by
  intro row coherent
  exact absurd coherent.trichotomy (by decide +kernel)

end Eval
end WowDb.Query

namespace WowDb.Query.SelectExec
open WowDb.Lib Eval Std List

variable {ν φ κ : Type} [LinearOrder κ] {value : ν → κ} (H : Host ν φ)

def keyCmp (key : Nat × Bool) (a b : List (Value ν)) : Ordering :=
  let ord := cmpJson H ((a[key.1]?).getD .null) ((b[key.1]?).getD .null)
  if key.2 then ord else ord.swap

def outputKeys (columns : List String) (orderBy : List OrderByExpr) : List (Nat × Bool) :=
  orderBy.filterMap fun ob => (orderIndex H columns ob.expr).map (·, ob.asc.getD true)

variable (keys : List (Nat × Bool))

def sortRows (rows : List (List (Value ν))) : List (List (Value ν)) :=
  keys.foldr (fun key rows => rows.insertionSort (orderBefore H key.1 key.2)) rows

theorem applyOrderBy_eq (orderBy : List OrderByExpr) (r : SelectResult ν) :
    applyOrderBy H orderBy r =
      { r with rows := sortRows H (outputKeys H r.columns orderBy) r.rows } := by
  unfold applyOrderBy
  rw [foldl_reverse]
  induction orderBy with
  | nil => rfl
  | cons ob rest ih =>
    rw [foldr_cons, ih]
    cases found : orderIndex H r.columns ob.expr with
    | none => simp [outputKeys, found]
    | some idx => simp [outputKeys, found, sortRows]

def rowKey (value : ν → κ) (idx : Nat) (row : List (Value ν)) : ℕ ×ₗ (WithBot κ ×ₗ String) :=
  ((row[idx]?).getD .null).orderKey value

def linearCmp (value : ν → κ) (key : Nat × Bool) (a b : List (Value ν)) : Ordering :=
  if key.2 then compare (rowKey value key.1 a) (rowKey value key.1 b)
  else compare (rowKey value key.1 b) (rowKey value key.1 a)

theorem transCmp_linearCmp (value : ν → κ) (key : Nat × Bool) : TransCmp (linearCmp value key) := by
  obtain ⟨idx, asc⟩ := key
  cases asc with
  | true => exact inferInstanceAs (TransCmp (compareOn (rowKey value idx)))
  | false =>
    have up : TransCmp (compareOn (rowKey value idx)) := inferInstance
    have down : TransCmp fun a b => compareOn (rowKey value idx) b a := TransCmp.opposite
    exact down

def BracketedRow (row : List (Value ν)) : Prop := ∀ v ∈ row, v.Bracketed

instance (row : List (Value ν)) : Decidable (BracketedRow row) := by
  unfold BracketedRow
  infer_instance

theorem BracketedRow.getD {row : List (Value ν)} (bracketed : BracketedRow row) (idx : Nat) :
    ((row[idx]?).getD .null).Bracketed := by
  cases found : row[idx]? with
  | none => trivial
  | some v => exact bracketed v (mem_of_getElem? found)

variable {H}

variable {a b : List (Value ν)}

theorem keyCmp_eq (numeric : H.Numeric value) (key : Nat × Bool)
    (bracketedA : BracketedRow a) (bracketedB : BracketedRow b) :
    keyCmp H key a b = linearCmp value key a b := by
  unfold keyCmp linearCmp rowKey
  rw [cmpJson_eq_compare numeric (bracketedA.getD key.1) (bracketedB.getD key.1)]
  cases key.2 with
  | true => rfl
  | false => exact OrientedCmp.eq_swap.symm

theorem inTurn_keyCmp (numeric : H.Numeric value) (keys : List (Nat × Bool))
    (bracketedA : BracketedRow a) (bracketedB : BracketedRow b) :
    inTurn (keys.map (keyCmp H)) a b = inTurn (keys.map (linearCmp value)) a b := by
  induction keys with
  | nil => rfl
  | cons key rest ih =>
    simp only [map_cons, inTurn, compareLex, ih, keyCmp_eq numeric key bracketedA bracketedB]

theorem sortRows_perm (rows : List (List (Value ν))) : (sortRows H keys rows).Perm rows := by
  induction keys with
  | nil => exact List.Perm.refl _
  | cons key rest ih => exact (perm_insertionSort _ _).trans ih

theorem sortRows_eq (numeric : H.Numeric value) (keys : List (Nat × Bool))
    {rows : List (List (Value ν))} (bracketed : ∀ row ∈ rows, BracketedRow row) :
    sortRows H keys rows =
      (keys.map (linearCmp value)).foldr (fun cmp ys => ys.insertionSort (cmp · · ≠ .gt)) rows := by
  induction keys with
  | nil => rfl
  | cons key rest ih =>
    rw [map_cons, foldr_cons, ← ih]
    refine insertionSort_congr fun a inA b inB => ?_
    have memberA := bracketed a ((sortRows_perm rest rows).mem_iff.mp inA)
    have memberB := bracketed b ((sortRows_perm rest rows).mem_iff.mp inB)
    rw [← keyCmp_eq numeric key memberA memberB]
    rfl

structure TotalPreorder (H : Host ν φ) : Prop where
  refl : ∀ a : Value ν, a.Bracketed → cmpJson H a a = .eq
  swap : ∀ a b : Value ν, a.Bracketed → b.Bracketed → cmpJson H b a = (cmpJson H a b).swap
  trans : ∀ a b c : Value ν, a.Bracketed → b.Bracketed → c.Bracketed →
    cmpJson H a b ≠ .gt → cmpJson H b c ≠ .gt → cmpJson H a c ≠ .gt

theorem totalPreorder (numeric : H.Numeric value) : TotalPreorder H where
  refl a bracketed := by
    rw [cmpJson_eq_compare numeric bracketed bracketed]
    exact ReflCmp.compare_self
  swap a b bracketedA bracketedB := by
    rw [cmpJson_eq_compare numeric bracketedB bracketedA,
      cmpJson_eq_compare numeric bracketedA bracketedB]
    exact OrientedCmp.eq_swap
  trans a b c bracketedA bracketedB bracketedC := by
    rw [cmpJson_eq_compare numeric bracketedA bracketedB,
      cmpJson_eq_compare numeric bracketedB bracketedC,
      cmpJson_eq_compare numeric bracketedA bracketedC]
    exact ne_gt_trans

/-- ORDER BY is a stable sort by its keys in turn. -/
theorem order_by_sorts (numeric : H.Numeric value) :
    TotalPreorder H ∧ ∀ (orderBy : List OrderByExpr) (r : SelectResult ν),
      (∀ row ∈ r.rows, BracketedRow row) →
      (applyOrderBy H orderBy r).columns = r.columns ∧
        StablyOrdered (inTurn ((outputKeys H r.columns orderBy).map (keyCmp H))) r.rows
          (applyOrderBy H orderBy r).rows := by
  refine ⟨totalPreorder numeric, fun orderBy r bracketed => ?_⟩
  rw [applyOrderBy_eq]
  refine ⟨rfl, ?_⟩
  generalize outputKeys H r.columns orderBy = keys
  have each : ∀ cmp ∈ keys.map (linearCmp value), TransCmp cmp :=
    forall_mem_map.mpr fun key _ => transCmp_linearCmp value key
  have sorted := stablyOrdered_inTurn each r.rows
  rw [← sortRows_eq numeric keys bracketed] at sorted
  refine sorted.congr fun a inA b inB => ?_
  exact (inTurn_keyCmp numeric keys (bracketed a inA) (bracketed b inB)).symm

theorem mixed_rows_sorted :
    let rows : List (List (Value Int)) := [[.number 2, .string "a"], [.json "[1]", .bool true],
      [.null, .string "a"], [.number 10, .bool true], [.string "9", .null]]
    let orderBy : List OrderByExpr := [⟨.identifier "y", some false⟩, ⟨.identifier "x", none⟩]
    (applyOrderBy integerHost orderBy ⟨["x", "y"], rows⟩).rows =
        [[.number 10, .bool true], [.json "[1]", .bool true], [.null, .string "a"],
          [.number 2, .string "a"], [.string "9", .null]] ∧
      StablyOrdered (inTurn ((outputKeys integerHost ["x", "y"] orderBy).map (keyCmp integerHost)))
        rows (applyOrderBy integerHost orderBy ⟨["x", "y"], rows⟩).rows := by
  intro rows orderBy
  exact ⟨by decide +kernel,
    ((order_by_sorts integerHost_numeric).2 orderBy ⟨["x", "y"], rows⟩ (by decide +kernel)).2⟩

end WowDb.Query.SelectExec
