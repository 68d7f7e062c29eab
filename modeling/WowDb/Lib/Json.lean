import WowDb.Lib.Run

/-!
# JSON text

Values, the compact printer and a reader, as `serde_json` writes and reads them.
-/
namespace WowDb.Lib
open List

inductive Json where
  | null
  | bool (b : Bool)
  | num (n : Int)
  | str (s : List Char)
  | arr (items : List Json)
  | obj (fields : List (List Char × Json))

namespace Json

def hexDigit (n : Nat) : Char := if n < 10 then Char.ofNat (48 + n) else Char.ofNat (87 + n)

def shortEscape (c : Char) : Option Char :=
  if c = '"' then some '"'
  else if c = '\\' then some '\\'
  else if c = '\n' then some 'n'
  else if c = '\r' then some 'r'
  else if c = '\t' then some 't'
  else if c = Char.ofNat 8 then some 'b'
  else if c = Char.ofNat 12 then some 'f'
  else none

def escapeChar (c : Char) : List Char :=
  match shortEscape c with
  | some e => ['\\', e]
  | none =>
    if c.toNat < 32 then
      ['\\', 'u', '0', '0', hexDigit (c.toNat / 16), hexDigit (c.toNat % 16)]
    else [c]

def quote (s : List Char) : List Char := '"' :: (s.flatMap escapeChar ++ ['"'])

def printInt (n : Int) : List Char :=
  if n < 0 then '-' :: Nat.toDigits 10 n.natAbs else Nat.toDigits 10 n.natAbs

mutual
def print : Json → List Char
  | .null => ['n', 'u', 'l', 'l']
  | .bool true => ['t', 'r', 'u', 'e']
  | .bool false => ['f', 'a', 'l', 's', 'e']
  | .num n => printInt n
  | .str s => quote s
  | .arr [] => ['[', ']']
  | .arr (v :: rest) => '[' :: (print v ++ printItems rest)
  | .obj [] => ['{', '}']
  | .obj ((k, v) :: rest) => '{' :: (quote k ++ ':' :: (print v ++ printFields rest))

def printItems : List Json → List Char
  | [] => [']']
  | v :: rest => ',' :: (print v ++ printItems rest)

def printFields : List (List Char × Json) → List Char
  | [] => ['}']
  | (k, v) :: rest => ',' :: (quote k ++ ':' :: (print v ++ printFields rest))
end

def isSpace (c : Char) : Bool := c = ' ' || c = '\n' || c = '\r' || c = '\t'

def skipSpace (text : List Char) : List Char := text.dropWhile isSpace

def hexValue (c : Char) : Option Nat :=
  if '0' ≤ c ∧ c ≤ '9' then some (c.toNat - 48)
  else if 'a' ≤ c ∧ c ≤ 'f' then some (c.toNat - 87)
  else if 'A' ≤ c ∧ c ≤ 'F' then some (c.toNat - 55)
  else none

def unicodeEscape (a b c d : Char) : Option Char := do
  let n := (← hexValue a) * 4096 + (← hexValue b) * 256 + (← hexValue c) * 16 + (← hexValue d)
  if n < 0xd800 ∨ 0xe000 ≤ n then some (Char.ofNat n) else none

def simpleEscape (c : Char) : Option Char :=
  if c = '"' then some '"'
  else if c = '\\' then some '\\'
  else if c = '/' then some '/'
  else if c = 'n' then some '\n'
  else if c = 'r' then some '\r'
  else if c = 't' then some '\t'
  else if c = 'b' then some (Char.ofNat 8)
  else if c = 'f' then some (Char.ofNat 12)
  else none

def unquote : List Char → Option (List Char × List Char)
  | [] => none
  | '"' :: rest => some ([], rest)
  | '\\' :: 'u' :: a :: b :: c :: d :: rest =>
    match unicodeEscape a b c d, unquote rest with
    | some ch, some (s, after) => some (ch :: s, after)
    | _, _ => none
  | '\\' :: e :: rest =>
    match simpleEscape e, unquote rest with
    | some ch, some (s, after) => some (ch :: s, after)
    | _, _ => none
  | c :: rest =>
    if c.toNat < 32 then none
    else
      match unquote rest with
      | some (s, after) => some (c :: s, after)
      | none => none

def readNat (text : List Char) : Option (Nat × List Char) :=
  let digits := text.takeWhile Char.isDigit
  if digits = [] then none
  else some (Nat.ofDigitChars 10 digits 0, text.dropWhile Char.isDigit)

def readInt : List Char → Option (Int × List Char)
  | '-' :: rest => (readNat rest).map fun p => (-(p.1 : Int), p.2)
  | text => (readNat text).map fun p => ((p.1 : Int), p.2)

mutual
def parseValue : Nat → List Char → Option (Json × List Char)
  | 0, _ => none
  | fuel + 1, text =>
    match skipSpace text with
    | 'n' :: 'u' :: 'l' :: 'l' :: rest => some (.null, rest)
    | 't' :: 'r' :: 'u' :: 'e' :: rest => some (.bool true, rest)
    | 'f' :: 'a' :: 'l' :: 's' :: 'e' :: rest => some (.bool false, rest)
    | '"' :: rest => (unquote rest).map fun p => (.str p.1, p.2)
    | '[' :: rest =>
      if (skipSpace rest).head? = some ']' then some (.arr [], (skipSpace rest).tail)
      else
        match parseValue fuel rest with
        | none => none
        | some (v, rest) => (parseItems fuel rest).map fun p => (.arr (v :: p.1), p.2)
    | '{' :: rest =>
      if (skipSpace rest).head? = some '}' then some (.obj [], (skipSpace rest).tail)
      else
        match parseField fuel rest with
        | none => none
        | some (kv, rest) => (parseFields fuel rest).map fun p => (.obj (kv :: p.1), p.2)
    | rest => (readInt rest).map fun p => (.num p.1, p.2)

def parseItems : Nat → List Char → Option (List Json × List Char)
  | 0, _ => none
  | fuel + 1, text =>
    match skipSpace text with
    | ']' :: rest => some ([], rest)
    | ',' :: rest =>
      match parseValue fuel rest with
      | none => none
      | some (v, rest) => (parseItems fuel rest).map fun p => (v :: p.1, p.2)
    | _ => none

def parseField : Nat → List Char → Option ((List Char × Json) × List Char)
  | 0, _ => none
  | fuel + 1, text =>
    match skipSpace text with
    | '"' :: rest =>
      match unquote rest with
      | none => none
      | some (k, rest) =>
        match skipSpace rest with
        | ':' :: rest => (parseValue fuel rest).map fun p => ((k, p.1), p.2)
        | _ => none
    | _ => none

def parseFields : Nat → List Char → Option (List (List Char × Json) × List Char)
  | 0, _ => none
  | fuel + 1, text =>
    match skipSpace text with
    | '}' :: rest => some ([], rest)
    | ',' :: rest =>
      match parseField fuel rest with
      | none => none
      | some (kv, rest) => (parseFields fuel rest).map fun p => (kv :: p.1, p.2)
    | _ => none
end

def parse (text : List Char) : Option Json :=
  match parseValue (2 * text.length + 1) text with
  | some (v, rest) => if skipSpace rest = [] then some v else none
  | none => none

theorem hexValue_hexDigit {n : Nat} (h : n < 16) : hexValue (hexDigit n) = some n := by
  revert n
  decide

variable {c : Char}

theorem unicodeEscape_control (h : c.toNat < 32) :
    unicodeEscape '0' '0' (hexDigit (c.toNat / 16)) (hexDigit (c.toNat % 16)) = some c := by
  have hz : hexValue '0' = some 0 := by decide
  have hhi := hexValue_hexDigit (show c.toNat / 16 < 16 by omega)
  have hlo := hexValue_hexDigit (show c.toNat % 16 < 16 by omega)
  have hn : 0 * 4096 + 0 * 256 + c.toNat / 16 * 16 + c.toNat % 16 = c.toNat := by omega
  simp only [unicodeEscape, hz, hhi, hlo, bind, Option.bind, hn]
  rw [if_pos (Or.inl (by omega)), Char.ofNat_toNat]

theorem simpleEscape_of_shortEscape {e : Char} (h : shortEscape c = some e) :
    simpleEscape e = some c ∧ e ≠ 'u' := by
  unfold shortEscape at h
  repeat' split at h
  all_goals cases h
  all_goals
    subst c
    decide

theorem shortEscape_of_special (h : c = '"' ∨ c = '\\') : shortEscape c ≠ none := by
  rcases h with rfl | rfl <;> decide

theorem unquote_escapeChar (c : Char) {text s after : List Char}
    (h : unquote text = some (s, after)) :
    unquote (escapeChar c ++ text) = some (c :: s, after) := by
  unfold escapeChar
  cases he : shortEscape c with
  | some e =>
    obtain ⟨hsimple, hu⟩ := simpleEscape_of_shortEscape he
    simp only [cons_append, nil_append]
    rw [unquote.eq_4 _ _ (by simp [hu])]
    simp [hsimple, h]
  | none =>
    dsimp only
    split
    · rename_i hctl
      simp [unquote, unicodeEscape_control hctl, h]
    · rename_i hctl
      have hquote : c ≠ '"' := fun hc => shortEscape_of_special (Or.inl hc) he
      have hslash : c ≠ '\\' := fun hc => shortEscape_of_special (Or.inr hc) he
      simp only [cons_append, nil_append]
      rw [unquote.eq_5]
      · simp [hctl, h]
      all_goals simp [hquote, hslash]

theorem unquote_quoted (s rest : List Char) :
    unquote (s.flatMap escapeChar ++ '"' :: rest) = some (s, rest) := by
  induction s with
  | nil => simp [unquote]
  | cons c s ih =>
    rw [flatMap_cons, append_assoc]
    exact unquote_escapeChar c ih

theorem quote_injective {s t : List Char} (same : quote s = quote t) : s = t := by
  have left := unquote_quoted s []
  have right := unquote_quoted t []
  simp only [quote, cons.injEq, true_and] at same
  rw [append_cancel_right same, right] at left
  simpa using left.symm

def NoDigit (rest : List Char) : Prop := ∀ c ∈ rest.head?, c.isDigit = false

variable {rest : List Char}

theorem noDigit_cons (h : c.isDigit = false) : NoDigit (c :: rest) := by
  intro d hd
  simp only [head?_cons, Option.mem_some_iff] at hd
  subst hd
  exact h

theorem takeWhile_isDigit_of_noDigit (h : NoDigit rest) :
    rest.takeWhile Char.isDigit = [] ∧ rest.dropWhile Char.isDigit = rest := by
  cases rest with
  | nil => exact ⟨rfl, rfl⟩
  | cons c rest =>
    have hc := h c (by simp)
    simp [hc]

theorem readNat_toDigits (n : Nat) (h : NoDigit rest) :
    readNat (Nat.toDigits 10 n ++ rest) = some (n, rest) := by
  have hdig : ∀ c ∈ Nat.toDigits 10 n, c.isDigit = true := fun c hc =>
    Nat.isDigit_of_mem_toDigits (by decide) (by decide) hc
  obtain ⟨htake, hdrop⟩ := takeWhile_isDigit_of_noDigit h
  unfold readNat
  rw [takeWhile_append_of_pos hdig, dropWhile_append_of_pos hdig, htake, hdrop,
    append_nil]
  simp [Nat.toDigits_ne_nil, Nat.ofDigitChars_ten_toDigits]

theorem toDigits_eq_cons (n : Nat) : ∃ c rest, Nat.toDigits 10 n = c :: rest ∧ c.isDigit = true := by
  cases hd : Nat.toDigits 10 n with
  | nil => exact absurd hd Nat.toDigits_ne_nil
  | cons c rest =>
    refine ⟨c, rest, rfl, ?_⟩
    exact Nat.isDigit_of_mem_toDigits (b := 10) (n := n) (by decide) (by decide) (by simp [hd])

theorem readInt_printInt (n : Int) (h : NoDigit rest) :
    readInt (printInt n ++ rest) = some (n, rest) := by
  have hnat := readNat_toDigits n.natAbs h
  unfold printInt
  split
  · rename_i hneg
    simp only [cons_append, readInt, hnat, Option.map_some, Option.some.injEq, Prod.mk.injEq,
      and_true]
    omega
  · rename_i hpos
    obtain ⟨c, tail, htext, hc⟩ := toDigits_eq_cons n.natAbs
    have hminus : c ≠ '-' := by
      rintro rfl
      exact absurd hc (by decide)
    rw [htext, cons_append] at hnat ⊢
    rw [readInt.eq_2 _ (by simp [hminus]), hnat]
    simp only [Option.map_some, Option.some.injEq, Prod.mk.injEq, and_true]
    omega

theorem printInt_injective {m n : Int} (same : printInt m = printInt n) : m = n := by
  have ended : NoDigit [] := by simp [NoDigit]
  have first := readInt_printInt m ended
  have second := readInt_printInt n ended
  rw [same, second] at first
  simpa using first.symm

theorem mem_printInt {n : Int} (member : c ∈ printInt n) : c = '-' ∨ c.isDigit = true := by
  have digits : ∀ d ∈ Nat.toDigits 10 n.natAbs, d.isDigit = true := fun d inDigits =>
    Nat.isDigit_of_mem_toDigits (by decide) (by decide) inDigits
  unfold printInt at member
  split at member
  · exact (mem_cons.mp member).imp id (digits c)
  · exact .inr (digits c member)

theorem printInt_eq_cons (n : Int) :
    ∃ c rest, printInt n = c :: rest ∧ (c = '-' ∨ c.isDigit = true) := by
  have nonempty : printInt n ≠ [] := by
    obtain ⟨c, rest, digits, -⟩ := toDigits_eq_cons n.natAbs
    unfold printInt
    split <;> simp [digits]
  obtain ⟨c, rest, chars⟩ := exists_cons_of_ne_nil nonempty
  exact ⟨c, rest, chars, mem_printInt (chars ▸ mem_cons_self)⟩

theorem toList_toString_int (n : Int) : (toString n).toList = printInt n := by
  cases n with
  | ofNat k => exact Nat.toList_repr
  | negSucc k =>
    have digits : (k + 1).repr.toList = Nat.toDigits 10 (k + 1) := Nat.toList_repr
    have signed : (toString (Int.negSucc k)).toList = '-' :: (k + 1).repr.toList :=
      String.toList_append
    rw [signed, digits, printInt, if_pos (Int.negSucc_lt_zero k), Int.natAbs_negSucc]

theorem print_head (v : Json) : ∃ c rest, print v = c :: rest ∧ isSpace c = false ∧
    c ≠ ']' ∧ c ≠ '}' := by
  cases v with
  | null => exact ⟨_, _, by rw [print], by decide⟩
  | bool b => cases b <;> exact ⟨_, _, by rw [print], by decide⟩
  | num n =>
    rw [print, printInt]
    split
    · exact ⟨_, _, rfl, by decide⟩
    · obtain ⟨c, rest, htext, hc⟩ := toDigits_eq_cons n.natAbs
      refine ⟨c, rest, htext, ?_, ?_, ?_⟩
      · by_contra hs
        simp only [isSpace, Bool.or_eq_true, decide_eq_true_eq, Bool.not_eq_false] at hs
        rcases hs with ((rfl | rfl) | rfl) | rfl <;> exact absurd hc (by decide)
      · rintro rfl
        exact absurd hc (by decide)
      · rintro rfl
        exact absurd hc (by decide)
  | str s => exact ⟨_, _, by rw [print, quote], by decide⟩
  | arr items => cases items <;> exact ⟨_, _, by rw [print], by decide⟩
  | obj fields =>
    cases fields with
    | nil => exact ⟨_, _, by rw [print], by decide⟩
    | cons kv rest => exact ⟨_, _, by rw [print], by decide⟩

theorem skipSpace_cons (rest : List Char) (h : isSpace c = false) :
    skipSpace (c :: rest) = c :: rest := by
  simp [skipSpace, h]

theorem skipSpace_print (v : Json) (rest : List Char) :
    skipSpace (print v ++ rest) = print v ++ rest := by
  obtain ⟨c, tail, htext, hspace, _, _⟩ := print_head v
  rw [htext, cons_append, skipSpace_cons _ hspace]

mutual
def size : Json → Nat
  | .null | .bool _ | .num _ | .str _ => 1
  | .arr [] => 1
  | .arr (v :: rest) => 1 + size v + sizeItems rest
  | .obj [] => 1
  | .obj ((_, v) :: rest) => 2 + size v + sizeFields rest

def sizeItems : List Json → Nat
  | [] => 1
  | v :: rest => 1 + size v + sizeItems rest

def sizeFields : List (List Char × Json) → Nat
  | [] => 1
  | (_, v) :: rest => 2 + size v + sizeFields rest
end

theorem parseField_print (k : List Char) (v : Json) (fuel : Nat) (rest : List Char)
    (h : parseValue fuel (print v ++ rest) = some (v, rest)) :
    parseField (fuel + 1) (quote k ++ ':' :: (print v ++ rest)) = some ((k, v), rest) := by
  have hq : quote k ++ ':' :: (print v ++ rest) =
      '"' :: (k.flatMap escapeChar ++ '"' :: (':' :: (print v ++ rest))) := by
    simp [quote]
  have hspace : skipSpace (':' :: (print v ++ rest)) = ':' :: (print v ++ rest) :=
    skipSpace_cons _ (by decide)
  rw [hq, parseField, skipSpace_cons _ (by decide)]
  simp only [unquote_quoted, hspace, h, Option.map_some]

theorem noDigit_printItems (vs : List Json) (rest : List Char) :
    NoDigit (printItems vs ++ rest) := by
  cases vs <;> rw [printItems] <;> exact noDigit_cons (by decide)

theorem noDigit_printFields (fs : List (List Char × Json)) (rest : List Char) :
    NoDigit (printFields fs ++ rest) := by
  cases fs <;> rw [printFields] <;> exact noDigit_cons (by decide)

theorem parseValue_num (n : Int) (fuel : Nat) (h : NoDigit rest) :
    parseValue (fuel + 1) (printInt n ++ rest) = some (.num n, rest) := by
  have hread := readInt_printInt n h
  have hspace : skipSpace (printInt n ++ rest) = printInt n ++ rest := by
    simpa only [print] using skipSpace_print (.num n) rest
  obtain ⟨c, tail, htext, hc⟩ : ∃ c tail, printInt n = c :: tail ∧ (c = '-' ∨ c.isDigit = true) := by
    unfold printInt
    split
    · exact ⟨_, _, rfl, Or.inl rfl⟩
    · obtain ⟨c, tail, htext, hc⟩ := toDigits_eq_cons n.natAbs
      exact ⟨c, tail, htext, Or.inr hc⟩
  -- the literal patterns of the reader start with no character of a number
  have hother : ∀ d : Char, d ≠ '-' → d.isDigit = false → c ≠ d := by
    rintro d hd hdig rfl
    rcases hc with rfl | hc
    · exact hd rfl
    · simp [hdig] at hc
  rw [parseValue, hspace, htext, cons_append]
  rw [htext, cons_append] at hread
  split
  all_goals
    first
    | (rename_i heq; exact absurd (cons.inj heq).1 (hother _ (by decide) (by decide)))
    | simp [hread]

mutual
theorem parseValue_print : ∀ (v : Json) (fuel : Nat) (rest : List Char), size v ≤ fuel →
    NoDigit rest → parseValue fuel (print v ++ rest) = some (v, rest)
  | v, 0, rest, hf, _ => by
    cases v with
    | arr items => cases items <;> simp [size] at hf
    | obj fields => rcases fields with _ | ⟨⟨k, v⟩, fields⟩ <;> simp [size] at hf
    | _ => simp [size] at hf
  | .null, fuel + 1, rest, _, _ => by simp [print, parseValue, skipSpace, isSpace]
  | .bool true, fuel + 1, rest, _, _ => by simp [print, parseValue, skipSpace, isSpace]
  | .bool false, fuel + 1, rest, _, _ => by simp [print, parseValue, skipSpace, isSpace]
  | .num n, fuel + 1, rest, _, hr => by
    rw [print]
    exact parseValue_num n fuel hr
  | .str s, fuel + 1, rest, _, _ => by
    have hq : quote s ++ rest = '"' :: (s.flatMap escapeChar ++ '"' :: rest) := by simp [quote]
    rw [print, hq, parseValue, skipSpace_cons _ (by decide)]
    simp only [unquote_quoted, Option.map_some]
  | .arr [], fuel + 1, rest, _, _ => by simp [print, parseValue, skipSpace, isSpace]
  | .arr (v :: items), fuel + 1, rest, hf, hr => by
    rw [size] at hf
    have hv := parseValue_print v fuel (printItems items ++ rest) (by omega)
      (noDigit_printItems items rest)
    have hi := parseItems_print items fuel rest (by omega)
    obtain ⟨c, tail, htext, _, hclose, _⟩ := print_head v
    have hne : (skipSpace (print v ++ (printItems items ++ rest))).head? ≠ some ']' := by
      rw [skipSpace_print, htext]
      simpa using hclose
    rw [print, cons_append, append_assoc, parseValue, skipSpace_cons _ (by decide)]
    simp only [hne, if_false, hv, hi, Option.map_some]
  | .obj [], fuel + 1, rest, _, _ => by simp [print, parseValue, skipSpace, isSpace]
  | .obj ((k, v) :: fields), fuel + 1, rest, hf, hr => by
    rw [size] at hf
    obtain ⟨fuel, rfl⟩ : ∃ f, fuel = f + 1 := ⟨fuel - 1, by omega⟩
    have hv := parseValue_print v fuel (printFields fields ++ rest) (by omega)
      (noDigit_printFields fields rest)
    have hk := parseField_print k v fuel (printFields fields ++ rest) hv
    have hi := parseFields_print fields (fuel + 1) rest (by omega)
    have htext : print (.obj ((k, v) :: fields)) ++ rest =
        '{' :: (quote k ++ ':' :: (print v ++ (printFields fields ++ rest))) := by
      rw [print]
      simp
    have hne : (skipSpace (quote k ++ ':' :: (print v ++ (printFields fields ++ rest)))).head? ≠
        some '}' := by
      simp [quote, skipSpace, isSpace]
    rw [htext, parseValue, skipSpace_cons _ (by decide)]
    simp only [hne, if_false, hk, hi, Option.map_some]

theorem parseItems_print : ∀ (vs : List Json) (fuel : Nat) (rest : List Char),
    sizeItems vs ≤ fuel → parseItems fuel (printItems vs ++ rest) = some (vs, rest)
  | vs, 0, rest, hf => by cases vs <;> simp [sizeItems] at hf
  | [], fuel + 1, rest, _ => by simp [printItems, parseItems, skipSpace, isSpace]
  | v :: vs, fuel + 1, rest, hf => by
    rw [sizeItems] at hf
    have hv := parseValue_print v fuel (printItems vs ++ rest) (by omega)
      (noDigit_printItems vs rest)
    have hi := parseItems_print vs fuel rest (by omega)
    rw [printItems, cons_append, append_assoc, parseItems, skipSpace_cons _ (by decide)]
    simp only [hv, hi, Option.map_some]

theorem parseFields_print : ∀ (fs : List (List Char × Json)) (fuel : Nat) (rest : List Char),
    sizeFields fs ≤ fuel → parseFields fuel (printFields fs ++ rest) = some (fs, rest)
  | fs, 0, rest, hf => by rcases fs with _ | ⟨⟨k, v⟩, fs⟩ <;> simp [sizeFields] at hf
  | [], fuel + 1, rest, _ => by simp [printFields, parseFields, skipSpace, isSpace]
  | (k, v) :: fs, fuel + 1, rest, hf => by
    rw [sizeFields] at hf
    obtain ⟨fuel, rfl⟩ : ∃ f, fuel = f + 1 := ⟨fuel - 1, by omega⟩
    have hv := parseValue_print v fuel (printFields fs ++ rest) (by omega)
      (noDigit_printFields fs rest)
    have hk := parseField_print k v fuel (printFields fs ++ rest) hv
    have hi := parseFields_print fs (fuel + 1) rest (by omega)
    have htext : printFields ((k, v) :: fs) ++ rest =
        ',' :: (quote k ++ ':' :: (print v ++ (printFields fs ++ rest))) := by
      rw [printFields]
      simp
    rw [htext, parseFields, skipSpace_cons _ (by decide)]
    simp only [hk, hi, Option.map_some]
end

mutual
theorem size_le_print : ∀ v : Json, size v ≤ 2 * (print v).length
  | .null | .bool true | .bool false => by simp [size, print]
  | .num n => by
    obtain ⟨c, rest, htext, _⟩ := print_head (.num n)
    simp [size, htext]
    omega
  | .str s => by
    simp only [size, print, quote, length_cons]
    omega
  | .arr [] => by simp [size, print]
  | .arr (v :: items) => by
    have hv := size_le_print v
    have hi := sizeItems_le_print items
    simp only [size, print, length_cons, length_append]
    omega
  | .obj [] => by simp [size, print]
  | .obj ((k, v) :: fields) => by
    have hv := size_le_print v
    have hi := sizeFields_le_print fields
    simp only [size, print, length_cons, length_append]
    omega

theorem sizeItems_le_print : ∀ vs : List Json, sizeItems vs ≤ 2 * (printItems vs).length
  | [] => by simp [sizeItems, printItems]
  | v :: vs => by
    have hv := size_le_print v
    have hi := sizeItems_le_print vs
    simp only [sizeItems, printItems, length_cons, length_append]
    omega

theorem sizeFields_le_print : ∀ fs : List (List Char × Json),
    sizeFields fs ≤ 2 * (printFields fs).length
  | [] => by simp [sizeFields, printFields]
  | (k, v) :: fs => by
    have hv := size_le_print v
    have hi := sizeFields_le_print fs
    simp only [sizeFields, printFields, length_cons, length_append]
    omega
end

theorem parse_print (v : Json) : parse (print v) = some v := by
  have hsize := size_le_print v
  have hend : NoDigit [] := by simp [NoDigit]
  have h := parseValue_print v (2 * (print v).length + 1) [] (by omega) hend
  rw [append_nil] at h
  simp [parse, h, skipSpace]

theorem escapeChar_printable (c : Char) : ∀ d ∈ escapeChar c, 32 ≤ d.toNat := by
  intro d hd
  unfold escapeChar at hd
  cases he : shortEscape c with
  | some e =>
    have hletter : 32 ≤ e.toNat := by
      unfold shortEscape at he
      repeat' split at he
      all_goals cases he
      all_goals decide
    simp only [he, mem_cons, not_mem_nil, or_false] at hd
    rcases hd with rfl | rfl
    · decide
    · exact hletter
  | none =>
    simp only [he] at hd
    split at hd
    · rename_i hctl
      have hhex : ∀ n < 16, 32 ≤ (hexDigit n).toNat := by decide
      simp only [mem_cons, not_mem_nil, or_false] at hd
      rcases hd with rfl | rfl | rfl | rfl | rfl | rfl
      · decide
      · decide
      · decide
      · decide
      · exact hhex _ (by omega)
      · exact hhex _ (by omega)
    · rename_i hctl
      simp only [mem_singleton] at hd
      subst hd
      omega

theorem quote_printable (s : List Char) : ∀ c ∈ quote s, 32 ≤ c.toNat := by
  intro c hc
  simp only [quote, mem_cons, mem_append, mem_flatMap, not_mem_nil,
    or_false] at hc
  rcases hc with rfl | ⟨d, _, hd⟩ | rfl
  · decide
  · exact escapeChar_printable d c hd
  · decide

theorem printInt_printable (n : Int) : ∀ c ∈ printInt n, 32 ≤ c.toNat := by
  have hdigits : ∀ c ∈ Nat.toDigits 10 n.natAbs, 32 ≤ c.toNat := by
    intro c hc
    have h := Nat.isDigit_of_mem_toDigits (by decide) (by decide) hc
    simp only [Char.isDigit, Bool.and_eq_true, decide_eq_true_eq] at h
    have h48 : 48 ≤ c.toNat := h.1
    omega
  intro c hc
  unfold printInt at hc
  split at hc
  · rcases mem_cons.mp hc with rfl | hc
    · decide
    · exact hdigits c hc
  · exact hdigits c hc

theorem printable_of_all {text : List Char} (h : text.all (32 ≤ ·.toNat) = true) :
    ∀ c ∈ text, 32 ≤ c.toNat := by
  intro c hc
  exact of_decide_eq_true (all_eq_true.mp h c hc)

mutual
theorem print_printable : ∀ (v : Json), ∀ c ∈ print v, 32 ≤ c.toNat
  | .null | .bool true | .bool false | .arr [] | .obj [] => by
    rw [print]
    exact printable_of_all (by decide)
  | .num n => by
    rw [print]
    exact printInt_printable n
  | .str s => by
    rw [print]
    exact quote_printable s
  | .arr (v :: items) => by
    intro c hc
    rw [print] at hc
    rcases mem_cons.mp hc with rfl | hc
    · decide
    · rcases mem_append.mp hc with hc | hc
      · exact print_printable v c hc
      · exact printItems_printable items c hc
  | .obj ((k, v) :: fields) => by
    intro c hc
    simp only [print, mem_cons, mem_append] at hc
    rcases hc with rfl | hc | rfl | hc | hc
    · decide
    · exact quote_printable k c hc
    · decide
    · exact print_printable v c hc
    · exact printFields_printable fields c hc

theorem printItems_printable : ∀ (vs : List Json), ∀ c ∈ printItems vs, 32 ≤ c.toNat
  | [] => by
    rw [printItems]
    exact printable_of_all (by decide)
  | v :: vs => by
    intro c hc
    simp only [printItems, mem_cons, mem_append] at hc
    rcases hc with rfl | hc | hc
    · decide
    · exact print_printable v c hc
    · exact printItems_printable vs c hc

theorem printFields_printable : ∀ (fs : List (List Char × Json)), ∀ c ∈ printFields fs, 32 ≤ c.toNat
  | [] => by
    rw [printFields]
    exact printable_of_all (by decide)
  | (k, v) :: fs => by
    intro c hc
    simp only [printFields, mem_cons, mem_append] at hc
    rcases hc with rfl | hc | rfl | hc | hc
    · decide
    · exact quote_printable k c hc
    · decide
    · exact print_printable v c hc
    · exact printFields_printable fs c hc
end

end Json
end WowDb.Lib

namespace WowDb.Lib.Json
open List

inductive Mode where
  | between | closed | inString | escape | hex (left : Nat)
  deriving DecidableEq

structure Place where
  depth : Nat
  mode : Mode
  deriving DecidableEq

def Place.leave (s : Place) : Option Place :=
  match s.depth with
  | 0 => none
  | d + 1 => some ⟨d, .between⟩

def scan (s : Place) (c : Char) : Option Place :=
  match s.mode with
  | .between =>
    if c = '{' ∨ c = '[' then some ⟨s.depth + 1, .between⟩
    else if c = '}' ∨ c = ']' then s.leave
    else if c = '"' then some ⟨s.depth, .inString⟩
    else some s
  | .closed =>
    if c = '}' ∨ c = ']' then s.leave
    else if c = ',' ∨ c = ':' then some ⟨s.depth, .between⟩
    else if isSpace c then some s
    else none
  | .inString =>
    if c = '"' then some ⟨s.depth, .closed⟩
    else if c = '\\' then some ⟨s.depth, .escape⟩
    else some s
  | .escape =>
    if c = 'u' then some ⟨s.depth, .hex 3⟩
    else if (simpleEscape c).isSome then some ⟨s.depth, .inString⟩
    else none
  | .hex left =>
    if (hexValue c).isSome then
      match left with
      | 0 => some ⟨s.depth, .inString⟩
      | left + 1 => some ⟨s.depth, .hex left⟩
    else none

def Mode.Settled (m : Mode) : Prop := m = .between ∨ m = .closed

inductive Keeps (n : Nat) : Place → Place → List Char → Prop where
  | nil {s : Place} (deep : n ≤ s.depth) : Keeps n s s []
  | cons {s t u : Place} {x : Char} {a : List Char} (deep : n ≤ s.depth) (step : scan s x = some t)
      (later : Keeps n t u a) : Keeps n s u (x :: a)

namespace Keeps

variable {n : Nat} {s t u : Place} {a b : List Char}

theorem append (first : Keeps n s t a) (second : Keeps n t u b) : Keeps n s u (a ++ b) := by
  induction first with
  | nil => exact second
  | cons deep step _ ih => exact .cons deep step (ih second)

theorem mono {m : Nat} (keeps : Keeps n s t a) (less : m ≤ n) : Keeps m s t a := by
  induction keeps with
  | nil deep => exact .nil (le_trans less deep)
  | cons deep step _ ih => exact .cons (le_trans less deep) step ih

theorem exec (keeps : Keeps n s t a) : Run.exec scan s a = some t := by
  induction keeps with
  | nil => rfl
  | cons _ step _ ih => rw [Run.exec, step, Option.bind_some, ih]

theorem front (keeps : Keeps n s u (a ++ b)) : ∃ t, Run.exec scan s a = some t ∧ n ≤ t.depth := by
  induction a generalizing s with
  | nil =>
    cases keeps with
    | nil deep => exact ⟨_, rfl, deep⟩
    | cons deep => exact ⟨s, rfl, deep⟩
  | cons x a ih =>
    cases keeps with
    | cons deep step later =>
      obtain ⟨t, ran, deep'⟩ := ih later
      exact ⟨t, by rw [Run.exec, step, Option.bind_some, ran], deep'⟩

end Keeps

/-- The scanner goes over what was read within its depth. -/
def Passes (d : Nat) (m m' : Mode) (text rest : List Char) : Prop :=
  ∃ used, text = used ++ rest ∧ Keeps d ⟨d, m⟩ ⟨d, m'⟩ used

variable {d : Nat} {m : Mode}

namespace Passes

variable {m' m'' : Mode} {a b c : List Char}

theorem refl (a : List Char) : Passes d m m a a := ⟨[], rfl, .nil le_rfl⟩

theorem trans (first : Passes d m m' a b) (second : Passes d m' m'' b c) : Passes d m m'' a c := by
  obtain ⟨x, rfl, keeps⟩ := first
  obtain ⟨y, rfl, keeps'⟩ := second
  exact ⟨x ++ y, (append_assoc x y c).symm, keeps.append keeps'⟩

theorem cons {x : Char} (step : scan ⟨d, m⟩ x = some ⟨d, m'⟩) (later : Passes d m' m'' a b) :
    Passes d m m'' (x :: a) b := by
  obtain ⟨used, rfl, keeps⟩ := later
  exact ⟨x :: used, rfl, .cons le_rfl step keeps⟩

theorem brackets {x y : Char} (enter : scan ⟨d, .between⟩ x = some ⟨d + 1, .between⟩)
    (leave : scan ⟨d + 1, m⟩ y = some ⟨d, .between⟩)
    (inner : Passes (d + 1) .between m a (y :: b)) : Passes d .between .between (x :: a) b := by
  obtain ⟨used, rfl, keeps⟩ := inner
  refine ⟨x :: (used ++ [y]), by simp, .cons le_rfl enter ?_⟩
  exact (keeps.mono (Nat.le_succ d)).append (.cons (Nat.le_succ d) leave (.nil le_rfl))

end Passes

theorem scan_space (settled : m.Settled) {c : Char} (space : isSpace c = true) :
    scan ⟨d, m⟩ c = some ⟨d, m⟩ := by
  have known : c = ' ' ∨ c = '\n' ∨ c = '\r' ∨ c = '\t' := by
    simpa [isSpace, or_assoc] using space
  rcases settled with rfl | rfl <;> rcases known with rfl | rfl | rfl | rfl <;> rfl

theorem scan_comma (settled : m.Settled) : scan ⟨d, m⟩ ',' = some ⟨d, .between⟩ := by
  rcases settled with rfl | rfl <;> rfl

theorem scan_closing (settled : m.Settled) {c : Char} (closing : c = '}' ∨ c = ']') :
    scan ⟨d + 1, m⟩ c = some ⟨d, .between⟩ := by
  rcases settled with rfl | rfl <;> rcases closing with rfl | rfl <;> rfl

variable {text rest : List Char}

theorem passes_skipSpace (settled : m.Settled) (found : skipSpace text = rest) :
    Passes d m m text rest := by
  subst found
  induction text with
  | nil => exact .refl _
  | cons c rest ih =>
    by_cases space : isSpace c = true
    · have skipped : skipSpace (c :: rest) = skipSpace rest := by simp [skipSpace, space]
      rw [skipped]
      exact .cons (scan_space settled space) ih
    · rw [skipSpace_cons rest (by simpa using space)]
      exact .refl _

theorem scan_digit {c : Char} (digit : c.isDigit = true) :
    scan ⟨d, .between⟩ c = some ⟨d, .between⟩ := by
  have other : ∀ x : Char, x.isDigit = false → c ≠ x := by
    rintro x no rfl
    rw [no] at digit
    cases digit
  simp [scan, other '{' (by decide), other '[' (by decide), other '}' (by decide),
    other ']' (by decide), other '"' (by decide)]

theorem passes_readNat {n : Nat} (read : readNat text = some (n, rest)) :
    Passes d .between .between text rest := by
  have digits : Passes d .between .between text (text.dropWhile Char.isDigit) := by
    clear read
    induction text with
    | nil => exact .refl _
    | cons c rest ih =>
      rw [dropWhile_cons]
      split
      · next digit => exact .cons (scan_digit digit) ih
      · exact .refl _
  unfold readNat at read
  simp only at read
  split at read
  · cases read
  · cases read
    exact digits

theorem passes_readInt {n : Int} (read : readInt text = some (n, rest)) :
    Passes d .between .between text rest := by
  unfold readInt at read
  split at read
  · obtain ⟨⟨m, after⟩, number, equal⟩ := Option.map_eq_some_iff.mp read
    cases equal
    exact .cons rfl (passes_readNat number)
  · obtain ⟨⟨m, after⟩, number, equal⟩ := Option.map_eq_some_iff.mp read
    cases equal
    exact passes_readNat number

theorem passes_unicodeEscape {a b c e ch : Char} (read : unicodeEscape a b c e = some ch)
    (later : Passes d .inString m text rest) :
    Passes d (.hex 3) m (a :: b :: c :: e :: text) rest := by
  simp only [unicodeEscape, Option.bind_eq_bind, Option.bind_eq_some_iff] at read
  obtain ⟨_, first, _, second, _, third, _, fourth, -⟩ := read
  have hex : ∀ {x : Char} {value left : Nat}, hexValue x = some value →
      scan ⟨d, .hex (left + 1)⟩ x = some ⟨d, .hex left⟩ := by
    intro x value left known
    simp [scan, known]
  exact .cons (hex first) (.cons (hex second) (.cons (hex third)
    (.cons (by simp [scan, fourth]) later)))

theorem scan_escape {e ch : Char} (known : simpleEscape e = some ch) :
    scan ⟨d, .escape⟩ e = some ⟨d, .inString⟩ := by
  have other : e ≠ 'u' := by
    rintro rfl
    have none : simpleEscape 'u' = none := by decide
    rw [none] at known
    cases known
  simp [scan, other, known]

theorem passes_unquote {s : List Char} (read : unquote text = some (s, rest)) :
    Passes d .inString .closed text rest := by
  fun_induction unquote text generalizing s with
  | case2 rest' =>
    cases read
    exact .cons rfl (.refl _)
  | case3 a b c e text' ch s' after inner known ih =>
    cases read
    exact .cons rfl (.cons rfl (passes_unicodeEscape known (ih inner)))
  | case5 e text' _ ch s' after inner known ih =>
    cases read
    exact .cons rfl (.cons (scan_escape known) (ih inner))
  | case8 c text' quote _ slash _ s' after inner ih =>
    cases read
    have plain : c ≠ '\\' := by
      rintro rfl
      cases text' with
      | nil => cases inner
      | cons e more => exact slash e more rfl rfl
    refine .cons ?_ (ih inner)
    simp [scan, plain, show c ≠ '"' from quote]
  | _ => cases read

theorem passes_empty {close : Char} (empty : (skipSpace text).head? = some close) :
    Passes d .between .between text (close :: (skipSpace text).tail) := by
  obtain ⟨rest, found⟩ := head?_eq_some_iff.mp empty
  rw [found]
  exact passes_skipSpace (.inl rfl) found

mutual
theorem passes_parseValue : ∀ (fuel d : Nat) {text rest : List Char} {v : Json},
    parseValue fuel text = some (v, rest) → ∃ m : Mode, m.Settled ∧ Passes d .between m text rest
  | 0, _, _, _, _, read => by cases read
  | fuel + 1, d, text, rest, v, read => by
    have spaces : ∀ {text'}, skipSpace text = text' → Passes d .between .between text text' :=
      passes_skipSpace (.inl rfl)
    rw [parseValue] at read
    split at read
    · next found =>
      cases read
      exact ⟨_, .inl rfl, (spaces found).trans (.cons rfl (.cons rfl (.cons rfl (.cons rfl (.refl _)))))⟩
    · next found =>
      cases read
      exact ⟨_, .inl rfl, (spaces found).trans (.cons rfl (.cons rfl (.cons rfl (.cons rfl (.refl _)))))⟩
    · next found =>
      cases read
      exact ⟨_, .inl rfl, (spaces found).trans
        (.cons rfl (.cons rfl (.cons rfl (.cons rfl (.cons rfl (.refl _))))))⟩
    · next found =>
      obtain ⟨⟨s, after⟩, inner, equal⟩ := Option.map_eq_some_iff.mp read
      cases equal
      exact ⟨_, .inr rfl, (spaces found).trans (.cons rfl (passes_unquote inner))⟩
    · next text' found =>
      split at read
      · next empty =>
        cases read
        exact ⟨_, .inl rfl, (spaces found).trans (.brackets rfl rfl (passes_empty empty))⟩
      · split at read
        · cases read
        · next first after value =>
          obtain ⟨⟨others, after'⟩, items, equal⟩ := Option.map_eq_some_iff.mp read
          cases equal
          obtain ⟨m, settled, passes⟩ := passes_parseValue fuel (d + 1) value
          obtain ⟨m', settled', later⟩ := passes_parseItems fuel (d + 1) settled items
          exact ⟨_, .inl rfl, (spaces found).trans
            (.brackets rfl (scan_closing settled' (.inr rfl)) (passes.trans later))⟩
    · next text' found =>
      split at read
      · next empty =>
        cases read
        exact ⟨_, .inl rfl, (spaces found).trans (.brackets rfl rfl (passes_empty empty))⟩
      · split at read
        · cases read
        · next first after field =>
          obtain ⟨⟨others, after'⟩, fields, equal⟩ := Option.map_eq_some_iff.mp read
          cases equal
          obtain ⟨m, settled, passes⟩ := passes_parseField fuel (d + 1) field
          obtain ⟨m', settled', later⟩ := passes_parseFields fuel (d + 1) settled fields
          exact ⟨_, .inl rfl, (spaces found).trans
            (.brackets rfl (scan_closing settled' (.inl rfl)) (passes.trans later))⟩
    · obtain ⟨⟨n, after⟩, number, equal⟩ := Option.map_eq_some_iff.mp read
      cases equal
      exact ⟨_, .inl rfl, (spaces rfl).trans (passes_readInt number)⟩

theorem passes_parseItems : ∀ (fuel d : Nat) {text rest : List Char} {vs : List Json} {m : Mode},
    m.Settled → parseItems fuel text = some (vs, rest) →
    ∃ m' : Mode, m'.Settled ∧ Passes d m m' text (']' :: rest)
  | 0, _, _, _, _, _, _, read => by cases read
  | fuel + 1, d, text, rest, vs, m, settled, read => by
    rw [parseItems] at read
    split at read
    · next found =>
      cases read
      exact ⟨m, settled, passes_skipSpace settled found⟩
    · next text' found =>
      split at read
      · cases read
      · next v after first =>
        obtain ⟨⟨others, after'⟩, items, equal⟩ := Option.map_eq_some_iff.mp read
        cases equal
        obtain ⟨m', settled', value⟩ := passes_parseValue fuel d first
        obtain ⟨m'', settled'', later⟩ := passes_parseItems fuel d settled' items
        exact ⟨m'', settled'', (passes_skipSpace settled found).trans
          (.cons (scan_comma settled) (value.trans later))⟩
    · cases read

theorem passes_parseField : ∀ (fuel d : Nat) {text rest : List Char} {kv : List Char × Json},
    parseField fuel text = some (kv, rest) → ∃ m : Mode, m.Settled ∧ Passes d .between m text rest
  | 0, _, _, _, _, read => by cases read
  | fuel + 1, d, text, rest, kv, read => by
    rw [parseField] at read
    split at read
    · next text' found =>
      split at read
      · cases read
      · next k after key =>
        split at read
        · next text'' colon =>
          obtain ⟨⟨v, after'⟩, value, equal⟩ := Option.map_eq_some_iff.mp read
          cases equal
          obtain ⟨m, settled, passes⟩ := passes_parseValue fuel d value
          exact ⟨m, settled, (passes_skipSpace (.inl rfl) found).trans (.cons rfl
            ((passes_unquote key).trans ((passes_skipSpace (.inr rfl) colon).trans
              (.cons rfl passes))))⟩
        · cases read
    · cases read

theorem passes_parseFields : ∀ (fuel d : Nat) {text rest : List Char}
    {fs : List (List Char × Json)} {m : Mode}, m.Settled →
    parseFields fuel text = some (fs, rest) → ∃ m' : Mode, m'.Settled ∧ Passes d m m' text ('}' :: rest)
  | 0, _, _, _, _, _, _, read => by cases read
  | fuel + 1, d, text, rest, fs, m, settled, read => by
    rw [parseFields] at read
    split at read
    · next found =>
      cases read
      exact ⟨m, settled, passes_skipSpace settled found⟩
    · next text' found =>
      split at read
      · cases read
      · next kv after first =>
        obtain ⟨⟨others, after'⟩, fields, equal⟩ := Option.map_eq_some_iff.mp read
        cases equal
        obtain ⟨m', settled', field⟩ := passes_parseField fuel d first
        obtain ⟨m'', settled'', later⟩ := passes_parseFields fuel d settled' fields
        exact ⟨m'', settled'', (passes_skipSpace settled found).trans
          (.cons (scan_comma settled) (field.trans later))⟩
    · cases read
end

variable {v : Json}

theorem exec_of_parse (read : parse text = some v) :
    ∃ m, Run.exec scan ⟨0, .between⟩ text = some ⟨0, m⟩ := by
  unfold parse at read
  split at read
  · next w rest value =>
    split at read
    · next blank =>
      obtain ⟨m, settled, passes⟩ := passes_parseValue _ 0 value
      obtain ⟨used, rfl, keeps⟩ := passes.trans (passes_skipSpace settled blank)
      rw [append_nil]
      exact ⟨m, keeps.exec⟩
    · cases read
  · cases read

theorem keeps_print (v : Json) (d : Nat) : ∃ m : Mode, Keeps d ⟨d, .between⟩ ⟨d, m⟩ (print v) := by
  have read := parseValue_print v _ [] le_rfl (by simp [NoDigit])
  obtain ⟨m, -, used, text, keeps⟩ := passes_parseValue _ d read
  rw [append_nil, append_nil] at text
  exact ⟨m, text ▸ keeps⟩

theorem keeps_object (k : List Char) (v : Json) (fields : List (List Char × Json)) (d : Nat) :
    ∃ body m, print (.obj ((k, v) :: fields)) = '{' :: (body ++ ['}']) ∧
      Keeps (d + 1) ⟨d + 1, .between⟩ ⟨d + 1, m⟩ body := by
  have field := parseField_print k v (size v) (printFields fields ++ [])
    (parseValue_print v _ _ le_rfl (noDigit_printFields fields []))
  obtain ⟨m, settled, first⟩ := passes_parseField _ (d + 1) field
  obtain ⟨m', -, others⟩ := passes_parseFields _ (d + 1) settled
    (parseFields_print fields _ [] le_rfl)
  obtain ⟨body, text, keeps⟩ := first.trans others
  refine ⟨body, m', ?_, keeps⟩
  rw [print, ← text, append_nil]

variable {fields : List (List Char × Json)}

variable {k : List Char}

theorem exec_front {p : List Char}
    (front : p <+: print (.obj ((k, v) :: fields))) (nonempty : p ≠ [])
    (proper : p ≠ print (.obj ((k, v) :: fields))) :
    ∃ t, Run.exec scan ⟨0, .between⟩ p = some t ∧ 1 ≤ t.depth := by
  obtain ⟨body, m, text, inner⟩ := keeps_object k v fields 0
  rw [text] at front proper
  cases p with
  | nil => exact absurd rfl nonempty
  | cons c q =>
    obtain ⟨rfl, tail⟩ := cons_prefix_cons.mp front
    rcases prefix_concat_iff.mp tail with whole | ⟨later, rfl⟩
    · exact absurd (congrArg _ whole) proper
    · exact inner.front

theorem parse_front {p : List Char}
    (front : p <+: print (.obj ((k, v) :: fields))) (nonempty : p ≠ [])
    (proper : p ≠ print (.obj ((k, v) :: fields))) : parse p = none := by
  obtain ⟨t, ran, deep⟩ := exec_front front nonempty proper
  cases read : parse p with
  | none => rfl
  | some w =>
    obtain ⟨m, ran'⟩ := exec_of_parse read
    rw [ran] at ran'
    cases ran'
    exact absurd deep (Nat.not_succ_le_zero 0)

theorem exec_joined {s : Place} (deep : 1 ≤ s.depth) {c : Char} {tail : List Char}
    (text : print v = '{' :: '"' :: c :: tail) (refused : ∀ d, scan ⟨d, .closed⟩ c = none)
    (m : Mode) : Run.exec scan s (print v) ≠ some ⟨0, m⟩ := by
  obtain ⟨d, mode⟩ := s
  have stuck : ∀ {s : Place}, scan s '{' = none → Run.exec scan s (print v) = none := by
    intro s none
    rw [text, Run.exec, none, Option.bind_none]
  cases mode with
  | between =>
    obtain ⟨m', keeps⟩ := keeps_print v d
    rw [keeps.exec]
    rintro ⟨⟩
    exact absurd deep (Nat.not_succ_le_zero 0)
  | inString =>
    have brace : scan ⟨d, .inString⟩ '{' = some ⟨d, .inString⟩ := rfl
    have quote : scan ⟨d, .inString⟩ '"' = some ⟨d, .closed⟩ := rfl
    rw [text, Run.exec, brace, Option.bind_some, Run.exec, quote, Option.bind_some, Run.exec,
      refused, Option.bind_none]
    rintro ⟨⟩
  | closed =>
    rw [stuck rfl]
    rintro ⟨⟩
  | escape =>
    rw [stuck rfl]
    rintro ⟨⟩
  | hex left =>
    rw [stuck rfl]
    rintro ⟨⟩

theorem parse_joined {v w : Json} {fields : List (List Char × Json)}
    {p tail : List Char} {c : Char} (front : p <+: print (.obj ((k, v) :: fields)))
    (nonempty : p ≠ []) (text : print w = '{' :: '"' :: c :: tail)
    (refused : ∀ d, scan ⟨d, .closed⟩ c = none) : parse (p ++ print w) = none := by
  by_cases whole : p = print (.obj ((k, v) :: fields))
  · -- behind a whole object the reader finds the brace of the next one
    subst whole
    have enough := size_le_print (.obj ((k, v) :: fields))
    have next : NoDigit (print w) := by
      rw [text]
      exact noDigit_cons (by decide)
    have read := parseValue_print (.obj ((k, v) :: fields))
      (2 * (print (.obj ((k, v) :: fields)) ++ print w).length + 1) (print w)
      (by rw [length_append]; omega) next
    have left : skipSpace (print w) ≠ [] := by
      rw [text, skipSpace_cons _ (by decide)]
      exact cons_ne_nil _ _
    rw [parse, read]
    exact if_neg left
  · obtain ⟨t, ran, deep⟩ := exec_front front nonempty whole
    cases read : parse (p ++ print w) with
    | none => rfl
    | some u =>
      obtain ⟨m, ran'⟩ := exec_of_parse read
      rw [Run.exec_append, ran, Option.bind_some] at ran'
      exact absurd ran' (exec_joined deep text refused m)

end WowDb.Lib.Json
