import WowDb.Lib.Json

/-!
# Texts with quoted parts, joined by a separator

A text is closed when its quotes are closed and the separator occurs between quotes only.
-/
namespace WowDb.Lib.Quoted
open List

inductive Mode where
  | outside
  | inside
  | escaped
  deriving DecidableEq

def step : Mode → Char → Mode
  | .outside, c => if c = '"' then .inside else .outside
  | .inside, c => if c = '"' then .outside else if c = '\\' then .escaped else .inside
  | .escaped, _ => .inside

def read (sep : Char) : Mode → List Char → Option Mode
  | mode, [] => some mode
  | mode, c :: rest => if mode = .outside ∧ c = sep then none else read sep (step mode c) rest

def Closed (sep : Char) (text : List Char) : Prop := read sep .outside text = some .outside

instance (sep : Char) (text : List Char) : Decidable (Closed sep text) := by
  unfold Closed
  infer_instance

variable {sep : Char}

theorem closed_of_plain {text : List Char} (plain : ∀ c ∈ text, c ≠ '"' ∧ c ≠ sep) :
    Closed sep text := by
  induction text with
  | nil => rfl
  | cons c rest ih =>
    obtain ⟨noQuote, noSep⟩ := plain c mem_cons_self
    unfold Closed read
    rw [if_neg fun both => noSep both.2, step, if_neg noQuote]
    exact ih fun d member => plain d (mem_cons_of_mem c member)

theorem hexDigit_not_special {n : Nat} (small : n < 16) :
    Json.hexDigit n ≠ '"' ∧ Json.hexDigit n ≠ '\\' ∧ Json.hexDigit n ≠ '|' := by
  have all : ∀ k : Fin 16, Json.hexDigit k ≠ '"' ∧ Json.hexDigit k ≠ '\\' ∧
      Json.hexDigit k ≠ '|' := by decide
  exact all ⟨n, small⟩

theorem read_inside_cons {c : Char} (noQuote : c ≠ '"') (noSlash : c ≠ '\\') (rest : List Char) :
    read sep .inside (c :: rest) = read sep .inside rest := by
  rw [read, if_neg (by simp), step, if_neg noQuote, if_neg noSlash]

theorem read_inside_slash (c : Char) (rest : List Char) :
    read sep .inside ('\\' :: c :: rest) = read sep .inside rest := by
  rw [read, if_neg (by simp), read, if_neg (by simp [step])]
  rfl

theorem read_escapeChar (c : Char) (rest : List Char) :
    read sep .inside (Json.escapeChar c ++ rest) = read sep .inside rest := by
  unfold Json.escapeChar
  cases short : Json.shortEscape c with
  | some e => exact read_inside_slash e rest
  | none =>
    dsimp only
    split
    next control =>
      have high := hexDigit_not_special (show c.toNat / 16 < 16 by omega)
      have low := hexDigit_not_special (Nat.mod_lt c.toNat (show 0 < 16 by decide))
      rw [cons_append, cons_append, read_inside_slash]
      simp only [cons_append, nil_append]
      rw [read_inside_cons (by decide) (by decide), read_inside_cons (by decide) (by decide),
        read_inside_cons high.1 high.2.1, read_inside_cons low.1 low.2.1]
    next =>
      have plain : ¬ (c = '"' ∨ c = '\\') := fun special =>
        Json.shortEscape_of_special special short
      exact read_inside_cons (fun h => plain (.inl h)) (fun h => plain (.inr h)) rest

theorem closed_quote (apart : sep ≠ '"') (s : List Char) : Closed sep (Json.quote s) := by
  have body : read sep .inside (s.flatMap Json.escapeChar ++ ['"']) = some .outside := by
    induction s with
    | nil => rfl
    | cons c rest ih => rw [flatMap_cons, append_assoc, read_escapeChar, ih]
  unfold Closed Json.quote read
  rw [if_neg fun both => apart both.2.symm]
  exact body

theorem split_unique {mode : Mode} {first second u v : List Char}
    (closed : read sep mode first = some .outside) (closed' : read sep mode second = some .outside)
    (same : first ++ sep :: u = second ++ sep :: v) : first = second ∧ u = v := by
  induction first generalizing mode second with
  | nil =>
    obtain rfl : mode = .outside := Option.some_inj.mp closed
    cases second with
    | nil => exact ⟨rfl, (cons.inj same).2⟩
    | cons c rest =>
      obtain ⟨rfl, -⟩ := cons.inj same
      simp [read] at closed'
  | cons c rest ih =>
    cases second with
    | nil =>
      obtain rfl : mode = .outside := Option.some_inj.mp closed'
      obtain ⟨rfl, -⟩ := cons.inj same
      simp [read] at closed
    | cons d rest' =>
      obtain ⟨rfl, later⟩ := cons.inj same
      rw [read] at closed closed'
      split at closed
      · cases closed
      next inner =>
        rw [if_neg inner] at closed'
        obtain ⟨rfl, equal⟩ := ih closed closed' later
        exact ⟨rfl, equal⟩

theorem intercalate_injective {xs ys : List (List Char)} (lengths : xs.length = ys.length)
    (closedXs : ∀ x ∈ xs, Closed sep x) (closedYs : ∀ y ∈ ys, Closed sep y)
    (same : [sep].intercalate xs = [sep].intercalate ys) : xs = ys := by
  induction xs generalizing ys with
  | nil => exact (length_eq_zero_iff.mp lengths.symm).symm
  | cons x xs ih =>
    cases ys with
    | nil => cases lengths
    | cons y ys =>
      have shorter : xs.length = ys.length := by simpa using lengths
      cases xs with
      | nil =>
        obtain rfl := length_eq_zero_iff.mp shorter.symm
        simpa using same
      | cons x' xs =>
        obtain ⟨y', ys, rfl⟩ := exists_cons_of_length_eq_add_one shorter.symm
        have parts : x ++ sep :: [sep].intercalate (x' :: xs) =
            y ++ sep :: [sep].intercalate (y' :: ys) := by
          simpa using same
        obtain ⟨rfl, later⟩ := split_unique (closedXs x mem_cons_self)
          (closedYs y mem_cons_self) parts
        rw [ih shorter (fun z member => closedXs z (mem_cons_of_mem _ member))
          (fun z member => closedYs z (mem_cons_of_mem _ member)) later]

end WowDb.Lib.Quoted
