import WowDb.Lib.Text

/-!
# Letter case

Lower and upper case of text as far as keywords of ASCII letters depend on it.
-/
namespace WowDb.Lib
open List

inductive LowerOf (c : Char) : List Char → Prop where
  | ascii (plain : c.toNat < 128) : LowerOf c [c.toLower]
  | wide {d : Char} {rest : List Char} (wide : 128 ≤ d.toNat) : LowerOf c (d :: rest)
  | kelvin (sign : c = '\u212A') : LowerOf c ['k']
  | dotted (letter : c = '\u0130') : LowerOf c ['i', '\u0307']

structure CaseMapping where
  toLowercase : List Char → List Char
  toUppercase : List Char → List Char
  lower_pieces : ∀ text, ∃ pieces, List.Forall₂ LowerOf text pieces ∧
    toLowercase text = pieces.flatten
  upper_ascii : ∀ c rest, c.toNat < 128 → toUppercase (c :: rest) = c.toUpper :: toUppercase rest

namespace CaseMapping

def ascii : CaseMapping where
  toLowercase text := text.map Char.toLower
  toUppercase text := text.map Char.toUpper
  lower_pieces text := by
    refine ⟨text.map fun c => [c.toLower], ?_, ?_⟩
    · rw [List.forall₂_map_right_iff, List.forall₂_same]
      intro c _
      by_cases plain : c.toNat < 128
      · exact .ascii plain
      · have same : c.toLower = c := by
          refine dif_neg fun capital => plain ?_
          have bound : c.toNat ≤ 90 := capital.2
          omega
        rw [same]
        exact .wide (by omega)
    · rw [← List.flatMap_def, ← List.map_eq_flatMap]
  upper_ascii c rest _ := rfl

def LowersAscii (C : CaseMapping) : Prop :=
  ∀ word rest, (∀ c ∈ word, c.toNat < 128) → word.map Char.toLower <+: C.toLowercase (word ++ rest)

theorem lowersAscii_ascii : ascii.LowersAscii := by
  intro word rest _
  simp only [ascii, map_append]
  exact prefix_append _ _

theorem of_ascii {P : Char → Prop} (all : ∀ n : Fin 128, P (Char.ofNat n)) {c : Char}
    (plain : c.toNat < 128) : P c := by
  have holds := all ⟨c.toNat, plain⟩
  rwa [Char.ofNat_toNat] at holds

theorem toUpper_toLower {c : Char} (plain : c.toNat < 128) : c.toLower.toUpper = c.toUpper :=
  of_ascii (P := fun c => c.toLower.toUpper = c.toUpper) (by decide) plain

variable (C : CaseMapping)

theorem upper_of_lower_pieces {text : List Char} {pieces : List (List Char)}
    (lowered : List.Forall₂ LowerOf text pieces) (tail : List Char) {word : List Char}
    (letters : ∀ l ∈ word, l.toNat < 128 ∧ l ≠ 'k') (ends : word.getLast? ≠ some 'i')
    (starts : word <+: pieces.flatten) :
    word.map Char.toUpper <+: C.toUppercase (text ++ tail) := by
  induction lowered generalizing word with
  | nil =>
    rw [flatten_nil, prefix_nil] at starts
    rw [starts]
    exact List.nil_prefix
  | @cons c piece text pieces lower _ ih =>
    cases word with
    | nil => exact List.nil_prefix
    | cons l word =>
      obtain ⟨plain, notK⟩ := letters l mem_cons_self
      rw [flatten_cons] at starts
      cases lower with
      | ascii plainC =>
        obtain ⟨rfl, more⟩ := cons_prefix_cons.mp starts
        rw [cons_append, C.upper_ascii c _ plainC, map_cons, toUpper_toLower plainC,
          prefix_cons_inj]
        refine ih (fun m mem => letters m (mem_cons_of_mem _ mem)) (fun last => ends ?_) more
        rw [getLast?_cons, last]
        rfl
      | wide wide =>
        obtain ⟨rfl, -⟩ := cons_prefix_cons.mp starts
        omega
      | kelvin _ =>
        obtain ⟨rfl, -⟩ := cons_prefix_cons.mp starts
        exact absurd rfl notK
      | dotted _ =>
        obtain ⟨rfl, more⟩ := cons_prefix_cons.mp starts
        cases word with
        | nil => exact absurd rfl ends
        | cons m word =>
          obtain ⟨rfl, -⟩ := cons_prefix_cons.mp more
          exact absurd (letters '\u0307' (by simp)).1 (by decide)

theorem upper_of_lower {text word : List Char} (tail : List Char)
    (letters : ∀ l ∈ word, l.toNat < 128 ∧ l ≠ 'k') (ends : word.getLast? ≠ some 'i')
    (starts : word <+: C.toLowercase text) :
    word.map Char.toUpper <+: C.toUppercase (text ++ tail) := by
  obtain ⟨pieces, lowered, whole⟩ := C.lower_pieces text
  rw [whole] at starts
  exact C.upper_of_lower_pieces lowered tail letters ends starts

theorem toLowercase_nil : C.toLowercase [] = [] := by
  obtain ⟨pieces, lowered, whole⟩ := C.lower_pieces []
  rw [whole, forall₂_nil_left_iff.mp lowered, flatten_nil]

theorem firstAsciiWord_prefix {c : Char} {text : List Char} (solid : Text.isWhitespace c = false) :
    Text.firstAsciiWord (C.toLowercase (c :: text)) <+: C.toLowercase (c :: text) := by
  obtain ⟨pieces, lowered, whole⟩ := C.lower_pieces (c :: text)
  rw [whole]
  obtain ⟨piece, pieces, lower, -, rfl⟩ := forall₂_cons_left_iff.mp lowered
  obtain ⟨d, rest, rfl, dSolid⟩ :
      ∃ d rest, piece = d :: rest ∧ Text.isAsciiWhitespace d = false := by
    cases lower with
    | ascii plain =>
      refine ⟨_, _, rfl, ?_⟩
      exact of_ascii (P := fun c => Text.isWhitespace c = false →
        Text.isAsciiWhitespace c.toLower = false) (by decide) plain solid
    | @wide d rest wide =>
      refine ⟨_, _, rfl, ?_⟩
      cases space : Text.isAsciiWhitespace d with
      | false => rfl
      | true =>
        simp only [Text.isAsciiWhitespace, Bool.or_eq_true, decide_eq_true_eq] at space
        obtain (((rfl | rfl) | rfl) | rfl) | rfl := space <;> exact absurd wide (by decide)
    | kelvin _ => exact ⟨_, _, rfl, by decide⟩
    | dotted _ => exact ⟨_, _, rfl, by decide⟩
  rw [Text.firstAsciiWord, flatten_cons, cons_append,
    dropWhile_cons_of_neg (by simp [dSolid])]
  exact takeWhile_prefix _

end CaseMapping
end WowDb.Lib
