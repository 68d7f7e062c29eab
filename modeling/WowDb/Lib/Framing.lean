import Mathlib

/-!
# Streams of frames

A frame reader takes one frame off the front of a stream or refuses. Reading a stream repeats it
until the first refusal.
-/
namespace WowDb.Lib
open List

structure FrameReader (β α : Type) where
  read : List β → Option (α × List β)
  shrinks : ∀ {s a rest}, read s = some (a, rest) → rest.length < s.length
  extends_right : ∀ {s a rest}, read s = some (a, rest) → ∀ more,
    read (s ++ more) = some (a, rest ++ more)

namespace FrameReader

variable {α β : Type} (R : FrameReader β α)

def readMany : Nat → List β → List α
  | 0, _ => []
  | fuel + 1, s =>
    match R.read s with
    | none => []
    | some (a, rest) => a :: readMany fuel rest

def readAll (s : List β) : List α := R.readMany s.length s

variable {s : List β}

theorem readMany_of_le {fuel more : Nat} (enough : s.length ≤ fuel) (le : fuel ≤ more) :
    R.readMany more s = R.readMany fuel s := by
  induction fuel generalizing s more with
  | zero =>
    have empty : s = [] := eq_nil_of_length_eq_zero (by omega)
    subst empty
    cases more with
    | zero => rfl
    | succ more =>
      cases first : R.read ([] : List β) with
      | none => simp only [readMany, first]
      | some frame =>
        have shorter := R.shrinks first
        simp at shorter
  | succ fuel ih =>
    obtain ⟨more, rfl⟩ : ∃ k, more = k + 1 := ⟨more - 1, by omega⟩
    cases first : R.read s with
    | none => simp only [readMany, first]
    | some frame =>
      have shorter := R.shrinks first
      simp only [readMany, first]
      rw [ih (by omega) (by omega)]

theorem readAll_of_none (refused : R.read s = none) : R.readAll s = [] := by
  unfold readAll
  cases s.length with
  | zero => rfl
  | succ n => simp only [readMany, refused]

theorem readAll_of_some {rest : List β} {a : α} (first : R.read s = some (a, rest)) :
    R.readAll s = a :: R.readAll rest := by
  have shorter := R.shrinks first
  obtain ⟨n, length⟩ : ∃ n, s.length = n + 1 := ⟨s.length - 1, by omega⟩
  have tail := R.readMany_of_le (Nat.le_refl rest.length) (show rest.length ≤ n by omega)
  simp only [readAll, length, readMany, first]
  rw [tail]

theorem readMany_eq_take (n : Nat) (s : List β) : R.readMany n s = (R.readAll s).take n := by
  induction n generalizing s with
  | zero => rfl
  | succ n ih =>
    cases first : R.read s with
    | none => simp only [readMany, first, R.readAll_of_none first, take_nil]
    | some frame => simp only [readMany, first, R.readAll_of_some first, take_succ_cons, ih]

@[simp] theorem readAll_nil : R.readAll [] = [] := rfl

/-- Induction over the frames of a stream. -/
theorem stream_induction {motive : List β → Prop} (refused : ∀ s, R.read s = none → motive s)
    (frame : ∀ s a rest, R.read s = some (a, rest) → motive rest → motive s) (s : List β) :
    motive s := by
  induction length : s.length using Nat.strong_induction_on generalizing s with
  | _ n ih =>
    cases first : R.read s with
    | none => exact refused s first
    | some next => exact frame s next.1 next.2 first (ih _ (length ▸ R.shrinks first) _ rfl)

theorem readAll_isPrefix (s more : List β) : R.readAll s <+: R.readAll (s ++ more) := by
  induction s using R.stream_induction with
  | refused s first =>
    rw [R.readAll_of_none first]
    exact List.nil_prefix
  | frame s a rest first ih =>
    rw [R.readAll_of_some first, R.readAll_of_some (R.extends_right first more)]
    exact cons_prefix_cons.mpr ⟨rfl, ih⟩

variable {R} {write : α → List β}

variable {good : α → Prop}

theorem readAll_frames (inverse : ∀ a, good a → ∀ rest, R.read (write a ++ rest) = some (a, rest))
    {frames : List α} (allGood : ∀ a ∈ frames, good a) (rest : List β) :
    R.readAll (frames.flatMap write ++ rest) = frames ++ R.readAll rest := by
  induction frames with
  | nil => rfl
  | cons a frames ih =>
    have first := inverse a (allGood a (by simp)) (frames.flatMap write ++ rest)
    rw [flatMap_cons, append_assoc, R.readAll_of_some first,
      ih fun b member => allGood b (by simp [member])]
    rfl

theorem readAll_good (sound : ∀ s a rest, R.read s = some (a, rest) → good a) (s : List β) :
    ∀ a ∈ R.readAll s, good a := by
  induction s using R.stream_induction with
  | refused s first => simp [R.readAll_of_none first]
  | frame s a rest first ih =>
    rw [R.readAll_of_some first, forall_mem_cons]
    exact ⟨sound s a rest first, ih⟩

theorem readAll_written (written : ∀ s a rest, R.read s = some (a, rest) → s = write a ++ rest)
    (s : List β) : ∃ rest, s = (R.readAll s).flatMap write ++ rest ∧ R.read rest = none := by
  induction s using R.stream_induction with
  | refused s first => exact ⟨s, by rw [R.readAll_of_none first]; rfl, first⟩
  | frame s a later first ih =>
    obtain ⟨rest, split, refused⟩ := ih
    refine ⟨rest, ?_, refused⟩
    rw [R.readAll_of_some first, flatMap_cons, append_assoc, ← split]
    exact written s a later first

theorem readAll_append_of_whole
    (inverse : ∀ a, good a → ∀ rest, R.read (write a ++ rest) = some (a, rest))
    (sound : ∀ s a rest, R.read s = some (a, rest) → good a)
    (whole : (R.readAll s).flatMap write = s) (more : List β) :
    R.readAll (s ++ more) = R.readAll s ++ R.readAll more := by
  have decoded := readAll_frames inverse (readAll_good sound s) more
  rwa [whole] at decoded

variable (write)

/-- The longest prefix of frames that fits into `cut` symbols. -/
structure LongestWithin (cut : Nat) (frames kept : List α) : Prop where
  isPrefix : kept <+: frames
  fits : (kept.flatMap write).length ≤ cut
  longest : ∀ other, other <+: frames → (other.flatMap write).length ≤ cut → other <+: kept

variable {write}

theorem read_take_frame {a : α} (inverse : ∀ rest, R.read (write a ++ rest) = some (a, rest))
    {cut : Nat} (short : cut < (write a).length) : R.read ((write a).take cut) = none := by
  cases read : R.read ((write a).take cut) with
  | none => rfl
  | some frame =>
    obtain ⟨b, rest⟩ := frame
    have completed := R.extends_right read ((write a).drop cut)
    have whole := inverse []
    rw [take_append_drop] at completed
    rw [append_nil, completed] at whole
    simp only [Option.some.injEq, Prod.mk.injEq, append_eq_nil_iff, drop_eq_nil_iff]
      at whole
    omega

theorem readAll_take (inverse : ∀ a, good a → ∀ rest, R.read (write a ++ rest) = some (a, rest))
    {frames : List α} (allGood : ∀ a ∈ frames, good a) (cut : Nat) :
    LongestWithin write cut frames (R.readAll ((frames.flatMap write).take cut)) := by
  induction frames generalizing cut with
  | nil =>
    rw [flatMap_nil, take_nil, readAll_nil]
    exact ⟨prefix_refl _, Nat.zero_le _, fun _ isPrefix _ => isPrefix⟩
  | cons a frames ih =>
    have readsA := inverse a (allGood a (by simp))
    by_cases short : cut < (write a).length
    · rw [flatMap_cons, take_append_of_le_length (by omega),
        R.readAll_of_none (read_take_frame readsA short)]
      refine ⟨List.nil_prefix, Nat.zero_le _, ?_⟩
      intro other isPrefix fits
      cases other with
      | nil => exact prefix_refl _
      | cons b others =>
        obtain ⟨rfl, -⟩ := cons_prefix_cons.mp isPrefix
        rw [flatMap_cons, length_append] at fits
        omega
    · obtain ⟨isPrefix, fits, longest⟩ :=
        ih (fun b member => allGood b (by simp [member])) (cut - (write a).length)
      rw [flatMap_cons, take_append, take_of_length_le (by omega),
        R.readAll_of_some (readsA _)]
      refine ⟨cons_prefix_cons.mpr ⟨rfl, isPrefix⟩, ?_, ?_⟩
      · rw [flatMap_cons, length_append]
        omega
      · intro other otherPrefix otherFits
        cases other with
        | nil => exact List.nil_prefix
        | cons b others =>
          obtain ⟨rfl, tail⟩ := cons_prefix_cons.mp otherPrefix
          rw [flatMap_cons, length_append] at otherFits
          exact cons_prefix_cons.mpr ⟨rfl, longest others tail (by omega)⟩

end FrameReader

variable {ε α γ β : Type}

def Stable (read : List β → Except ε (α × List β)) : Prop :=
  ∀ s a rest, read s = .ok (a, rest) → ∀ more, read (s ++ more) = .ok (a, rest ++ more)

namespace Stable

theorem ok (a : α) : Stable fun s : List β => (.ok (a, s) : Except ε (α × List β)) := by
  intro s b rest read more
  cases read
  rfl

theorem error (e : ε) : Stable fun _ : List β => (.error e : Except ε (α × List β)) := by
  intro s a rest read
  cases read

variable {read : List β → Except ε (α × List β)}

theorem bind {next : α → List β → Except ε (γ × List β)}
    (first : Stable read) (later : ∀ a, Stable (next a)) :
    Stable fun s => (read s).bind fun r => next r.1 r.2 := by
  intro s c rest both more
  cases taken : read s with
  | error e =>
    simp only [taken, Except.bind] at both
    cases both
  | ok r =>
    obtain ⟨a, left⟩ := r
    simp only [taken, Except.bind] at both
    simp only [first s a left taken more, Except.bind]
    exact later a left c rest both more

theorem fails_on_part (stable : Stable read)
    {whole part : List β} {a : α} (reads : read whole = .ok (a, [])) (isPrefix : part <+: whole)
    (short : part.length < whole.length) : ∃ e, read part = .error e := by
  cases taken : read part with
  | error e => exact ⟨e, rfl⟩
  | ok r =>
    obtain ⟨missing, rfl⟩ := isPrefix
    have longer := stable part r.1 r.2 taken missing
    rw [reads, Except.ok.injEq, Prod.mk.injEq] at longer
    have nothing := (List.append_eq_nil_iff.mp longer.2.symm).2
    rw [nothing, List.append_nil] at short
    omega

end Stable
end WowDb.Lib
