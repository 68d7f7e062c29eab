import Mathlib

/-!
# A buffered writer over a file that may fail

`write_all` and `flush` of the standard library's `BufWriter`, for any kind of symbol.
-/
namespace WowDb.Lib
open List

structure BufWriter (α : Type) where
  file : List α
  buf : List α
  capacity : Nat
  /-- What the file still takes; `none` if it never fails. -/
  room : Option Nat
  deriving DecidableEq

namespace BufWriter

variable {α : Type}

def writeInner (w : BufWriter α) (data : List α) : BufWriter α × List α :=
  match w.room with
  | none => ({ w with file := w.file ++ data }, [])
  | some n => ({ w with file := w.file ++ data.take n, room := some (n - data.length) }, data.drop n)

def flush (w : BufWriter α) : BufWriter α × Bool :=
  let (w, rest) := w.writeInner w.buf
  ({ w with buf := rest }, rest.isEmpty)

def writeAll (w : BufWriter α) (data : List α) : BufWriter α × Bool :=
  if data.length < w.capacity - w.buf.length then ({ w with buf := w.buf ++ data }, true)
  else
    let (w, flushed) := if w.capacity - w.buf.length < data.length then w.flush else (w, true)
    if flushed then
      if w.capacity ≤ data.length then
        let (w, rest) := w.writeInner data
        (w, rest.isEmpty)
      else ({ w with buf := w.buf ++ data }, true)
    else (w, false)

def writeEach (w : BufWriter α) : List (List α) → BufWriter α × Bool
  | [] => (w, true)
  | data :: rest =>
    let (w, ok) := w.writeAll data
    if ok then w.writeEach rest else (w, false)

def stream (w : BufWriter α) : List α := w.file ++ w.buf

variable (w : BufWriter α)

theorem writeInner_spec (data : List α) : (w.writeInner data).1.buf = w.buf ∧
      ∃ part, part ++ (w.writeInner data).2 = data ∧ (w.writeInner data).1.file = w.file ++ part := by
  unfold writeInner
  split
  · exact ⟨rfl, data, append_nil data, rfl⟩
  · exact ⟨rfl, _, take_append_drop _ data, rfl⟩

theorem flush_grows : w.file <+: w.flush.1.file := by
  obtain ⟨-, part, -, file⟩ := w.writeInner_spec w.buf
  exact ⟨part, file.symm⟩

theorem stream_flush : w.flush.1.stream = w.stream := by
  obtain ⟨-, part, whole, file⟩ := w.writeInner_spec w.buf
  simp only [stream, flush, file, append_assoc, whole]

theorem buf_flush (ok : w.flush.2 = true) : w.flush.1.buf = [] :=
  isEmpty_iff.mp ok

theorem file_flush (ok : w.flush.2 = true) : w.flush.1.file = w.stream := by
  have whole := w.stream_flush
  rwa [stream, w.buf_flush ok, append_nil] at whole

variable {w}

theorem writeAll_spec (data : List α) : w.file <+: (w.writeAll data).1.file ∧
      ((w.writeAll data).2 = true → (w.writeAll data).1.stream = w.stream ++ data) := by
  unfold writeAll
  split
  · exact ⟨prefix_refl _, fun _ => (append_assoc w.file w.buf data).symm⟩
  · next full =>
    -- the writer behind the flush that makes room
    obtain ⟨v, flushed, made, grows, same, emptied⟩ : ∃ v flushed,
        (if w.capacity - w.buf.length < data.length then w.flush else (w, true)) = (v, flushed) ∧
          w.file <+: v.file ∧ v.stream = w.stream ∧
          (flushed = true → v.capacity ≤ data.length → v.buf = [] ∨ data = []) := by
      by_cases short : w.capacity - w.buf.length < data.length
      · exact ⟨_, _, if_pos short, w.flush_grows, w.stream_flush, fun ok _ => .inl (w.buf_flush ok)⟩
      · refine ⟨w, true, if_neg short, prefix_refl _, rfl, fun _ long => ?_⟩
        rw [← length_eq_zero_iff, ← length_eq_zero_iff]
        omega
    rw [made]
    cases flushed with
    | false => exact ⟨grows, nofun⟩
    | true =>
      by_cases long : v.capacity ≤ data.length
      · obtain ⟨buffer, part, whole, file⟩ := v.writeInner_spec data
        simp only [if_true, if_pos long]
        refine ⟨grows.trans ⟨part, file.symm⟩, fun ok => ?_⟩
        rw [isEmpty_iff.mp ok, append_nil] at whole
        rw [← same, stream, stream, buffer, file, whole]
        rcases emptied rfl long with none | none <;> simp only [none, append_nil]
      · simp only [if_true, if_neg long]
        refine ⟨grows, fun _ => ?_⟩
        rw [← same]
        exact (append_assoc v.file v.buf data).symm

theorem writeEach_grows (chunks : List (List α)) : w.file <+: (w.writeEach chunks).1.file := by
  induction chunks generalizing w with
  | nil => exact prefix_refl _
  | cons data rest ih =>
    have first := (w.writeAll_spec data).1
    unfold writeEach
    cases wrote : (w.writeAll data).2 with
    | false => simpa [wrote] using first
    | true => simpa [wrote] using first.trans ih

theorem stream_writeEach {chunks : List (List α)} (ok : (w.writeEach chunks).2 = true) :
    (w.writeEach chunks).1.stream = w.stream ++ chunks.flatten := by
  induction chunks generalizing w with
  | nil => exact (append_nil _).symm
  | cons data rest ih =>
    have first := (w.writeAll_spec data).2
    unfold writeEach at ok ⊢
    cases wrote : (w.writeAll data).2 with
    | false =>
      simp [wrote] at ok
    | true =>
      simp only [wrote, if_true] at ok ⊢
      rw [ih ok, first wrote, flatten_cons, append_assoc]

end BufWriter

end WowDb.Lib
