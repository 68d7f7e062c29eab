import Mathlib

/-!
# Granules

A list cut into pieces of one size, the last one possibly shorter, and indexes that keep one summary
for each piece.
-/
namespace WowDb.Lib.Granules
open List

variable {α σ : Type}

def chunks (size : Nat) (rows : List α) : List (List α) :=
  (List.range ((rows.length + size - 1) / size)).map fun g => (rows.drop (g * size)).take size

variable {size : Nat}

theorem lt_ceilDiv_iff (pos : 0 < size) (n g : Nat) : g < (n + size - 1) / size ↔ g * size < n := by
  rw [Nat.lt_iff_add_one_le, Nat.le_div_iff_mul_le pos, Nat.add_mul]
  omega

theorem getElem?_chunks (pos : 0 < size) (rows : List α) (g : Nat) :
    (chunks size rows)[g]? =
      if g * size < rows.length then some ((rows.drop (g * size)).take size) else none := by
  rw [chunks, getElem?_map]
  split
  · next inside => rw [getElem?_range ((lt_ceilDiv_iff pos _ _).mpr inside), Option.map_some]
  · next outside =>
    rw [getElem?_eq_none_iff.mpr, Option.map_none]
    rw [length_range]
    exact Nat.le_of_not_lt fun less => outside ((lt_ceilDiv_iff pos _ _).mp less)

theorem exists_chunk_of_row (pos : 0 < size) {rows : List α} {r : Nat} {x : α}
    (row : rows[r]? = some x) : ∃ chunk, (chunks size rows)[r / size]? = some chunk ∧ x ∈ chunk := by
  obtain ⟨inside, -⟩ := List.getElem?_eq_some_iff.mp row
  have start : r / size * size ≤ r := Nat.div_mul_le_self r size
  refine ⟨(rows.drop (r / size * size)).take size, ?_, ?_⟩
  · rw [getElem?_chunks pos, if_pos (by omega)]
  · have offset : r - r / size * size < size := by
      rw [← Nat.mod_eq_sub_div_mul]
      exact Nat.mod_lt r pos
    refine List.mem_of_getElem? (i := r - r / size * size) ?_
    rw [List.getElem?_take_of_lt offset, List.getElem?_drop, Nat.add_sub_cancel' start, row]

theorem length_of_mem_chunks {rows chunk : List α} (mem : chunk ∈ chunks size rows) :
    chunk.length ≤ min size rows.length := by
  obtain ⟨g, -, rfl⟩ := mem_map.mp mem
  rw [length_take, length_drop]
  omega

theorem chunks_of_length_le {rows : List α} (pos : 0 < rows.length)
    (le : rows.length ≤ size) : chunks size rows = [rows] := by
  have one : (rows.length + size - 1) / size = 1 :=
    Nat.div_eq_of_lt_le (by omega) (by omega)
  rw [chunks, one]
  simp [take_of_length_le le]

def trueIndices (mask : List Bool) : List Nat :=
  (mask.zipIdx.filter (·.1)).map (·.2)

theorem mem_trueIndices (mask : List Bool) (g : Nat) :
    g ∈ trueIndices mask ↔ mask[g]? = some true := by
  simp only [trueIndices, mem_map, mem_filter, Prod.exists, mk_mem_zipIdx_iff_getElem?]
  constructor
  · rintro ⟨bit, i, ⟨at_i, isTrue⟩, rfl⟩
    rw [at_i, isTrue]
  · intro at_g
    exact ⟨true, g, ⟨at_g, rfl⟩, rfl⟩

theorem foldl_keeps {add : σ → α → σ} (Keeps : σ → List α → Prop)
    (step : ∀ y given x, Keeps y given → Keeps (add y x) (given ++ [x])) {y : σ} {given : List α}
    (start : Keeps y given) (xs : List α) : Keeps (xs.foldl add y) (given ++ xs) := by
  induction xs generalizing y given with
  | nil => simpa using start
  | cons x rest ih =>
    have next := ih (step y given x start)
    rwa [append_assoc, singleton_append] at next

variable {f : α → Option σ}

theorem mapM_eq_some_iff {xs : List α} {ys : List σ} :
    xs.mapM f = some ys ↔ List.Forall₂ (fun x y => f x = some y) xs ys := by
  induction xs generalizing ys with
  | nil => simp [eq_comm]
  | cons x rest ih =>
    rw [mapM_cons, forall₂_cons_left_iff]
    simp only [Option.bind_eq_bind, Option.bind_eq_some_iff, Option.pure_def, Option.some.injEq, ← ih]
    constructor
    · rintro ⟨y, first, later, rest, rfl⟩
      exact ⟨y, later, first, rest, rfl⟩
    · rintro ⟨y, later, first, rest, rfl⟩
      exact ⟨y, first, later, rest, rfl⟩

theorem exists_mapM (xs : List α) {P : α → σ → Prop} (each : ∀ x ∈ xs, ∃ y, f x = some y ∧ P x y) :
    ∃ ys, xs.mapM f = some ys ∧ (∀ y ∈ ys, ∃ x ∈ xs, P x y) ∧
      ∀ (i : Nat) x, xs[i]? = some x → ∃ y, ys[i]? = some y ∧ P x y := by
  induction xs with
  | nil => exact ⟨[], rfl, by simp, by simp⟩
  | cons x xs ih =>
    obtain ⟨y, first, holds⟩ := each x (by simp)
    obtain ⟨ys, rest, from_xs, at_xs⟩ := ih fun z mem => each z (by simp [mem])
    refine ⟨y :: ys, ?_, ?_, ?_⟩
    · simp only [mapM_cons, first, rest, Option.bind_eq_bind, Option.bind_some, Option.pure_def]
    · intro z mem
      rcases mem_cons.mp mem with rfl | mem
      · exact ⟨x, by simp, holds⟩
      · obtain ⟨w, inside, related⟩ := from_xs z mem
        exact ⟨w, by simp [inside], related⟩
    · intro i z at_i
      cases i with
      | zero =>
        cases at_i
        exact ⟨y, rfl, holds⟩
      | succ i => exact at_xs i z at_i

theorem mem_trueIndices_of_mapM (answer : σ → Option Bool) {summaries : List σ}
    (total : ∀ y ∈ summaries, ∃ b, answer y = some b) {g : Nat} {y : σ}
    (at_g : summaries[g]? = some y) (yes : answer y = some true) :
    ∃ candidates, (summaries.mapM answer).map trueIndices = some candidates ∧ g ∈ candidates := by
  obtain ⟨mask, answers, -, at_mask⟩ := exists_mapM summaries (f := answer)
    (P := fun y b => answer y = some b)
    fun y mem => (total y mem).imp fun b eq => ⟨eq, eq⟩
  obtain ⟨b, bit, same⟩ := at_mask g y at_g
  rw [yes, Option.some.injEq] at same
  refine ⟨trueIndices mask, by rw [answers, Option.map_some], (mem_trueIndices mask g).mpr ?_⟩
  rw [bit, same]

end WowDb.Lib.Granules
