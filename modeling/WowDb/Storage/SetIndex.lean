import WowDb.Lib.Granules

/-!
# Set index of a column

`storage-node/src/index/set_index.rs`.
-/
namespace WowDb.Storage
open WowDb.Lib Granules List

structure GranuleSetIndex where
  values : Finset String
  maxValues : Nat
  overflow : Bool
  deriving DecidableEq

namespace GranuleSetIndex

def new (maxValues : Nat) : GranuleSetIndex := ⟨∅, maxValues, false⟩

def insert (g : GranuleSetIndex) (val : String) : GranuleSetIndex :=
  if g.overflow then g
  else
    let values := Insert.insert val g.values
    if g.maxValues < values.card then { g with values := ∅, overflow := true }
    else { g with values }

def canSkipIn (g : GranuleSetIndex) (candidates : Finset String) : Bool :=
  if g.overflow then false else decide (∀ v ∈ candidates, v ∉ g.values)

def canSkipEq (g : GranuleSetIndex) (val : String) : Bool :=
  if g.overflow then false else decide (val ∉ g.values)

def canSkipNotIn (g : GranuleSetIndex) (excluded : Finset String) : Bool :=
  if g.overflow then false
  else decide (g.values ≠ ∅) && decide (∀ v ∈ g.values, v ∈ excluded)

def Keeps (g : GranuleSetIndex) (given : List String) : Prop :=
  g.overflow = true ∨ g.values = given.toFinset

theorem keeps_new (maxValues : Nat) : (new maxValues).Keeps [] := Or.inr rfl

theorem Keeps.insert {g : GranuleSetIndex} {given : List String} (keeps : g.Keeps given)
    (val : String) : (g.insert val).Keeps (given ++ [val]) := by
  unfold GranuleSetIndex.insert
  split
  · next full => exact Or.inl full
  · next room =>
    have same := keeps.resolve_left room
    dsimp only
    split
    · exact Or.inl rfl
    · refine Or.inr ?_
      ext v
      simp [same]

theorem Keeps.insertAll {g : GranuleSetIndex} {given : List String} (keeps : g.Keeps given)
    (vals : List String) : (vals.foldl GranuleSetIndex.insert g).Keeps (given ++ vals) :=
  foldl_keeps Keeps (fun _ _ val kept => Keeps.insert kept val) keeps vals

section Skips

variable {g : GranuleSetIndex} {given : List String} {v : String}

theorem Keeps.canSkipIn (keeps : g.Keeps given) (mem : v ∈ given) {candidates : Finset String}
    (wanted : v ∈ candidates) : g.canSkipIn candidates = false := by
  rcases keeps with full | same
  · rw [GranuleSetIndex.canSkipIn, if_pos full]
  · rw [GranuleSetIndex.canSkipIn, same]
    split
    · rfl
    · exact decide_eq_false fun absent => absent v wanted (mem_toFinset.mpr mem)

theorem Keeps.canSkipEq (keeps : g.Keeps given) (mem : v ∈ given) : g.canSkipEq v = false := by
  rcases keeps with full | same
  · rw [GranuleSetIndex.canSkipEq, if_pos full]
  · rw [GranuleSetIndex.canSkipEq, same]
    split
    · rfl
    · exact decide_eq_false fun absent => absent (mem_toFinset.mpr mem)

theorem Keeps.canSkipNotIn (keeps : g.Keeps given) (mem : v ∈ given) {excluded : Finset String}
    (wanted : v ∉ excluded) : g.canSkipNotIn excluded = false := by
  rcases keeps with full | same
  · rw [GranuleSetIndex.canSkipNotIn, if_pos full]
  · rw [GranuleSetIndex.canSkipNotIn, same]
    split
    · rfl
    · have kept : ¬ ∀ w ∈ given.toFinset, w ∈ excluded :=
        fun all => wanted (all v (mem_toFinset.mpr mem))
      rw [decide_eq_false kept, Bool.and_false]

end Skips

end GranuleSetIndex

structure SetIndex where
  granules : List GranuleSetIndex
  granuleSize : Nat
  maxValues : Nat
  deriving DecidableEq

namespace SetIndex

def build (values : List String) (granuleSize maxValues : Nat) : SetIndex where
  granules := (chunks granuleSize values).map fun chunk =>
    chunk.foldl GranuleSetIndex.insert (.new maxValues)
  granuleSize
  maxValues

variable (index : SetIndex)

def skipMaskIn (candidates : Finset String) : List Bool :=
  index.granules.map fun g => g.canSkipIn candidates

def skipMaskEq (val : String) : List Bool :=
  index.granules.map fun g => g.canSkipEq val

def granule (idx : Nat) : Option GranuleSetIndex := index.granules[idx]?

theorem granule_build {granuleSize : Nat} (pos : 1 ≤ granuleSize) (maxValues : Nat)
    {values : List String} {r : Nat} {v : String} (row : values[r]? = some v) :
    ∃ g given, (build values granuleSize maxValues).granule (r / granuleSize) = some g ∧
      g.Keeps given ∧ v ∈ given := by
  obtain ⟨chunk, at_g, mem⟩ := exists_chunk_of_row pos row
  refine ⟨_, chunk, ?_, (GranuleSetIndex.keeps_new maxValues).insertAll chunk, mem⟩
  rw [granule, build, getElem?_map, at_g, Option.map_some]

/-- Granules of satisfying values are never skipped. -/
theorem value_never_skipped {granuleSize : Nat} (pos : 1 ≤ granuleSize) (maxValues : Nat)
    (values : List String) {r : Nat} {v : String} (row : values[r]? = some v) :
    let index := build values granuleSize maxValues
    (∀ candidates, v ∈ candidates → (index.skipMaskIn candidates)[r / granuleSize]? = some false) ∧
      (index.skipMaskEq v)[r / granuleSize]? = some false ∧
      ∃ g, index.granule (r / granuleSize) = some g ∧
        ∀ excluded, v ∉ excluded → g.canSkipNotIn excluded = false := by
  intro index
  obtain ⟨g, given, at_r, keeps, mem⟩ := granule_build pos maxValues row
  have here : index.granules[r / granuleSize]? = some g := at_r
  refine ⟨fun candidates wanted => ?_, ?_, g, at_r, fun excluded => keeps.canSkipNotIn mem⟩
  · rw [skipMaskIn, getElem?_map, here, Option.map_some, keeps.canSkipIn mem wanted]
  · rw [skipMaskEq, getElem?_map, here, Option.map_some, keeps.canSkipEq mem]

theorem overflowed_not_skipped : 1 ≤ 4 ∧ ["a", "b", "c"][2]? = some "c" ∧
      ((build ["a", "b", "c"] 4 1).skipMaskIn {"c", "x"})[2 / 4]? = some false :=
  ⟨by decide, rfl, (value_never_skipped (by decide) 1 ["a", "b", "c"] rfl).1 _ (by decide)⟩

end SetIndex

end WowDb.Storage
