import WowDb.Lib.F64
import WowDb.Lib.Granules
import WowDb.Storage.SsTable

/-!
# Min/max index of a column

`MinMaxBuilder` and the queries of `MinMaxIndex` in `storage-node/src/index/minmax.rs`.
-/
namespace WowDb.Storage
open WowDb.Lib Granules List

structure MinMaxBuilder where
  granuleSize : Nat
  granules : List GranuleMinMax

namespace MinMaxBuilder

def new (granuleSize : Nat) : MinMaxBuilder := ⟨granuleSize, []⟩

def granule (granuleSize gIdx : Nat) (chunk : List (Option Bytes)) : GranuleMinMax where
  granuleIdx := gIdx % 2 ^ 32
  rowOffset := gIdx * granuleSize
  rowCount := chunk.length % 2 ^ 32
  minVal := least (chunk.filterMap id)
  maxVal := greatest (chunk.filterMap id)

def buildBytes (b : MinMaxBuilder) (values : List (Option Bytes)) : MinMaxBuilder :=
  { b with granules := (chunks b.granuleSize values).mapIdx (granule b.granuleSize) }

def finish (b : MinMaxBuilder) : MinMaxIndex := ⟨b.granules⟩

end MinMaxBuilder

namespace MinMaxIndex

/-- A granule is left out below `lo` or above `hi`; without a bound on either side it is not. -/
def mayMeet (lo hi : Option Bytes) (g : GranuleMinMax) : Bool :=
  (match g.maxVal, lo with
    | some gmax, some lo => !decide (gmax < lo)
    | _, _ => true) &&
  (match g.minVal, hi with
    | some gmin, some hi => !decide (hi < gmin)
    | _, _ => true)

variable (index : MinMaxIndex)

def candidateGranulesRange (lo hi : Option Bytes) : List Nat :=
  trueIndices (index.granules.map (mayMeet lo hi))

def candidateGranulesEq (val : Bytes) : List Nat :=
  index.candidateGranulesRange (some val) (some val)

def startOf (n g : Nat) : Nat :=
  (index.granules[g]?.map (·.rowOffset)).getD n

structure Tiles (index : MinMaxIndex) (n : Nat) : Prop where
  first : index.startOf n 0 = 0
  next : ∀ (g : Nat) granule, index.granules[g]? = some granule →
    granule.rowOffset + granule.rowCount = index.startOf n (g + 1)

structure Sound (index : MinMaxIndex) (granuleSize : Nat) (values : List (Option Bytes)) :
    Prop where
  tiles : index.Tiles values.length
  range : ∀ (lo hi : Option Bytes) (r : Nat) v, values[r]? = some (some v) →
    (∀ l ∈ lo, l ≤ v) → (∀ h ∈ hi, v ≤ h) →
    r / granuleSize ∈ index.candidateGranulesRange lo hi
  eq : ∀ (r : Nat) v, values[r]? = some (some v) → r / granuleSize ∈ index.candidateGranulesEq v

end MinMaxIndex

theorem least_le {values : List Bytes} {v : Bytes} (mem : v ∈ values) :
    ∃ mn, least values = some mn ∧ mn ≤ v := by
  have same : least values = values.min? := by cases values <;> rfl
  obtain ⟨mn, found⟩ := Option.isSome_iff_exists.mp (isSome_min?_of_mem mem)
  exact ⟨mn, same.trans found, (min?_eq_some_iff.mp found).2 v mem⟩

theorem le_greatest {values : List Bytes} {v : Bytes} (mem : v ∈ values) :
    ∃ mx, greatest values = some mx ∧ v ≤ mx := by
  have same : greatest values = values.max? := by cases values <;> rfl
  obtain ⟨mx, found⟩ := Option.isSome_iff_exists.mp (isSome_max?_of_mem mem)
  exact ⟨mx, same.trans found, (max?_eq_some_iff.mp found).2 v mem⟩

namespace MinMaxBuilder

variable {lo hi : Option Bytes}

theorem mayMeet_granule {v : Bytes} (low : ∀ l ∈ lo, l ≤ v)
    (high : ∀ h ∈ hi, v ≤ h) (granuleSize gIdx : Nat) {chunk : List (Option Bytes)}
    (mem : some v ∈ chunk) : MinMaxIndex.mayMeet lo hi (granule granuleSize gIdx chunk) = true := by
  have nonNull : v ∈ chunk.filterMap id := mem_filterMap.mpr ⟨some v, mem, rfl⟩
  obtain ⟨mn, isLeast, below⟩ := least_le nonNull
  obtain ⟨mx, isGreatest, above⟩ := le_greatest nonNull
  simp only [MinMaxIndex.mayMeet, granule, isLeast, isGreatest, Bool.and_eq_true]
  constructor
  · cases lo with
    | none => rfl
    | some l => simpa using (low l rfl).trans above
  · cases hi with
    | none => rfl
    | some h => simpa using below.trans (high h rfl)

variable {granuleSize : Nat} (values : List (Option Bytes))

variable (pos : 1 ≤ granuleSize)

include pos

theorem mem_candidateGranulesRange {r : Nat} {v : Bytes}
    (row : values[r]? = some (some v)) (low : ∀ l ∈ lo, l ≤ v) (high : ∀ h ∈ hi, v ≤ h) :
    r / granuleSize ∈
      ((new granuleSize).buildBytes values).finish.candidateGranulesRange lo hi := by
  obtain ⟨chunk, at_g, mem⟩ := exists_chunk_of_row pos row
  rw [MinMaxIndex.candidateGranulesRange, mem_trueIndices]
  simp [finish, buildBytes, new, getElem?_mapIdx, at_g, mayMeet_granule low high granuleSize _ mem]

theorem getElem?_granules (g : Nat) :
    ((new granuleSize).buildBytes values).finish.granules[g]? =
      if g * granuleSize < values.length then
        some (granule granuleSize g ((values.drop (g * granuleSize)).take granuleSize))
      else none := by
  simp only [finish, buildBytes, new, getElem?_mapIdx, getElem?_chunks pos]
  split <;> rfl

theorem startOf_finish (g : Nat) :
    ((new granuleSize).buildBytes values).finish.startOf values.length g =
      if g * granuleSize < values.length then g * granuleSize else values.length := by
  rw [MinMaxIndex.startOf, getElem?_granules values pos]
  split <;> rfl

theorem ends_at_next_iff {g : Nat} (inside : g * granuleSize < values.length) :
    (granule granuleSize g ((values.drop (g * granuleSize)).take granuleSize)).rowOffset +
        (granule granuleSize g ((values.drop (g * granuleSize)).take granuleSize)).rowCount =
      ((new granuleSize).buildBytes values).finish.startOf values.length (g + 1) ↔
    min granuleSize (values.length - g * granuleSize) < 2 ^ 32 := by
  simp only [startOf_finish values pos, granule, length_take, length_drop, Nat.add_mul,
    Nat.one_mul]
  split <;> omega

theorem tiles_iff :
    ((new granuleSize).buildBytes values).finish.Tiles values.length ↔
      min granuleSize values.length < 2 ^ 32 := by
  constructor
  · intro tiles
    -- the first granule is the longest
    by_cases empty : values.length = 0
    · omega
    · have inside : 0 * granuleSize < values.length := by omega
      have ends := tiles.next 0 _ ((getElem?_granules values pos 0).trans (if_pos inside))
      simpa using (ends_at_next_iff values pos inside).mp ends
  · intro small
    constructor
    · rw [startOf_finish values pos]
      split <;> omega
    · intro g built at_g
      rw [getElem?_granules values pos] at at_g
      split at at_g
      · next inside =>
        cases at_g
        exact (ends_at_next_iff values pos inside).mpr (by omega)
      · cases at_g

omit pos

/-- Exactly when no granule has 2³² rows. -/
theorem sound_iff_counts_fit (pos : 1 ≤ granuleSize) :
    ((new granuleSize).buildBytes values).finish.Sound granuleSize values ↔
      min granuleSize values.length < 2 ^ 32 := by
  constructor
  · intro sound
    exact (tiles_iff values pos).mp sound.tiles
  · intro small
    refine ⟨(tiles_iff values pos).mpr small, fun lo hi r v row low high => ?_, fun r v row => ?_⟩
    · exact mem_candidateGranulesRange values pos row low high
    · exact mem_candidateGranulesRange values pos row (by simp) (by simp)

theorem three_rows_sound : 1 ≤ 2 ∧ ((new 2).buildBytes [some [1], none, some [3]]).finish.Sound 2
      [some [1], none, some [3]] :=
  ⟨by decide, (sound_iff_counts_fit [some [1], none, some [3]] (by decide)).mpr (by decide)⟩

theorem finish_nulls {n : Nat} (pos : 0 < n) :
    ((new n).buildBytes (replicate n none)).finish = ⟨[⟨0, 0, n % 2 ^ 32, none, none⟩]⟩ := by
  have one : chunks n (replicate n (none : Option Bytes)) = [replicate n none] :=
    chunks_of_length_le (by simpa using pos) (by simp)
  simp [finish, buildBytes, new, one, mapIdx_cons, mapIdx_nil, granule, length_replicate,
    filterMap_replicate_of_none, least, greatest]

theorem full_granule_counts_nothing :
    ((new (2 ^ 32)).buildBytes (replicate (2 ^ 32) none)).finish = ⟨[⟨0, 0, 0, none, none⟩]⟩ ∧
      ¬ ((new (2 ^ 32)).buildBytes (replicate (2 ^ 32) none)).finish.Sound (2 ^ 32)
        (replicate (2 ^ 32) none) := by
  have built := finish_nulls (Nat.two_pow_pos 32)
  rw [Nat.mod_self] at built
  refine ⟨built, fun sound => ?_⟩
  have ends := sound.tiles.next 0 ⟨0, 0, 0, none, none⟩ (by rw [built]; rfl)
  rw [built, length_replicate] at ends
  simp [MinMaxIndex.startOf] at ends

end MinMaxBuilder

end WowDb.Storage
