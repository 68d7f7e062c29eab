import WowDb.Lib.F64
import WowDb.Lib.Granules
import WowDb.Storage.SsTable

/-!
# N-gram index of a column

`storage-node/src/index/ngrambf.rs`, over any Bloom filter that forgets nothing.
-/
namespace WowDb.Storage
open WowDb.Lib Granules List

structure BloomCrate (κ : Type) where
  Filter : Type
  newForFpRate : Nat → Nat → F64 → Filter
  set : Filter → κ → Filter
  check : Filter → κ → Bool
  check_set_self : ∀ f k, check (set f k) k = true
  check_set_of_check : ∀ f k j, check f j = true → check (set f k) j = true

def BloomCrate.exact (κ : Type) [DecidableEq κ] : BloomCrate κ where
  Filter := List κ
  newForFpRate _ _ _ := []
  set f k := k :: f
  check f k := decide (k ∈ f)
  check_set_self f k := by simp
  check_set_of_check f k j present := by simpa using Or.inr (of_decide_eq_true present)

def octets (s : String) : Bytes := Text.encode s.toList

def ngrams (s : String) (n : Nat) : List Bytes :=
  (range ((octets s).length - (n - 1))).map fun i =>
    ((octets s).drop i).take (min n ((octets s).length - i))

theorem mem_ngrams_iff {n : Nat} (pos : 1 ≤ n) (s : String) (w : Bytes) :
    w ∈ ngrams s n ↔ w.length = n ∧ w <:+: octets s := by
  rw [ngrams, mem_map]
  constructor
  · rintro ⟨i, inside, rfl⟩
    rw [mem_range] at inside
    refine ⟨?_, ?_⟩
    · rw [length_take, length_drop]
      omega
    · exact (List.take_prefix _ _).isInfix.trans (List.drop_suffix _ _).isInfix
  · rintro ⟨length, before, after, split⟩
    have total := congrArg List.length split
    rw [List.length_append, List.length_append, length] at total
    refine ⟨before.length, List.mem_range.mpr (by omega), ?_⟩
    rw [Nat.min_eq_left (by omega), ← split, List.append_assoc, List.drop_left, ← length,
      List.take_left]

theorem octets_of_part {needle s : String} (part : needle.toList <:+: s.toList) :
    octets needle <:+: octets s := by
  obtain ⟨before, after, split⟩ := part
  refine ⟨Text.encode before, Text.encode after, ?_⟩
  rw [octets, octets, ← split, Text.encode_append, Text.encode_append]

structure NgramBfGranule (C : BloomCrate Bytes) where
  bloom : C.Filter
  n : Nat

namespace NgramBfGranule

variable {C : BloomCrate Bytes}

def new (C : BloomCrate Bytes) (draw n : Nat) (falsePositiveRate : F64) (expectedInsertions : Nat) :
    NgramBfGranule C :=
  ⟨C.newForFpRate draw (max expectedInsertions 1) falsePositiveRate, n⟩

def insert (g : NgramBfGranule C) (s : String) : NgramBfGranule C :=
  { g with bloom := (ngrams s g.n).foldl C.set g.bloom }

def canSkipContains (g : NgramBfGranule C) (needle : String) : Bool :=
  if (octets needle).length < g.n then false
  else (ngrams needle g.n).any fun ngram => !C.check g.bloom ngram

def canSkipStartsWith (g : NgramBfGranule C) (start : String) : Bool := g.canSkipContains start

def canSkipEq (g : NgramBfGranule C) (val : String) : Bool := g.canSkipContains val

theorem check_of_set_all {f : C.Filter} {ws : List Bytes} {w : Bytes}
    (known : w ∈ ws ∨ C.check f w = true) : C.check (ws.foldl C.set f) w = true := by
  induction ws generalizing f with
  | nil => exact known.resolve_left (by simp)
  | cons v rest ih =>
    refine ih ?_
    rcases known with mem | before
    · rcases mem_cons.mp mem with rfl | later
      · exact Or.inr (C.check_set_self f w)
      · exact Or.inl later
    · exact Or.inr (C.check_set_of_check f v w before)

def Knows (g : NgramBfGranule C) (given : List String) : Prop :=
  ∀ s ∈ given, ∀ w ∈ ngrams s g.n, C.check g.bloom w = true

variable {g : NgramBfGranule C} {given : List String}

theorem Knows.insert (knows : g.Knows given) (s : String) : (g.insert s).Knows (given ++ [s]) := by
  intro t mem w part
  rcases mem_append.mp mem with old | new
  · exact check_of_set_all (Or.inr (knows t old w part))
  · rw [mem_singleton.mp new] at part
    exact check_of_set_all (Or.inl part)

theorem Knows.insertAll (knows : g.Knows given) (strings : List String) :
    (strings.foldl NgramBfGranule.insert g).Knows (given ++ strings) ∧
      (strings.foldl NgramBfGranule.insert g).n = g.n :=
  foldl_keeps (fun (h : NgramBfGranule C) given => h.Knows given ∧ h.n = g.n)
    (fun _ _ s kept => ⟨Knows.insert kept.1 s, kept.2⟩) ⟨knows, rfl⟩ strings

theorem Knows.canSkipContains (knows : g.Knows given) (pos : 1 ≤ g.n) {s needle : String}
    (mem : s ∈ given) (part : octets needle <:+: octets s) : g.canSkipContains needle = false := by
  unfold NgramBfGranule.canSkipContains
  split
  · rfl
  · rw [any_eq_false]
    intro w ofNeedle missing
    obtain ⟨length, inNeedle⟩ := (mem_ngrams_iff pos needle w).mp ofNeedle
    have present := knows s mem w ((mem_ngrams_iff pos s w).mpr ⟨length, inNeedle.trans part⟩)
    rw [present] at missing
    cases missing

end NgramBfGranule

structure NgramBfIndex (C : BloomCrate Bytes) where
  granules : List (NgramBfGranule C)
  granuleSize : Nat

namespace NgramBfIndex

variable {C : BloomCrate Bytes}

def buildGranule (C : BloomCrate Bytes) (n : Nat) (fpRate : F64) (i : Nat) (chunk : List String) :
    NgramBfGranule C :=
  let totalNgrams := (chunk.map fun s => (octets s).length - (n - 1)).sum
  chunk.foldl NgramBfGranule.insert (.new C i n fpRate (max totalNgrams 1))

def build (C : BloomCrate Bytes) (values : List String) (granuleSize n : Nat) (fpRate : F64) :
    NgramBfIndex C where
  granules := (chunks granuleSize values).mapIdx (buildGranule C n fpRate)
  granuleSize

variable (index : NgramBfIndex C)

def skipMaskContains (needle : String) : List Bool :=
  index.granules.map fun g => g.canSkipContains needle

def skipMaskEq (val : String) : List Bool :=
  index.granules.map fun g => g.canSkipEq val

def granule (idx : Nat) : Option (NgramBfGranule C) := index.granules[idx]?

theorem granule_build {granuleSize : Nat} (pos : 1 ≤ granuleSize) (n : Nat) (fpRate : F64)
    {values : List String} {r : Nat} {s : String} (row : values[r]? = some s) :
    ∃ g given, (build C values granuleSize n fpRate).granule (r / granuleSize) = some g ∧
      g.Knows given ∧ s ∈ given ∧ g.n = n := by
  obtain ⟨chunk, at_g, mem⟩ := exists_chunk_of_row pos row
  have nothing : (NgramBfGranule.new C (r / granuleSize) n fpRate
      (max (chunk.map fun s => (octets s).length - (n - 1)).sum 1)).Knows [] := by simp
        [NgramBfGranule.Knows]
  obtain ⟨knows, same⟩ := nothing.insertAll chunk
  refine ⟨buildGranule C n fpRate (r / granuleSize) chunk, chunk, ?_, knows, mem, same⟩
  rw [granule, build, getElem?_mapIdx, at_g, Option.map_some]

/-- Granules of matching texts are never skipped. -/
theorem text_never_skipped (C : BloomCrate Bytes) {granuleSize n : Nat} (size : 1 ≤ granuleSize)
    (pos : 1 ≤ n) (fpRate : F64) (values : List String) {r : Nat} {s : String}
    (row : values[r]? = some s) (needle : String) :
    let index := build C values granuleSize n fpRate
    (needle.toList <:+: s.toList → (index.skipMaskContains needle)[r / granuleSize]? = some false) ∧
      (needle.toList <+: s.toList → ∃ g, index.granule (r / granuleSize) = some g ∧
        g.canSkipStartsWith needle = false) ∧
      (needle = s → (index.skipMaskEq needle)[r / granuleSize]? = some false) := by
  intro index
  obtain ⟨g, given, at_r, knows, mem, rfl⟩ := granule_build (C := C) size n fpRate row
  have here : index.granules[r / granuleSize]? = some g := at_r
  refine ⟨fun part => ?_, fun start => ⟨g, at_r, ?_⟩, fun same => ?_⟩
  · rw [skipMaskContains, getElem?_map, here, Option.map_some,
      knows.canSkipContains pos mem (octets_of_part part)]
  · exact knows.canSkipContains pos mem (octets_of_part start.isInfix)
  · rw [skipMaskEq, getElem?_map, here, Option.map_some, NgramBfGranule.canSkipEq,
      knows.canSkipContains pos mem (same ▸ infix_refl _)]

theorem cafe_not_skipped :
    1 ≤ 8 ∧ 1 ≤ 3 ∧ ["tea", "café"][1]? = some "café" ∧ "fé".toList <:+: "café".toList ∧
      ((build (BloomCrate.exact Bytes) ["tea", "café"] 8 3 (.ofNat 0)).skipMaskContains "fé")[1 / 8]? =
        some false := by
  have part : "fé".toList <:+: "café".toList := ⟨['c', 'a'], [], rfl⟩
  exact ⟨by decide, by decide, rfl, part, (text_never_skipped (BloomCrate.exact Bytes) (by decide)
    (by decide) (.ofNat 0) ["tea", "café"] rfl "fé").1 part⟩

end NgramBfIndex

end WowDb.Storage
