import WowDb.Lib.OrdMap

/-!
# Doubly linked lists threaded through a map

Each key of a map carries the key before and the key after it.
-/
namespace WowDb.Lib
open List

structure Link (κ ν : Type) where
  item : ν
  prev : Option κ
  next : Option κ
  deriving DecidableEq

namespace LinkedMap

variable {κ ν : Type} [LinearOrder κ]

def setNext (m : OrdMap κ (Link κ ν)) (place next : Option κ) : OrdMap κ (Link κ ν) :=
  match place with
  | none => m
  | some k => m.modify k fun link => { link with next }

def setPrev (m : OrdMap κ (Link κ ν)) (place prev : Option κ) : OrdMap κ (Link κ ν) :=
  match place with
  | none => m
  | some k => m.modify k fun link => { link with prev }

variable {m : OrdMap κ (Link κ ν)} {place : Option κ} {k : κ}

theorem get?_setNext_of_ne (next : Option κ) (other : place ≠ some k) :
    (setNext m place next).get? k = m.get? k := by
  cases place with
  | none => rfl
  | some j =>
    have ne : k ≠ j := fun same => other (same ▸ rfl)
    simp [setNext, OrdMap.get?_modify, ne]

theorem get?_setPrev_of_ne (prev : Option κ) (other : place ≠ some k) :
    (setPrev m place prev).get? k = m.get? k := by
  cases place with
  | none => rfl
  | some j =>
    have ne : k ≠ j := fun same => other (same ▸ rfl)
    simp [setPrev, OrdMap.get?_modify, ne]

def firstKey (entries : List (κ × ν)) : Option κ := entries.head?.map Prod.fst

def lastKey (entries : List (κ × ν)) : Option κ := entries.getLast?.map Prod.fst

variable {entries : List (κ × ν)}

omit [LinearOrder κ] in
theorem mem_of_firstKey (first : firstKey entries = some k) : k ∈ entries.map Prod.fst := by
  obtain ⟨e, head, rfl⟩ := Option.map_eq_some_iff.mp first
  exact mem_map_of_mem (mem_of_mem_head? head)

omit [LinearOrder κ] in
theorem mem_of_lastKey (last : lastKey entries = some k) : k ∈ entries.map Prod.fst := by
  obtain ⟨e, final, rfl⟩ := Option.map_eq_some_iff.mp last
  exact mem_map_of_mem (mem_of_getLast? final)

def Segment (m : OrdMap κ (Link κ ν)) : Option κ → List (κ × ν) → Option κ → Prop
  | _, [], _ => True
  | before, e :: rest, after =>
    m.get? e.1 = some ⟨e.2, before, (firstKey rest).or after⟩ ∧ Segment m (some e.1) rest after

variable {before after : Option κ}

theorem Segment.congr {n : OrdMap κ (Link κ ν)} (segment : Segment m before entries after)
    (same : ∀ k ∈ entries.map Prod.fst, n.get? k = m.get? k) : Segment n before entries after := by
  induction entries generalizing before with
  | nil => trivial
  | cons e rest ih =>
    obtain ⟨here, later⟩ := segment
    exact ⟨(same e.1 (by simp)).trans here, ih later fun k member => same k (by simp_all)⟩

variable {e : κ × ν}

theorem Segment.get? (segment : Segment m before entries after) (member : e ∈ entries) :
    ∃ prev next, m.get? e.1 = some ⟨e.2, prev, next⟩ := by
  induction entries generalizing before with
  | nil => cases member
  | cons f rest ih =>
    obtain ⟨here, later⟩ := segment
    rcases mem_cons.mp member with rfl | inRest
    · exact ⟨_, _, here⟩
    · exact ih later inRest

theorem Segment.map (f : ν → ν) (segment : Segment m before entries after) :
    Segment (m.map fun link => { link with item := f link.item }) before
      (entries.map fun e => (e.1, f e.2)) after := by
  induction entries generalizing before with
  | nil => trivial
  | cons e rest ih =>
    obtain ⟨here, later⟩ := segment
    refine ⟨?_, ih later⟩
    rw [OrdMap.get?_map, here]
    simp [firstKey, Function.comp_def]

variable {xs ys : List (κ × ν)}

theorem segment_append : Segment m before (xs ++ ys) after ↔
      Segment m before xs ((firstKey ys).or after) ∧
      Segment m ((lastKey xs).or before) ys after := by
  induction xs generalizing before with
  | nil => simp [Segment, lastKey]
  | cons e rest ih =>
    rw [cons_append, Segment, Segment, ih, and_assoc]
    have next : (firstKey (rest ++ ys)).or after = (firstKey rest).or ((firstKey ys).or after) := by
      cases rest <;> simp [firstKey]
    have prev : (lastKey (e :: rest)).or before = (lastKey rest).or (some e.1) := by
      simp only [lastKey, getLast?_cons]
      cases rest.getLast? <;> rfl
    rw [next, prev]

theorem Segment.at_split (segment : Segment m none (xs ++ e :: ys) none) :
    m.get? e.1 = some ⟨e.2, lastKey xs, firstKey ys⟩ := by
  obtain ⟨-, here, -⟩ := segment_append.mp segment
  simpa only [Option.or_none] using here

theorem Segment.setNext (segment : Segment m before entries after)
    (distinct : (entries.map Prod.fst).Nodup) (next : Option κ) :
    Segment (LinkedMap.setNext m (lastKey entries) next) before entries next := by
  rcases eq_nil_or_concat' entries with rfl | ⟨xs, e, rfl⟩
  · trivial
  · obtain ⟨front, last, -⟩ := segment_append.mp segment
    have final : lastKey (xs ++ [e]) = some e.1 := by simp [lastKey]
    rw [final, segment_append]
    refine ⟨front.congr fun k member => get?_setNext_of_ne next ?_, ?_, trivial⟩
    · rintro ⟨⟩
      simp only [map_append, nodup_append] at distinct
      exact distinct.2.2 _ member _ (by simp) rfl
    · simp [LinkedMap.setNext, OrdMap.get?_modify, last, firstKey]

theorem Segment.setPrev (segment : Segment m before entries after)
    (distinct : (entries.map Prod.fst).Nodup) (prev : Option κ) :
    Segment (LinkedMap.setPrev m (firstKey entries) prev) prev entries after := by
  cases entries with
  | nil => trivial
  | cons e rest =>
    obtain ⟨here, later⟩ := segment
    refine ⟨?_, later.congr fun k member => get?_setPrev_of_ne prev ?_⟩
    · simp [LinkedMap.setPrev, OrdMap.get?_modify, here, firstKey]
    · rintro ⟨⟩
      exact (nodup_cons.mp distinct).1 member

variable {others : List (κ × ν)}

theorem Segment.frame_setPrev (segment : Segment m before entries after)
    (apart : (entries.map Prod.fst).Disjoint (others.map Prod.fst)) (prev : Option κ) :
    Segment (LinkedMap.setPrev m (firstKey others) prev) before entries after :=
  segment.congr fun _ member =>
    get?_setPrev_of_ne prev fun first => apart member (mem_of_firstKey first)

theorem Segment.frame_setNext (segment : Segment m before entries after)
    (apart : (entries.map Prod.fst).Disjoint (others.map Prod.fst)) (next : Option κ) :
    Segment (LinkedMap.setNext m (lastKey others) next) before entries after :=
  segment.congr fun _ member =>
    get?_setNext_of_ne next fun last => apart member (mem_of_lastKey last)

theorem Segment.frame_modify (segment : Segment m before entries after)
    (absent : k ∉ entries.map Prod.fst) (f : Link κ ν → Link κ ν) :
    Segment (m.modify k f) before entries after := by
  refine segment.congr fun j member => ?_
  have ne : j ≠ k := fun same => absent (same ▸ member)
  simp [OrdMap.get?_modify, ne]

theorem Segment.moveToFront {v : ν} (segment : Segment m none (xs ++ (k, v) :: ys) none)
    (distinct : ((xs ++ (k, v) :: ys).map Prod.fst).Nodup) (later : xs ≠ []) :
    Segment ((LinkedMap.setPrev (LinkedMap.setPrev (LinkedMap.setNext m (lastKey xs) (firstKey ys))
          (firstKey ys) (lastKey xs)) (firstKey xs) (some k)).modify k
        fun link => { link with prev := none, next := firstKey xs })
      none ((k, v) :: (xs ++ ys)) none := by
  obtain ⟨front, here, back⟩ := segment_append.mp segment
  rw [map_append, map_cons, nodup_append] at distinct
  obtain ⟨distinctFront, distinctBack, apart⟩ := distinct
  obtain ⟨notBack, distinctBack⟩ := nodup_cons.mp distinctBack
  have notFront : k ∉ xs.map Prod.fst := fun member => apart k member k (by simp) rfl
  have frontBack : (xs.map Prod.fst).Disjoint (ys.map Prod.fst) :=
    fun j inFront inBack => apart j inFront j (by simp [inBack]) rfl
  have backFront : (ys.map Prod.fst).Disjoint (xs.map Prod.fst) :=
    fun j inBack inFront => frontBack inFront inBack
  -- the part before the entry: its end now leads to `ys`, its start comes after `k`
  have newFront := (((front.setNext distinctFront (firstKey ys)).frame_setPrev frontBack
    (lastKey xs)).setPrev distinctFront (some k)).frame_modify notFront
      fun link => { link with prev := none, next := firstKey xs }
  -- the part behind the entry: its start now comes after `xs`
  have newBack := (((back.frame_setNext backFront (firstKey ys)).setPrev distinctBack
    (lastKey xs)).frame_setPrev backFront (some k)).frame_modify notBack
      fun link => { link with prev := none, next := firstKey xs }
  obtain ⟨e, rest, rfl⟩ := exists_cons_of_ne_nil later
  obtain ⟨j, last⟩ : ∃ j, lastKey (e :: rest) = some j := by simp [lastKey, getLast?_cons]
  refine ⟨?_, segment_append.mpr ⟨by simpa using newFront, by simpa [last] using newBack⟩⟩
  have kept := get?_setPrev_of_ne (m := LinkedMap.setPrev (LinkedMap.setNext m
      (lastKey (e :: rest)) (firstKey ys)) (firstKey ys) (lastKey (e :: rest))) (some k)
    fun first => notFront (mem_of_firstKey first)
  rw [get?_setPrev_of_ne _ fun first => notBack (mem_of_firstKey first),
    get?_setNext_of_ne _ fun final => notFront (mem_of_lastKey final), here] at kept
  rw [OrdMap.get?_modify, if_pos rfl, kept]
  simp [firstKey]

theorem Segment.pushFront (segment : Segment m none entries none)
    (distinct : (entries.map Prod.fst).Nodup) (absent : k ∉ entries.map Prod.fst) (v : ν) :
    Segment ((LinkedMap.setPrev m (firstKey entries) (some k)).insert k
      ⟨v, none, firstKey entries⟩) none ((k, v) :: entries) none := by
  refine ⟨by simp [OrdMap.get?_insert], ?_⟩
  refine (segment.setPrev distinct (some k)).congr fun j member => ?_
  have ne : j ≠ k := fun same => absent (same ▸ member)
  simp [OrdMap.get?_insert, ne]

theorem Segment.popBack (segment : Segment m none (xs ++ [e]) none)
    (distinct : ((xs ++ [e]).map Prod.fst).Nodup) :
    Segment (LinkedMap.setNext (m.erase e.1) (lastKey xs) none) none xs none := by
  obtain ⟨front, -⟩ := segment_append.mp segment
  rw [map_append, nodup_append] at distinct
  have erased : Segment (m.erase e.1) none xs _ := front.congr fun j member => by
    have ne : j ≠ e.1 := distinct.2.2 j member e.1 (by simp)
    simp [OrdMap.get?_erase, ne]
  exact erased.setNext distinct.1 none

omit [LinearOrder κ] in
theorem split_unique {us vs : List (κ × ν)} {f : κ × ν} (same : xs ++ e :: ys = us ++ f :: vs)
    (key : e.1 = f.1) (distinct : ((xs ++ e :: ys).map Prod.fst).Nodup) : xs = us ∧ ys = vs := by
  rw [map_append, map_cons, nodup_middle, nodup_cons, mem_append, not_or, key] at distinct
  obtain ⟨front, -, back⟩ := (append_cons_inj_of_notMem (mt mem_map_of_mem distinct.1.1)
    (mt mem_map_of_mem distinct.1.2)).mp same
  exact ⟨front, back⟩

theorem Segment.next_iff_prev (segment : Segment m none entries none)
    (distinct : (entries.map Prod.fst).Nodup) {f : κ × ν} (inE : e ∈ entries) (inF : f ∈ entries)
    {linkE linkF : Link κ ν} (atE : m.get? e.1 = some linkE) (atF : m.get? f.1 = some linkF) :
    linkE.next = some f.1 ↔ linkF.prev = some e.1 := by
  obtain ⟨xs, ys, splitE⟩ := append_of_mem inE
  obtain ⟨us, vs, splitF⟩ := append_of_mem inF
  have hereE := (splitE ▸ segment).at_split
  have hereF := (splitF ▸ segment).at_split
  rw [atE, Option.some.injEq] at hereE
  rw [atF, Option.some.injEq] at hereF
  simp only [hereE, hereF]
  constructor
  · intro next
    obtain ⟨g, isFirst, key⟩ := Option.map_eq_some_iff.mp next
    obtain ⟨rest, rfl⟩ := head?_eq_some_iff.mp isFirst
    have both : (xs ++ [e]) ++ g :: rest = us ++ f :: vs := by
      rw [← splitF, splitE]
      simp
    obtain ⟨rfl, -⟩ := split_unique both key (by simpa [splitE] using distinct)
    simp [lastKey]
  · intro prev
    obtain ⟨g, isLast, key⟩ := Option.map_eq_some_iff.mp prev
    obtain ⟨front, rfl⟩ := getLast?_eq_some_iff.mp isLast
    have both : front ++ g :: (f :: vs) = xs ++ e :: ys := by
      rw [← splitE, splitF]
      simp
    obtain ⟨-, rfl⟩ := split_unique both key (by simpa [splitF] using distinct)
    rfl

theorem get?_setNext_eq_none {next : Option κ} :
    (setNext m place next).get? k = none ↔ m.get? k = none := by
  cases place with
  | none => rfl
  | some j =>
    rw [setNext, OrdMap.get?_modify]
    by_cases same : k = j <;> simp [same]

theorem get?_setPrev_eq_none {prev : Option κ} :
    (setPrev m place prev).get? k = none ↔ m.get? k = none := by
  cases place with
  | none => rfl
  | some j =>
    rw [setPrev, OrdMap.get?_modify]
    by_cases same : k = j <;> simp [same]

end LinkedMap
end WowDb.Lib

namespace WowDb.Lib.Recency

variable {κ ν : Type} [DecidableEq κ] (size : ν → Nat)

def total (entries : List (κ × ν)) : Nat := (entries.map fun e => size e.2).sum

def without (k : κ) (entries : List (κ × ν)) : List (κ × ν) := entries.filter (·.1 ≠ k)

def get (k : κ) (entries : List (κ × ν)) : Option ν × List (κ × ν) :=
  match entries.lookup k with
  | none => (none, entries)
  | some v => (some v, (k, v) :: without k entries)

/-- Drops the first entries until `need` more fits. -/
def evictOldest (max need : Nat) : List (κ × ν) → List (κ × ν)
  | [] => []
  | e :: rest => if max < total size (e :: rest) + need then evictOldest max need rest else e :: rest

def insert (max : Nat) (k : κ) (v : ν) (entries : List (κ × ν)) : List (κ × ν) :=
  match entries.lookup k with
  | some _ => (k, v) :: without k entries
  | none => (k, v) :: (evictOldest size max (size v) entries.reverse).reverse

variable {size}

omit [DecidableEq κ] in
theorem evictOldest_of_fits {max need : Nat} {entries : List (κ × ν)}
    (fits : entries ≠ [] → total size entries + need ≤ max) :
    evictOldest size max need entries = entries := by
  cases entries with
  | nil => rfl
  | cons e rest => rw [evictOldest, if_neg (Nat.not_lt.mpr (fits (by simp)))]

end WowDb.Lib.Recency
