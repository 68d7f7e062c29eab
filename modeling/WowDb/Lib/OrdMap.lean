import Mathlib

/-!
# Maps with ordered keys

A map is its list of entries in the order of the keys, which makes equal maps equal as values.
-/
namespace WowDb.Lib
open List

structure OrdMap (κ ν : Type) [LinearOrder κ] where
  entries : List (κ × ν)
  sorted : entries.Pairwise fun a b => a.1 < b.1

namespace OrdMap

variable {κ ν : Type} [LinearOrder κ]

variable {m n : OrdMap κ ν}

@[ext] theorem ext (h : m.entries = n.entries) : m = n := by
  cases m
  cases n
  congr

instance [DecidableEq ν] : DecidableEq (OrdMap κ ν) := fun m n =>
  decidable_of_iff (m.entries = n.entries) ⟨ext, congrArg entries⟩

def empty : OrdMap κ ν := ⟨[], List.Pairwise.nil⟩

def insertEntry (k : κ) (v : ν) : List (κ × ν) → List (κ × ν)
  | [] => [(k, v)]
  | e :: rest =>
    if k < e.1 then (k, v) :: e :: rest
    else if k = e.1 then (k, v) :: rest
    else e :: insertEntry k v rest

variable {k : κ} {entries : List (κ × ν)}

theorem mem_insertEntry {v : ν} {e : κ × ν} (member : e ∈ insertEntry k v entries) :
    e = (k, v) ∨ e ∈ entries := by
  induction entries with
  | nil => simpa [insertEntry] using member
  | cons f rest ih =>
    simp only [insertEntry] at member
    split at member
    · rcases mem_cons.mp member with new | old
      · exact Or.inl new
      · exact Or.inr old
    · split at member
      · rcases mem_cons.mp member with new | old
        · exact Or.inl new
        · exact Or.inr (mem_cons_of_mem f old)
      · rcases mem_cons.mp member with head | later
        · rw [head]
          exact Or.inr (by simp)
        · rcases ih later with new | old
          · exact Or.inl new
          · exact Or.inr (mem_cons_of_mem f old)

theorem sorted_insertEntry (k : κ) (v : ν) (sorted : entries.Pairwise fun a b => a.1 < b.1) :
    (insertEntry k v entries).Pairwise fun a b => a.1 < b.1 := by
  induction entries with
  | nil => simp [insertEntry]
  | cons f rest ih =>
    obtain ⟨least, sortedRest⟩ := pairwise_cons.mp sorted
    simp only [insertEntry]
    split
    · next before =>
      refine pairwise_cons.mpr ⟨fun e member => ?_, sorted⟩
      rcases mem_cons.mp member with rfl | later
      · exact before
      · exact lt_trans before (least e later)
    · next notBefore =>
      split
      · next same =>
        refine pairwise_cons.mpr ⟨fun e member => ?_, sortedRest⟩
        rw [same]
        exact least e member
      · next different =>
        refine pairwise_cons.mpr ⟨fun e member => ?_, ih sortedRest⟩
        rcases mem_insertEntry member with rfl | old
        · exact lt_of_le_of_ne (not_lt.mp notBefore) (Ne.symm different)
        · exact least e old

def insert (m : OrdMap κ ν) (k : κ) (v : ν) : OrdMap κ ν :=
  ⟨insertEntry k v m.entries, sorted_insertEntry k v m.sorted⟩

def get? (m : OrdMap κ ν) (k : κ) : Option ν := m.entries.lookup k

@[simp] theorem get?_empty (k : κ) : (empty : OrdMap κ ν).get? k = none := rfl

theorem lookup_cons_ite (j : κ) (e : κ × ν) (rest : List (κ × ν)) :
    (e :: rest).lookup j = if j = e.1 then some e.2 else rest.lookup j := by
  rw [lookup_cons]
  by_cases same : j = e.1
  · simp [same]
  · simp [beq_eq_false_iff_ne.mpr same, same]

theorem lookup_insertEntry (j k : κ) (v : ν) (entries : List (κ × ν)) :
    (insertEntry k v entries).lookup j = if j = k then some v else entries.lookup j := by
  induction entries with
  | nil => exact lookup_cons_ite j (k, v) []
  | cons e rest ih =>
    simp only [insertEntry]
    split
    · exact lookup_cons_ite j (k, v) (e :: rest)
    · split
      · next equal =>
        rw [lookup_cons_ite, lookup_cons_ite, equal]
        by_cases same : j = e.1 <;> simp [same]
      · next different =>
        rw [lookup_cons_ite, lookup_cons_ite, ih]
        by_cases same : j = e.1
        · have other : e.1 ≠ k := fun equal => different equal.symm
          simp [same, other]
        · simp [same]

theorem get?_insert (m : OrdMap κ ν) (j k : κ) (v : ν) :
    (m.insert k v).get? j = if j = k then some v else m.get? j :=
  lookup_insertEntry j k v m.entries

variable {j : κ}

theorem get?_insert_or {v w : ν} (found : (m.insert k v).get? j = some w) :
    m.get? j = some w ∨ w = v := by
  rw [get?_insert] at found
  split at found
  · exact .inr (Option.some.inj found).symm
  · exact .inl found

def filterMap {μ : Type} (f : κ → ν → Option μ) (m : OrdMap κ ν) : OrdMap κ μ :=
  ⟨m.entries.filterMap fun e => (f e.1 e.2).map fun v => (e.1, v), by
    refine m.sorted.filterMap _ ?_
    intro a b less c fromA d fromB
    obtain ⟨_, -, rfl⟩ := Option.map_eq_some_iff.mp fromA
    obtain ⟨_, -, rfl⟩ := Option.map_eq_some_iff.mp fromB
    exact less⟩

variable (p : κ → ν → Bool)

def retain (m : OrdMap κ ν) : OrdMap κ ν :=
  m.filterMap fun k v => if p k v then some v else none

def erase (m : OrdMap κ ν) (k : κ) : OrdMap κ ν := m.retain fun j _ => decide (j ≠ k)

theorem lookup_eq_none_of_lt (least : ∀ e ∈ entries, k < e.1) : entries.lookup k = none := by
  rw [lookup_eq_none_iff]
  intro e member
  exact bne_iff_ne.mpr (ne_of_lt (least e member))

variable {μ : Type}

theorem get?_filterMap (f : κ → ν → Option μ) (m : OrdMap κ ν) (k : κ) :
    (m.filterMap f).get? k = (m.get? k).bind (f k) := by
  obtain ⟨entries, sorted⟩ := m
  simp only [get?, filterMap]
  induction entries with
  | nil => rfl
  | cons e rest ih =>
    obtain ⟨least, sortedRest⟩ := pairwise_cons.mp sorted
    rw [filterMap_cons, lookup_cons_ite]
    by_cases same : k = e.1
    · subst same
      cases kept : f e.1 e.2 with
      | none => simp [ih sortedRest, lookup_eq_none_of_lt least, kept]
      | some v => simp [kept]
    · cases kept : f e.1 e.2 with
      | none => simp [ih sortedRest, same]
      | some v => simp [lookup_cons_ite, ih sortedRest, same]

theorem get?_retain (m : OrdMap κ ν) (k : κ) : (m.retain p).get? k = (m.get? k).filter (p k) := by
  rw [retain, get?_filterMap]
  cases m.get? k with
  | none => rfl
  | some v => simp [Option.filter]

theorem get?_sweep (live late : ν → Bool) (finish : ν → ν) (ended : ∀ v, live (finish v) = false)
    (m : OrdMap κ ν) (k : κ) :
    ((m.filterMap fun _ v => some (if live v && late v then finish v else v)).retain
      fun _ v => live v).get? k = (m.get? k).filter fun v => live v && !late v := by
  rw [get?_retain, get?_filterMap]
  cases m.get? k with
  | none => rfl
  | some v =>
    cases isLive : live v <;> cases isLate : late v <;>
      simp [isLive, isLate, ended, Option.filter]

theorem get?_erase (m : OrdMap κ ν) (j k : κ) :
    (m.erase k).get? j = if j = k then none else m.get? j := by
  rw [erase, get?_retain]
  by_cases same : j = k
  · cases m.get? j <;> simp [same]
  · cases m.get? j <;> simp [same]

theorem get?_of_erase {w : ν} (found : (m.erase k).get? j = some w) : m.get? j = some w := by
  rw [get?_erase] at found
  split at found
  · cases found
  · exact found

def update {ρ : Type} (m : OrdMap κ ν) (k : κ) (absent : ρ) (f : ν → ν × ρ) : OrdMap κ ν × ρ :=
  match m.get? k with
  | none => (m, absent)
  | some v => (m.insert k (f v).1, (f v).2)

variable {ρ : Type}

theorem update_of_none (missing : m.get? k = none) (absent : ρ) (f : ν → ν × ρ) :
    m.update k absent f = (m, absent) := by
  simp only [update, missing]

theorem update_of_some {v : ν} (found : m.get? k = some v) (absent : ρ) (f : ν → ν × ρ) :
    m.update k absent f = (m.insert k (f v).1, (f v).2) := by
  simp only [update, found]

theorem get?_update (m : OrdMap κ ν) (k j : κ) (absent : ρ) (f : ν → ν × ρ) :
    (m.update k absent f).1.get? j =
      if j = k then (m.get? k).map fun v => (f v).1 else m.get? j := by
  cases found : m.get? k with
  | none =>
    rw [update_of_none found]
    by_cases same : j = k
    · simp [same, found]
    · simp [same]
  | some v =>
    rw [update_of_some found, get?_insert]
    by_cases same : j = k <;> simp [same]

def modify (m : OrdMap κ ν) (k : κ) (f : ν → ν) : OrdMap κ ν :=
  (m.update k () fun v => (f v, ())).1

theorem get?_modify (m : OrdMap κ ν) (j k : κ) (f : ν → ν) :
    (m.modify k f).get? j = if j = k then (m.get? k).map f else m.get? j :=
  get?_update m k j () _

theorem get?_modify_eq_none {f : ν → ν} : (m.modify k f).get? j = none ↔ m.get? j = none := by
  rw [get?_modify]
  by_cases same : j = k <;> simp [same]

theorem mem_iff_lookup (distinct : (entries.map Prod.fst).Nodup) (k : κ) (v : ν) :
    (k, v) ∈ entries ↔ entries.lookup k = some v := by
  induction entries with
  | nil => simp
  | cons e rest ih =>
    obtain ⟨absent, distinctRest⟩ := nodup_cons.mp distinct
    rw [mem_cons, lookup_cons_ite, ih distinctRest]
    by_cases same : k = e.1
    · subst same
      have missing : rest.lookup e.1 ≠ some v := fun found =>
        absent (mem_map.mpr ⟨_, (ih distinctRest).mpr found, rfl⟩)
      simp [missing, Prod.ext_iff, eq_comm]
    · simp [Prod.ext_iff, same]

theorem nodup_keys (m : OrdMap κ ν) : (m.entries.map Prod.fst).Nodup := by
  rw [List.Nodup, pairwise_map]
  exact m.sorted.imp fun less => ne_of_lt less

theorem mem_entries_iff (m : OrdMap κ ν) (k : κ) (v : ν) : (k, v) ∈ m.entries ↔ m.get? k = some v :=
  mem_iff_lookup m.nodup_keys k v

theorem insert_perm (v : ν) (absent : ∀ e ∈ m.entries, e.1 ≠ k) :
    (m.insert k v).entries.Perm ((k, v) :: m.entries) := by
  obtain ⟨entries, sorted⟩ := m
  simp only [insert] at absent ⊢
  clear sorted
  induction entries with
  | nil => exact List.Perm.refl _
  | cons f rest ih =>
    simp only [insertEntry]
    split
    · exact List.Perm.refl _
    · split
      · next same => exact absurd same.symm (absent f (by simp))
      · have later := ih fun e member => absent e (by simp [member])
        exact (List.Perm.cons f later).trans (List.Perm.swap (k, v) f rest)

theorem eq_of_perm (perm : m.entries.Perm n.entries) : m = n := by
  apply ext
  refine List.Perm.eq_of_pairwise ?_ m.sorted n.sorted perm
  intro a b _ _ ab ba
  exact absurd (lt_trans ab ba) (lt_irrefl _)

theorem ext_get? (same : ∀ k, m.get? k = n.get? k) : m = n := by
  have nodup : ∀ l : OrdMap κ ν, l.entries.Nodup := by
    intro l
    refine l.sorted.imp ?_
    rintro a b less rfl
    exact lt_irrefl _ less
  apply eq_of_perm
  rw [perm_ext_iff_of_nodup (nodup m) (nodup n)]
  rintro ⟨k, v⟩
  rw [mem_entries_iff, mem_entries_iff, same]

theorem insert_eq_self_iff (m : OrdMap κ ν) (k : κ) (v : ν) :
    m.insert k v = m ↔ m.get? k = some v := by
  constructor
  · intro same
    rw [← same, get?_insert, if_pos rfl]
  · intro present
    refine ext_get? fun j => ?_
    rw [get?_insert]
    split
    · next same => rw [same, present]
    · rfl

theorem insert_insert (m : OrdMap κ ν) (k : κ) (a b : ν) :
    (m.insert k a).insert k b = m.insert k b := by
  refine ext_get? fun j => ?_
  simp only [get?_insert]
  split <;> rfl

theorem insert_insert_eq_self_iff (m : OrdMap κ ν) (apart : j ≠ k) (a b : ν) :
    (m.insert j a).insert k b = m ↔ m.get? j = some a ∧ m.get? k = some b := by
  constructor
  · intro same
    constructor
    · rw [← same, get?_insert, if_neg apart, get?_insert, if_pos rfl]
    · rw [← same, get?_insert, if_pos rfl]
  · rintro ⟨atJ, atK⟩
    rw [(insert_eq_self_iff m j a).mpr atJ]
    exact (insert_eq_self_iff m k b).mpr atK

def push {α : Type} (m : OrdMap κ (List α)) (k : κ) (a : α) : OrdMap κ (List α) :=
  m.insert k ((m.get? k).getD [] ++ [a])

variable {β : Type}

variable (key : β → κ) {α : Type}

variable (item : β → α)

theorem getD_foldl_push (xs : List β) (m : OrdMap κ (List α)) (k : κ) :
    ((xs.foldl (fun m x => m.push (key x) (item x)) m).get? k).getD [] =
      (m.get? k).getD [] ++ (xs.filter (key · = k)).map item := by
  induction xs generalizing m with
  | nil => simp
  | cons x rest ih =>
    rw [foldl_cons, ih, push, get?_insert]
    by_cases same : k = key x
    · subst same
      simp
    · have other : key x ≠ k := fun equal => same equal.symm
      simp [same, other]

theorem get?_foldl_push_eq_none (xs : List β) (m : OrdMap κ (List α)) (k : κ) :
    (xs.foldl (fun m x => m.push (key x) (item x)) m).get? k = none ↔
      m.get? k = none ∧ ∀ x ∈ xs, key x ≠ k := by
  induction xs generalizing m with
  | nil => simp
  | cons x rest ih =>
    rw [foldl_cons, ih, push, get?_insert]
    by_cases same : k = key x
    · simp [same]
    · have other : key x ≠ k := fun equal => same equal.symm
      simp [same, other]

theorem get?_foldl_push (xs : List β) (k : κ) (vs : List α) :
    (xs.foldl (fun m x => m.push (key x) (item x)) empty).get? k = some vs ↔
      (∃ x ∈ xs, key x = k) ∧ vs = (xs.filter (key · = k)).map item := by
  have absent := get?_foldl_push_eq_none key item xs empty k
  have held := getD_foldl_push key item xs empty k
  cases found : (xs.foldl (fun m x => m.push (key x) (item x)) empty).get? k with
  | none =>
    have others := (absent.mp found).2
    constructor
    · intro none
      cases none
    · rintro ⟨⟨x, member, same⟩, -⟩
      exact absurd same (others x member)
  | some ws =>
    rw [found] at held absent
    have items : ws = (xs.filter (key · = k)).map item := held
    rw [Option.some_inj, items]
    constructor
    · rintro rfl
      refine ⟨?_, rfl⟩
      by_contra none
      have nothing := absent.mpr ⟨rfl, fun x member same => none ⟨x, member, same⟩⟩
      cases nothing
    · rintro ⟨-, rfl⟩
      rfl

theorem flatMap_insertEntry {entries : List (κ × List α)}
    (sorted : entries.Pairwise fun a b => a.1 < b.1) (k : κ) (a : α) :
    ((insertEntry k ((entries.lookup k).getD [] ++ [a]) entries).flatMap Prod.snd).Perm
      (entries.flatMap Prod.snd ++ [a]) := by
  induction entries with
  | nil => simp [insertEntry]
  | cons e rest ih =>
    obtain ⟨least, tail⟩ := pairwise_cons.mp sorted
    rw [insertEntry, lookup_cons_ite]
    split
    · next below =>
      have absent : rest.lookup k = none :=
        lookup_eq_none_of_lt fun f member => lt_trans below (least f member)
      rw [if_neg (ne_of_lt below), absent]
      exact perm_append_comm
    · split
      · simpa using (perm_append_singleton a _).symm.append_left e.2
      · simpa using (ih tail).append_left e.2

theorem flatMap_foldl_push_perm (xs : List β) (m : OrdMap κ (List α)) :
    ((xs.foldl (fun m x => m.push (key x) (item x)) m).entries.flatMap Prod.snd).Perm
      (m.entries.flatMap Prod.snd ++ xs.map item) := by
  induction xs generalizing m with
  | nil => simp
  | cons x rest ih =>
    have one := (flatMap_insertEntry m.sorted (key x) (item x)).append_right (rest.map item)
    rw [append_assoc] at one
    exact (ih (m.push (key x) (item x))).trans one

/-- `entry(k).or_insert(init)`, then changed. -/
def upsert (m : OrdMap κ ν) (k : κ) (init : ν) (f : ν → ν) : OrdMap κ ν :=
  m.insert k (f ((m.get? k).getD init))

theorem get?_upsert (m : OrdMap κ ν) (j k : κ) (init : ν) (f : ν → ν) :
    (m.upsert k init f).get? j = if j = k then some (f ((m.get? k).getD init)) else m.get? j :=
  get?_insert m j k _

theorem get?_foldl_upsert (init : β → ν) (f : β → ν → ν) (xs : List β)
    (m : OrdMap κ ν) (k : κ) [DecidablePred (key · = k)] :
    (xs.foldl (fun m x => m.upsert (key x) (init x) (f x)) m).get? k =
      (xs.filter (key · = k)).foldl (fun v x => some (f x (v.getD (init x)))) (m.get? k) := by
  induction xs generalizing m with
  | nil => rfl
  | cons x rest ih =>
    rw [foldl_cons, ih, get?_upsert]
    by_cases same : k = key x
    · subst same
      simp
    · have other : key x ≠ k := fun equal => same equal.symm
      simp [same, other]

theorem get?_foldl_insert_cases (val : β → ν) (xs : List β) (m : OrdMap κ ν) (k : κ) :
    (∃ x ∈ xs, key x = k ∧ (xs.foldl (fun m x => m.insert (key x) (val x)) m).get? k =
        some (val x)) ∨
      ((∀ x ∈ xs, key x ≠ k) ∧
        (xs.foldl (fun m x => m.insert (key x) (val x)) m).get? k = m.get? k) := by
  induction xs generalizing m with
  | nil => exact .inr ⟨by simp, rfl⟩
  | cons x rest ih =>
    rw [foldl_cons]
    rcases ih (m.insert (key x) (val x)) with ⟨y, inRest, same, held⟩ | ⟨others, held⟩
    · exact .inl ⟨y, mem_cons_of_mem x inRest, same, held⟩
    · rw [held, get?_insert]
      by_cases here : k = key x
      · exact .inl ⟨x, mem_cons_self, here.symm, if_pos here⟩
      · refine .inr ⟨?_, if_neg here⟩
        intro y member
        rcases mem_cons.mp member with rfl | later
        · exact fun same => here same.symm
        · exact others y later

variable (init : ν)

theorem foldl_some_getD (f : β → ν → ν) (xs : List β) (v : ν) :
    xs.foldl (fun v x => some (f x (v.getD init))) (some v) =
      some (xs.foldl (fun v x => f x v) v) := by
  induction xs generalizing v with
  | nil => rfl
  | cons x rest ih => exact ih _

theorem get?_foldl_upsert_of_mem (f : β → ν → ν) {xs : List β}
    [DecidablePred (key · = k)] (met : ∃ x ∈ xs, key x = k) :
    (xs.foldl (fun m x => m.upsert (key x) init (f x)) (empty : OrdMap κ ν)).get? k =
      some ((xs.filter (key · = k)).foldl (fun v x => f x v) init) := by
  rw [get?_foldl_upsert key (fun _ => init) f, get?_empty]
  have nonempty : xs.filter (key · = k) ≠ [] := by
    obtain ⟨x, member, same⟩ := met
    exact ne_nil_of_mem (mem_filter.mpr ⟨member, decide_eq_true same⟩)
  obtain ⟨x, rest, items⟩ := exists_cons_of_ne_nil nonempty
  rw [items]
  exact foldl_some_getD init f rest _

theorem foldl_upsert_perm {f : β → ν → ν}
    (comm : ∀ x y v, f y (f x v) = f x (f y v)) {xs ys : List β} (same : xs.Perm ys)
    (m : OrdMap κ ν) :
    xs.foldl (fun m x => m.upsert (key x) init (f x)) m =
      ys.foldl (fun m x => m.upsert (key x) init (f x)) m := by
  apply ext_get?
  intro k
  rw [get?_foldl_upsert key (fun _ => init), get?_foldl_upsert key (fun _ => init)]
  apply (same.filter _).foldl_eq'
  intro x _ y _ v
  exact congrArg some (comm x y _)

theorem isSome_foldl_upsert (init : β → ν) (f : β → ν → ν) (xs : List β) (m : OrdMap κ ν) (k : κ) :
    ((xs.foldl (fun m x => m.upsert (key x) (init x) (f x)) m).get? k).isSome = true ↔
      (m.get? k).isSome = true ∨ k ∈ xs.map key := by
  induction xs generalizing m with
  | nil => simp
  | cons x rest ih =>
    rw [foldl_cons, ih, get?_upsert]
    by_cases same : k = key x <;> simp [same]

theorem getD_foldl_upsert (f : β → ν → ν) (xs : List β) (m : OrdMap κ ν)
    (k : κ) [DecidablePred (key · = k)] :
    ((xs.foldl (fun m x => m.upsert (key x) init (f x)) m).get? k).getD init =
      (xs.filter (key · = k)).foldl (fun v x => f x v) ((m.get? k).getD init) := by
  rw [get?_foldl_upsert key (fun _ => init)]
  generalize m.get? k = v
  induction xs.filter (key · = k) generalizing v with
  | nil => rfl
  | cons x rest ih => exact ih _

theorem getD_foldl_count (xs : List β) (m : OrdMap κ Nat) (k : κ) [DecidablePred (key · = k)] :
    ((xs.foldl (fun m x => m.upsert (key x) 0 (· + 1)) m).get? k).getD 0 =
      (m.get? k).getD 0 + (xs.filter (key · = k)).length := by
  rw [getD_foldl_upsert key 0 (fun _ n => n + 1)]
  generalize (m.get? k).getD 0 = n
  induction xs.filter (key · = k) generalizing n with
  | nil => rfl
  | cons x rest ih =>
    rw [foldl_cons, ih, length_cons]
    omega

variable {f : κ → ν → Option μ}

theorem filterMap_insert_of_none {v : ν}
    (before : (m.get? k).bind (f k) = none) (after : f k v = none) :
    (m.insert k v).filterMap f = m.filterMap f := by
  refine ext_get? fun j => ?_
  rw [get?_filterMap, get?_filterMap, get?_insert]
  split
  · next same => rw [same, before, Option.bind_some, after]
  · rfl

theorem filterMap_erase_of_none (before : (m.get? k).bind (f k) = none) :
    (m.erase k).filterMap f = m.filterMap f := by
  refine ext_get? fun j => ?_
  rw [get?_filterMap, get?_filterMap, get?_erase]
  split
  · next same => rw [same, before, Option.bind_none]
  · rfl

def map {μ : Type} (f : ν → μ) (m : OrdMap κ ν) : OrdMap κ μ :=
  ⟨m.entries.map fun e => (e.1, f e.2), List.pairwise_map.mpr m.sorted⟩

theorem get?_map (f : ν → μ) (m : OrdMap κ ν) (k : κ) : (m.map f).get? k = (m.get? k).map f := by
  obtain ⟨entries, sorted⟩ := m
  simp only [map, get?]
  clear sorted
  induction entries with
  | nil => rfl
  | cons e rest ih =>
    rw [map_cons, lookup_cons_ite, lookup_cons_ite, ih]
    split <;> rfl

theorem map_map (g : μ → ρ) (f : ν → μ) (m : OrdMap κ ν) :
    (m.map f).map g = m.map fun v => g (f v) := by
  apply ext
  simp [map]

theorem mem_keys_iff (m : OrdMap κ ν) (k : κ) :
    k ∈ m.entries.map Prod.fst ↔ (m.get? k).isSome = true := by
  rw [mem_map, Option.isSome_iff_exists]
  constructor
  · rintro ⟨e, listed, rfl⟩
    exact ⟨e.2, (mem_entries_iff m e.1 e.2).1 listed⟩
  · rintro ⟨v, found⟩
    exact ⟨(k, v), (mem_entries_iff m k v).2 found, rfl⟩

theorem keys_eq {n : OrdMap κ μ} (same : ∀ k, (m.get? k).isSome = (n.get? k).isSome) :
    m.entries.map Prod.fst = n.entries.map Prod.fst := by
  have keyed : m.map (fun _ => ()) = n.map fun _ => () := by
    apply ext_get?
    intro k
    have here := same k
    rw [get?_map, get?_map]
    cases left : m.get? k <;> cases right : n.get? k <;> simp_all
  have listed := congrArg (fun m => m.entries.map Prod.fst) keyed
  simpa [map, filterMap, Function.comp_def] using listed

theorem countP_entries (m : OrdMap κ ν) (p : ν → Bool) : (m.entries.countP fun e => p e.2) =
      (m.entries.map Prod.fst).countP fun k => (m.get? k).any p := by
  rw [countP_map]
  apply countP_congr
  intro e member
  have found := (mem_entries_iff m e.1 e.2).1 member
  simp [found]

theorem countP_insert (m : OrdMap κ ν) (k : κ) (v : ν) (p : ν → Bool) :
    ((m.insert k v).entries.countP fun e => p e.2) + (m.get? k).toList.countP p =
      (m.entries.countP fun e => p e.2) + [v].countP p := by
  obtain ⟨entries, sorted⟩ := m
  simp only [insert, get?]
  induction sorted with
  | nil => simp [insertEntry]
  | @cons e rest least _ ih =>
    rw [insertEntry]
    split
    · next before =>
      have absent : (e :: rest).lookup k = none := lookup_eq_none_of_lt fun f member => by
        rcases mem_cons.mp member with rfl | later
        · exact before
        · exact lt_trans before (least f later)
      rw [absent, countP_cons, countP_singleton]
      rfl
    · split
      · next same =>
        rw [lookup_cons_ite, if_pos same, countP_cons, countP_cons, Option.toList_some,
          countP_singleton, countP_singleton]
        dsimp only
        omega
      · next different =>
        rw [lookup_cons_ite, if_neg different, countP_cons, countP_cons]
        omega

def ofList (pairs : List (κ × ν)) : OrdMap κ ν := pairs.foldl (fun m p => m.insert p.1 p.2) empty

variable {pairs : List (κ × ν)}

theorem foldl_insert_perm (distinct : (pairs.map Prod.fst).Nodup)
    (m : OrdMap κ ν) (absent : ∀ p ∈ pairs, ∀ e ∈ m.entries, e.1 ≠ p.1) :
    (pairs.foldl (fun m p => m.insert p.1 p.2) m).entries.Perm (pairs ++ m.entries) := by
  induction pairs generalizing m with
  | nil => exact List.Perm.refl _
  | cons p rest ih =>
    obtain ⟨newKey, distinctRest⟩ := nodup_cons.mp distinct
    have inserted := insert_perm p.2 (absent p (by simp))
    have absentRest : ∀ q ∈ rest, ∀ e ∈ (m.insert p.1 p.2).entries, e.1 ≠ q.1 := by
      intro q inRest e member
      rcases mem_cons.mp (inserted.mem_iff.mp member) with rfl | old
      · intro same
        exact newKey (same ▸ mem_map_of_mem inRest)
      · exact absent q (by simp [inRest]) e old
    refine (ih distinctRest _ absentRest).trans ?_
    refine (inserted.append_left rest).trans ?_
    exact perm_middle

theorem ofList_of_perm (perm : pairs.Perm m.entries) : ofList pairs = m := by
  have distinct : (pairs.map Prod.fst).Nodup := (perm.map Prod.fst).nodup_iff.mpr m.nodup_keys
  apply eq_of_perm
  have built := foldl_insert_perm distinct empty fun _ _ e member => by cases member
  simp only [empty, append_nil] at built
  exact built.trans perm

end OrdMap

structure HashIteration (κ ν : Type) [LinearOrder κ] where
  iterate : OrdMap κ ν → List (κ × ν)
  iterate_perm : ∀ m, (iterate m).Perm m.entries

namespace HashIteration

variable {κ ν : Type} [LinearOrder κ]

def ascending : HashIteration κ ν := ⟨OrdMap.entries, fun _ => List.Perm.refl _⟩

variable (h : HashIteration κ ν)

theorem mem_iterate (m : OrdMap κ ν) (k : κ) (v : ν) :
    (k, v) ∈ h.iterate m ↔ m.get? k = some v := by
  rw [(h.iterate_perm m).mem_iff, OrdMap.mem_entries_iff]

theorem nodup_keys (m : OrdMap κ ν) : ((h.iterate m).map Prod.fst).Nodup :=
  ((h.iterate_perm m).map Prod.fst).nodup_iff.mpr m.nodup_keys

theorem lookup_iterate (m : OrdMap κ ν) (k : κ) : (h.iterate m).lookup k = m.get? k := by
  ext v
  rw [← OrdMap.mem_iff_lookup (h.nodup_keys m), h.mem_iterate]

theorem get?_foldl_upsert {μ : Type} (h : HashIteration κ μ) (other : OrdMap κ μ) (init : ν)
    (f : μ → ν → ν) (m : OrdMap κ ν) (k : κ) :
    ((h.iterate other).foldl (fun m e => m.upsert e.1 init (f e.2)) m).get? k =
      ((other.get? k).map fun v => f v ((m.get? k).getD init)).or (m.get? k) := by
  rw [OrdMap.get?_foldl_upsert Prod.fst (fun _ => init) (fun e => f e.2)]
  have once := h.nodup_keys other
  have found := h.lookup_iterate other k
  generalize h.iterate other = pairs at once found
  rw [← found]
  clear found
  induction pairs with
  | nil => rfl
  | cons e rest ih =>
    rw [map_cons, nodup_cons] at once
    by_cases here : e.1 = k
    · have alone : rest.filter (·.1 = k) = [] := by
        rw [filter_eq_nil_iff]
        intro d member same
        exact once.1 (here ▸ of_decide_eq_true same ▸ mem_map_of_mem member)
      rw [OrdMap.lookup_cons_ite]
      simp [here, alone]
    · rw [OrdMap.lookup_cons_ite]
      have other : ¬ k = e.1 := fun same => here same.symm
      simpa [here, other] using ih once.2

end HashIteration
end WowDb.Lib
