import WowDb.Lib.OrdMap

/-!
# Summaries by key

Items are folded into one state for each key.
-/
namespace WowDb.Lib
open List

variable {κ β σ : Type} [LinearOrder κ]

/-- A state of items; `merge theirs ours`. -/
structure Summary (β σ : Type) where
  init : σ
  update : β → σ → σ
  merge : σ → σ → σ
  update_comm : ∀ x y s, update y (update x s) = update x (update y s)
  merge_init : ∀ s, merge init s = s
  merge_update : ∀ x t s, merge (update x t) s = update x (merge t s)

namespace Summary

variable (S : Summary β σ)

def add (m : OrdMap κ σ) (e : κ × β) : OrdMap κ σ := m.upsert e.1 S.init (S.update e.2)

def summarize (items : List (κ × β)) : OrdMap κ σ := items.foldl S.add .empty

variable (order : HashIteration κ σ)

def absorb (m other : OrdMap κ σ) : OrdMap κ σ :=
  (order.iterate other).foldl (fun m e => m.upsert e.1 S.init (S.merge e.2)) m

theorem summarize_append (first second : List (κ × β)) :
    S.summarize (first ++ second) = second.foldl S.add (S.summarize first) :=
  foldl_append

theorem summarize_perm {items others : List (κ × β)} (same : items.Perm others) :
    S.summarize items = S.summarize others :=
  OrdMap.foldl_upsert_perm Prod.fst S.init (fun x y s => S.update_comm x.2 y.2 s) same .empty

def fold (items : List (κ × β)) (s : Option σ) : Option σ :=
  items.foldl (fun s e => some (S.update e.2 (s.getD S.init))) s

variable (items : List (κ × β))

theorem get?_foldl_add (m : OrdMap κ σ) (k : κ) :
    (items.foldl S.add m).get? k = S.fold (items.filter (·.1 = k)) (m.get? k) :=
  OrdMap.get?_foldl_upsert Prod.fst (fun _ => S.init) (fun e => S.update e.2) items m k

omit [LinearOrder κ] in
theorem fold_eq_merge (s : Option σ) : S.fold items s =
      ((S.fold items none).map fun t => S.merge t (s.getD S.init)).or s := by
  induction items using reverseRecOn with
  | nil => rfl
  | append_singleton rest e ih =>
    have last : ∀ s, S.fold (rest ++ [e]) s =
        some (S.update e.2 ((S.fold rest s).getD S.init)) := fun s => by
      rw [fold, foldl_append]
      rfl
    have states : (S.fold rest s).getD S.init =
        S.merge ((S.fold rest none).getD S.init) (s.getD S.init) := by
      rw [ih]
      cases S.fold rest none with
      | none => simp [S.merge_init]
      | some t => rfl
    rw [last, last, Option.map_some, Option.some_or, S.merge_update, states]

theorem absorb_summarize (first second : List (κ × β)) :
    S.absorb order (S.summarize first) (S.summarize second) = S.summarize (first ++ second) := by
  apply OrdMap.ext_get?
  intro k
  rw [absorb, order.get?_foldl_upsert, summarize_append, S.get?_foldl_add second, fold_eq_merge]
  congr 2
  exact S.get?_foldl_add second .empty k

def total (items : List (κ × β)) : σ := items.foldl (fun s e => S.update e.2 s) S.init

theorem get?_summarize [equal : DecidableEq κ] (k : κ) (v : σ) :
    (S.summarize items).get? k = some v ↔
      k ∈ items.map Prod.fst ∧ S.total (items.filter (·.1 = k)) = v := by
  by_cases met : ∃ e ∈ items, e.1 = k
  · have held := OrdMap.get?_foldl_upsert_of_mem Prod.fst S.init (fun e => S.update e.2) met
    have present : k ∈ items.map Prod.fst := mem_map.mpr met
    rw [show (S.summarize items).get? k = _ from held, Option.some_inj]
    exact ⟨fun same => ⟨present, same⟩, And.right⟩
  · have absent : k ∉ items.map Prod.fst := fun member => met (mem_map.mp member)
    have nothing : items.filter (·.1 = k) = [] := by
      refine filter_eq_nil_iff.mpr fun e member same => met ⟨e, member, of_decide_eq_true same⟩
    obtain rfl : equal = LinearOrder.toDecidableEq := Subsingleton.elim _ _
    rw [summarize, S.get?_foldl_add items, nothing]
    simp [absent, fold]

theorem entries_summarize [DecidableEq κ] : (S.summarize items).entries.Perm
      ((items.map Prod.fst).dedup.map fun k => (k, S.total (items.filter (·.1 = k)))) := by
  have distinct : ((items.map Prod.fst).dedup.map fun k =>
      (k, S.total (items.filter (·.1 = k)))).Nodup :=
    (nodup_dedup _).map fun _ _ same => congrArg Prod.fst same
  refine (perm_ext_iff_of_nodup (.of_map _ (OrdMap.nodup_keys _)) distinct).mpr ?_
  rintro ⟨k, v⟩
  rw [OrdMap.mem_entries_iff, S.get?_summarize]
  simp only [mem_map, mem_dedup, Prod.mk.injEq]
  constructor
  · rintro ⟨inKeys, rfl⟩
    exact ⟨k, inKeys, rfl, rfl⟩
  · rintro ⟨_, inKeys, rfl, rfl⟩
    exact ⟨inKeys, rfl⟩

end Summary
end WowDb.Lib
