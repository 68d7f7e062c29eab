import WowDb.Lib.OrdMap
import WowDb.Lib.Run

/-!
# The metadata cache of a query node

`query-node/src/meta/cache.rs`, with clients that read a value from the leader and put it into the
cache later.
-/
namespace WowDb.Query
open WowDb.Lib

inductive CacheKind where
  | ddl
  | stats
  deriving DecidableEq

structure MetadataCacheEntry where
  value : String
  raftIndex : Nat
  cachedAt : Nat
  kind : CacheKind

def MetadataCacheEntry.isValid (e : MetadataCacheEntry) (currentRaftIndex now : Nat) : Bool :=
  match e.kind with
  | .ddl => decide (currentRaftIndex ≤ e.raftIndex)
  | .stats => decide (now - e.cachedAt < 500)

structure MetadataCache where
  entries : OrdMap String MetadataCacheEntry
  currentRaftIndex : Nat

namespace MetadataCache

def new : MetadataCache := ⟨.empty, 0⟩

variable (c : MetadataCache)

def advanceRaftIndex (index : Nat) : MetadataCache :=
  if c.currentRaftIndex < index then { c with currentRaftIndex := index } else c

def find (now : Nat) (key : String) : Option MetadataCacheEntry :=
  (c.entries.get? key).filter fun e => e.isValid c.currentRaftIndex now

def get (now : Nat) (key : String) : Option String :=
  (c.find now key).map MetadataCacheEntry.value

def put (kind : CacheKind) (now : Nat) (key value : String) : MetadataCache :=
  { c with entries := c.entries.insert key ⟨value, c.currentRaftIndex, now, kind⟩ }

def putDdl (now : Nat) (key value : String) : MetadataCache :=
  c.put .ddl now key value

def putStats (now : Nat) (key value : String) : MetadataCache :=
  c.put .stats now key value

def invalidateDdl (key : String) : MetadataCache :=
  { c with entries := c.entries.erase key }

end MetadataCache

/-- The cache, the values of the leader after each of its commands, and what each client has
read from it. -/
structure CacheRun where
  cache : MetadataCache
  history : List (OrdMap String String)
  fetched : OrdMap Nat (String × String)

namespace CacheRun

def init : CacheRun := ⟨.new, [.empty], .empty⟩

inductive Act where
  | applyDdl (key : String) (value : Option String)
  | advanceRaftIndex (index : Nat)
  | fetch (client : Nat) (key : String)
  | putDdl (client now : Nat)
  | putStats (now : Nat) (key value : String)
  | invalidateDdl (key : String)

def valueAt (s : CacheRun) (index : Nat) (key : String) : Option String :=
  (s.history[index]?).bind fun values => values.get? key

def step (s : CacheRun) : Act → Option CacheRun
  | .applyDdl key value =>
    let values := s.history.getLast?.getD .empty
    some { s with history := s.history ++ [match value with
      | some v => values.insert key v
      | none => values.erase key] }
  | .advanceRaftIndex index =>
    if index < s.history.length then some { s with cache := s.cache.advanceRaftIndex index } else none
  | .fetch client key =>
    (s.valueAt (s.history.length - 1) key).map fun v =>
      { s with fetched := s.fetched.insert client (key, v) }
  | .putDdl client now =>
    (s.fetched.get? client).map fun f => { s with cache := s.cache.putDdl now f.1 f.2 }
  | .putStats now key value => some { s with cache := s.cache.putStats now key value }
  | .invalidateDdl key => some { s with cache := s.cache.invalidateDdl key }

/-- `get` returns the leader's value at the cache's index. -/
def Fresh (s : CacheRun) : Prop :=
  ∀ now key e, s.cache.find now key = some e → e.kind = .ddl →
    s.valueAt s.cache.currentRaftIndex key = some e.value

/-- Clients put what is current at the cache's index. -/
def PutsCurrent (s : CacheRun) : Act → Prop
  | .putDdl client _ => ∀ f, s.fetched.get? client = some f →
    s.valueAt s.cache.currentRaftIndex f.1 = some f.2
  | _ => True

structure Invariant (s : CacheRun) : Prop where
  stamped : ∀ key e, s.cache.entries.get? key = some e → e.raftIndex ≤ s.cache.currentRaftIndex
  applied : s.cache.currentRaftIndex < s.history.length

theorem find_ddl {c : MetadataCache} {now : Nat} {key : String} {e : MetadataCacheEntry}
    (ddl : e.kind = .ddl) :
    c.find now key = some e ↔ c.entries.get? key = some e ∧ c.currentRaftIndex ≤ e.raftIndex := by
  rw [MetadataCache.find, Option.filter_eq_some_iff, MetadataCacheEntry.isValid, ddl]
  simp

variable (s : CacheRun)

theorem fresh_iff : Fresh s ↔ ∀ key e, s.cache.entries.get? key = some e →
    e.kind = .ddl → s.cache.currentRaftIndex ≤ e.raftIndex →
    s.valueAt s.cache.currentRaftIndex key = some e.value := by
  constructor
  · intro fresh key e found ddl recent
    exact fresh 0 key e ((find_ddl ddl).mpr ⟨found, recent⟩) ddl
  · intro fresh now key e shown ddl
    obtain ⟨found, recent⟩ := (find_ddl ddl).mp shown
    exact fresh key e found ddl recent

theorem invariant_step (act : Act) (t : CacheRun) (inv : Invariant s)
    (taken : step s act = some t) : Invariant t := by
  have put : ∀ kind now key value, Invariant { s with cache := s.cache.put kind now key value } := by
    intro kind now key value
    refine ⟨fun k e found => ?_, inv.applied⟩
    rcases OrdMap.get?_insert_or found with old | rfl
    · exact inv.stamped k e old
    · exact Nat.le_refl _
  cases act with
  | applyDdl key value =>
    cases taken
    exact ⟨inv.stamped, by have bound := inv.applied; simp; omega⟩
  | advanceRaftIndex index =>
    simp only [step, Option.ite_none_right_eq_some, Option.some.injEq] at taken
    obtain ⟨known, rfl⟩ := taken
    simp only [MetadataCache.advanceRaftIndex]
    split
    · next later => exact ⟨fun k e found => (inv.stamped k e found).trans later.le, known⟩
    · exact inv
  | fetch client key =>
    obtain ⟨v, -, rfl⟩ := Option.map_eq_some_iff.mp taken
    exact ⟨inv.stamped, inv.applied⟩
  | putDdl client now =>
    obtain ⟨f, -, rfl⟩ := Option.map_eq_some_iff.mp taken
    exact put .ddl now f.1 f.2
  | putStats now key value =>
    cases taken
    exact put .stats now key value
  | invalidateDdl key =>
    cases taken
    exact ⟨fun k e found => inv.stamped k e (OrdMap.get?_of_erase found), inv.applied⟩

theorem fresh_step (act : Act) (t : CacheRun) (inv : Invariant s) (fresh : Fresh s)
    (taken : step s act = some t) : Fresh t ↔ PutsCurrent s act := by
  rw [fresh_iff] at fresh ⊢
  cases act with
  | applyDdl key value =>
    cases taken
    refine iff_of_true (fun k e found ddl recent => ?_) trivial
    have before := fresh k e found ddl recent
    rw [valueAt] at before ⊢
    rwa [List.getElem?_append_left inv.applied]
  | advanceRaftIndex index =>
    simp only [step, Option.ite_none_right_eq_some, Option.some.injEq] at taken
    obtain ⟨known, rfl⟩ := taken
    refine iff_of_true ?_ trivial
    simp only [MetadataCache.advanceRaftIndex]
    split
    · next later =>
      -- every entry is older than the new index
      intro k e found ddl recent
      have stamp := inv.stamped k e found
      simp only at recent
      omega
    · exact fresh
  | fetch client key =>
    obtain ⟨v, -, rfl⟩ := Option.map_eq_some_iff.mp taken
    exact iff_of_true fresh trivial
  | putDdl client now =>
    obtain ⟨f, read, rfl⟩ := Option.map_eq_some_iff.mp taken
    constructor
    · intro after g same
      obtain rfl := Option.some.inj (read.symm.trans same)
      exact after f.1 _ (by rw [MetadataCache.putDdl, MetadataCache.put, OrdMap.get?_insert, if_pos rfl])
        rfl (Nat.le_refl _)
    · intro current k e found ddl recent
      simp only [MetadataCache.putDdl, MetadataCache.put, OrdMap.get?_insert] at found
      split at found
      · next same =>
        obtain rfl := Option.some.inj found
        exact same ▸ current f read
      · exact fresh k e found ddl recent
  | putStats now key value =>
    cases taken
    refine iff_of_true (fun k e found ddl recent => ?_) trivial
    rcases OrdMap.get?_insert_or found with old | rfl
    · exact fresh k e old ddl recent
    · cases ddl
  | invalidateDdl key =>
    cases taken
    exact iff_of_true (fun k e found => fresh k e (OrdMap.get?_of_erase found)) trivial

/-- No stale value exactly when puts are current. -/
theorem fresh_iff_putsCurrent (acts : List Act) :
    Run.EveryState step Fresh init acts ↔ Run.EveryStep step PutsCurrent init acts :=
  Run.everyState_iff_everyStep Invariant (fun s a t inv _ => invariant_step s a t inv)
    (fun s a t inv _ fresh => fresh_step s a t inv fresh) acts init
    ⟨nofun, Nat.one_pos⟩ ((fresh_iff _).mpr nofun)
    (Run.everyStep_of_forall (P := fun _ _ => True) (fun _ _ => trivial) _ _)

theorem slow_client_caches_stale :
    ∃ s, Run.exec step init [.applyDdl "cube:a" (some "v1"), .advanceRaftIndex 1,
        .fetch 7 "cube:a", .applyDdl "cube:a" (some "v2"), .advanceRaftIndex 2, .putDdl 7 0] = some s ∧
      s.cache.get 0 "cube:a" = some "v1" ∧
      s.valueAt s.cache.currentRaftIndex "cube:a" = some "v2" := by
  exact ⟨_, rfl, by decide +kernel, by decide +kernel⟩

end CacheRun
end WowDb.Query
