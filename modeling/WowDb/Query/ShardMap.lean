import WowDb.Query.Cluster

/-!
# Lookups of a shard

`query-node/src/meta/shard_map.rs` for one shard, with every lock acquisition a step of its own.
-/
namespace WowDb.Query
open WowDb.Lib List

inductive ReplicaRole where
  | leader
  | follower
  deriving DecidableEq

inductive ReplicaState where
  | normal
  | catchingUp
  | offline
  deriving DecidableEq

structure ShardReplica where
  snNodeId : String
  snEndpoint : String
  role : ReplicaRole
  state : ReplicaState
  shardDir : String
  lsn : Nat
  deriving DecidableEq

structure ShardEntry where
  replicas : List ShardReplica
  deriving DecidableEq

/-- A leader in order, or else the replica in order with the highest number, the last of
them, or else any that is not offline. -/
def ShardEntry.bestReplica (e : ShardEntry) : Option ShardReplica :=
  (e.replicas.find? fun r => r.role == .leader && r.state == .normal).or
    (((e.replicas.filter fun r => r.state == .normal).foldl
      (fun best r => match best with
        | some b => if b.lsn ≤ r.lsn then some r else some b
        | none => some r) none).or
      (e.replicas.find? fun r => r.state != .offline))

def ShardEntry.address (e : ShardEntry) : Option (String × String) :=
  e.bestReplica.map fun r => (r.snEndpoint, r.shardDir)

/-- Between the steps of a lookup. `floor` is the latest registration that had completed when
the lookup started. -/
inductive LookupPhase where
  | fetch (floor : Nat)
  | fill (floor : Nat) (entry : ShardEntry)

/-- `registered` are the entries in the order of the backing store, which holds the last of
them. `answers` are the results of the lookups, with their floors. -/
structure ShardMap where
  clock : Nat
  cache : Option (ShardEntry × Nat)
  registered : List ShardEntry
  floor : Nat
  registering : OrdMap Nat Nat
  looking : OrdMap Nat LookupPhase
  answers : List (Nat × String × String)

namespace ShardMap

def new : ShardMap := ⟨0, none, [], 0, .empty, .empty, []⟩

inductive Act where
  | wait (ms : Nat)
  | registerBacking (call : Nat) (entry : ShardEntry)
  | registerCache (call : Nat)
  | invalidate
  | lookup (call : Nat)
  | fetch (call : Nat)
  | fill (call : Nat)
  | getShardEntry

def fresh (s : ShardMap) : Option ShardEntry :=
  (s.cache.filter fun c => decide (s.clock - c.2 < 500)).map Prod.fst

def getShardEntry (s : ShardMap) : Option ShardEntry := s.fresh.or s.registered.getLast?

def step (s : ShardMap) : Act → Option ShardMap
  | .wait ms => some { s with clock := s.clock + ms }
  | .registerBacking call entry =>
    if (s.registering.get? call).isSome then none
    else some { s with
      registered := s.registered ++ [entry]
      registering := s.registering.insert call s.registered.length }
  | .registerCache call => do
    let i ← s.registering.get? call
    let entry ← s.registered[i]?
    some { s with
      cache := some (entry, s.clock)
      floor := max s.floor i
      registering := s.registering.erase call }
  | .invalidate => some { s with cache := none }
  | .lookup call =>
    if (s.looking.get? call).isSome then none
    else match s.fresh.bind ShardEntry.address with
      | some found => some { s with answers := s.answers ++ [(s.floor, found)] }
      | none => some { s with looking := s.looking.insert call (.fetch s.floor) }
  | .fetch call =>
    match s.looking.get? call, s.registered.getLast? with
    | some (.fetch floor), some entry =>
      -- an entry without a usable replica is an error
      some { s with looking := match entry.address with
        | some _ => s.looking.insert call (.fill floor entry)
        | none => s.looking.erase call }
    | some (.fetch _), none => some { s with looking := s.looking.erase call }
    | _, _ => none
  | .fill call =>
    match s.looking.get? call with
    | some (.fill floor entry) => entry.address.map fun found =>
      { s with
        cache := some (entry, s.clock)
        looking := s.looking.erase call
        answers := s.answers ++ [(floor, found)] }
    | _ => none
  | .getShardEntry => some s

/-- The address is that of the registration `floor` or of a later one. -/
def Since (s : ShardMap) (floor : Nat) (found : String × String) : Prop :=
  ∃ e ∈ s.registered.drop floor, e.address = some found

/-- No lookup goes back in time. -/
def Forward (s : ShardMap) : Prop :=
  (∀ answer ∈ s.answers, s.Since answer.1 answer.2) ∧
    ∀ found, s.fresh.bind ShardEntry.address = some found → s.Since s.floor found

/-- The cache is filled with the latest address or a later one. -/
def FillsForward (s : ShardMap) : Act → Prop
  | .registerCache call => ∀ i entry found, s.registering.get? call = some i →
    s.registered[i]? = some entry → entry.address = some found → s.Since (max s.floor i) found
  | .fill call => ∀ floor entry found, s.looking.get? call = some (.fill floor entry) →
    entry.address = some found → s.Since s.floor found
  | _ => True

structure Invariant (s : ShardMap) : Prop where
  floor : s.floor = 0 ∨ s.floor < s.registered.length
  registering : ∀ call i, s.registering.get? call = some i → i < s.registered.length
  fetching : ∀ call f, s.looking.get? call = some (.fetch f) → f = 0 ∨ f < s.registered.length
  filling : ∀ call f e, s.looking.get? call = some (.fill f e) → e ∈ s.registered.drop f

variable {entries : List ShardEntry}

theorem mem_drop_append {e : ShardEntry} {n : Nat}
    (mem : e ∈ entries.drop n) (more : List ShardEntry) : e ∈ (entries ++ more).drop n := by
  rw [drop_append]
  exact mem_append_left _ mem

theorem getLast_mem_drop {e : ShardEntry} {n : Nat}
    (last : entries.getLast? = some e) (within : n = 0 ∨ n < entries.length) :
    e ∈ entries.drop n := by
  have some : n < entries.length := by
    cases entries with
    | nil => cases last
    | cons first rest => exact within.elim (fun zero => zero ▸ Nat.succ_pos _) id
  apply mem_of_getLast?
  rw [getLast?_drop, if_neg (by omega), last]

variable {s : ShardMap}

theorem Since.append {floor : Nat} {found : String × String}
    (since : s.Since floor found) {t : ShardMap} {more : List ShardEntry}
    (grown : t.registered = s.registered ++ more) : t.Since floor found := by
  obtain ⟨e, mem, address⟩ := since
  exact ⟨e, grown ▸ mem_drop_append mem more, address⟩

theorem Invariant.looking (inv : Invariant s) {looking : OrdMap Nat LookupPhase}
    (fetching : ∀ call f, looking.get? call = some (.fetch f) →
      s.looking.get? call = some (.fetch f) ∨ f = s.floor)
    (filling : ∀ call f e, looking.get? call = some (.fill f e) →
      s.looking.get? call = some (.fill f e) ∨ e ∈ s.registered.drop f)
    (cache : Option (ShardEntry × Nat)) (answers : List (Nat × String × String)) :
    Invariant { s with looking := looking, cache := cache, answers := answers } where
  floor := inv.floor
  registering := inv.registering
  fetching call f found := (fetching call f found).elim (inv.fetching call f) fun same =>
    same ▸ inv.floor
  filling call f e found := (filling call f e found).elim (inv.filling call f e) id

theorem invariant_step (s : ShardMap) (act : Act) (t : ShardMap) (inv : Invariant s)
    (taken : step s act = some t) : Invariant t := by
  have dropped : ∀ call cache answers, Invariant
      { s with looking := s.looking.erase call, cache := cache, answers := answers } :=
    fun call cache answers => inv.looking (fun _ _ found => .inl (OrdMap.get?_of_erase found))
      (fun _ _ _ found => .inl (OrdMap.get?_of_erase found)) cache answers
  cases act with
  | wait ms =>
    cases taken
    exact ⟨inv.floor, inv.registering, inv.fetching, inv.filling⟩
  | registerBacking call entry =>
    simp only [step] at taken
    split at taken
    · cases taken
    · cases taken
      have longer : s.registered.length < (s.registered ++ [entry]).length := by simp
      refine ⟨inv.floor.imp_right longer.trans', fun c i found => ?_, fun c f found =>
        (inv.fetching c f found).imp_right longer.trans', fun c f e found =>
        mem_drop_append (inv.filling c f e found) _⟩
      rcases OrdMap.get?_insert_or found with old | rfl
      · exact longer.trans' (inv.registering c i old)
      · exact longer
  | registerCache call =>
    simp only [step, Option.bind_eq_bind, Option.bind_eq_some_iff, Option.some.injEq] at taken
    obtain ⟨i, waiting, entry, -, rfl⟩ := taken
    have bound := inv.registering call i waiting
    refine ⟨?_, fun c j found => inv.registering c j (OrdMap.get?_of_erase found), inv.fetching,
      inv.filling⟩
    have low := inv.floor
    simp only
    omega
  | invalidate =>
    cases taken
    exact ⟨inv.floor, inv.registering, inv.fetching, inv.filling⟩
  | lookup call =>
    simp only [step] at taken
    split at taken
    · cases taken
    · split at taken
      · cases taken
        exact ⟨inv.floor, inv.registering, inv.fetching, inv.filling⟩
      · cases taken
        refine inv.looking (fun c f found => ?_) (fun c f e found => ?_) s.cache s.answers
        · rcases OrdMap.get?_insert_or found with old | new
          · exact .inl old
          · exact .inr (LookupPhase.fetch.inj new)
        · rcases OrdMap.get?_insert_or found with old | new
          · exact .inl old
          · cases new
  | fetch call =>
    simp only [step] at taken
    split at taken
    · next floor entry under last =>
      cases taken
      split
      · refine inv.looking (fun c f found => ?_) (fun c f e found => ?_) s.cache s.answers
        · rcases OrdMap.get?_insert_or found with old | new
          · exact .inl old
          · cases new
        · rcases OrdMap.get?_insert_or found with old | new
          · exact .inl old
          · obtain ⟨rfl, rfl⟩ := LookupPhase.fill.inj new
            exact .inr (getLast_mem_drop last (inv.fetching call f under))
      · exact dropped call s.cache s.answers
    · cases taken
      exact dropped call s.cache s.answers
    · cases taken
  | fill call =>
    simp only [step] at taken
    split at taken
    · obtain ⟨found, -, rfl⟩ := Option.map_eq_some_iff.mp taken
      exact dropped call _ _
    · cases taken
  | getShardEntry =>
    cases taken
    exact inv

theorem fresh_of_cache {entry : ShardEntry} (cached : s.cache = some (entry, s.clock)) :
    s.fresh = some entry := by
  simp [fresh, cached]

theorem forward_step (s : ShardMap) (act : Act) (t : ShardMap) (inv : Invariant s)
    (forward : Forward s) (taken : step s act = some t) : Forward t ↔ FillsForward s act := by
  obtain ⟨answered, hits⟩ := forward
  cases act with
  | wait ms =>
    cases taken
    refine iff_of_true ⟨answered, fun found hit => hits found ?_⟩ trivial
    obtain ⟨entry, still, address⟩ := Option.bind_eq_some_iff.mp hit
    refine Option.bind_eq_some_iff.mpr ⟨entry, ?_, address⟩
    simp only [fresh, Option.map_eq_some_iff, Option.filter_eq_some_iff, decide_eq_true_eq] at still ⊢
    obtain ⟨c, ⟨cached, recent⟩, same⟩ := still
    exact ⟨c, ⟨cached, by omega⟩, same⟩
  | registerBacking call entry =>
    simp only [step] at taken
    split at taken
    · cases taken
    · cases taken
      exact iff_of_true ⟨fun answer mem => (answered answer mem).append rfl,
        fun found hit => (hits found hit).append rfl⟩ trivial
  | registerCache call =>
    simp only [step, Option.bind_eq_bind, Option.bind_eq_some_iff, Option.some.injEq] at taken
    obtain ⟨i, waiting, entry, there, rfl⟩ := taken
    constructor
    · rintro ⟨-, after⟩ j e found index listed address
      obtain rfl := Option.some.inj (waiting.symm.trans index)
      obtain rfl := Option.some.inj (there.symm.trans listed)
      exact after found (by rw [fresh_of_cache rfl, Option.bind_some, address])
    · intro fills
      refine ⟨answered, fun found hit => ?_⟩
      rw [fresh_of_cache rfl, Option.bind_some] at hit
      exact fills i entry found waiting there hit
  | invalidate =>
    cases taken
    exact iff_of_true ⟨answered, nofun⟩ trivial
  | lookup call =>
    simp only [step] at taken
    split at taken
    · cases taken
    · split at taken
      · next found hit =>
        cases taken
        refine iff_of_true ⟨fun answer mem => ?_, hits⟩ trivial
        rcases mem_append.mp mem with old | new
        · exact answered answer old
        · obtain rfl := mem_singleton.mp new
          exact hits found hit
      · cases taken
        exact iff_of_true ⟨answered, hits⟩ trivial
  | fetch call =>
    refine iff_of_true ?_ trivial
    simp only [step] at taken
    split at taken
    all_goals
      cases taken
      try exact ⟨answered, hits⟩
  | fill call =>
    simp only [step] at taken
    split at taken
    · next floor entry under =>
      obtain ⟨found, address, rfl⟩ := Option.map_eq_some_iff.mp taken
      constructor
      · rintro ⟨-, after⟩ f e other same own
        obtain ⟨rfl, rfl⟩ := LookupPhase.fill.inj (Option.some.inj (under.symm.trans same))
        exact after other (by rw [fresh_of_cache rfl, Option.bind_some, own])
      · intro fills
        refine ⟨fun answer mem => ?_, fun other hit => ?_⟩
        · rcases mem_append.mp mem with old | new
          · exact answered answer old
          · obtain rfl := mem_singleton.mp new
            exact ⟨entry, inv.filling call floor entry under, address⟩
        · rw [fresh_of_cache rfl, Option.bind_some] at hit
          exact fills floor entry other under hit
    · cases taken
  | getShardEntry =>
    cases taken
    exact iff_of_true ⟨answered, hits⟩ trivial

/-- Lookups go forward exactly when writes to the cache do. -/
theorem forward_iff_fillsForward (acts : List Act) :
    Run.EveryState step Forward new acts ↔ Run.EveryStep step FillsForward new acts :=
  Run.everyState_iff_everyStep Invariant (fun s a t inv _ => invariant_step s a t inv)
    (fun s a t inv _ forward => forward_step s a t inv forward) acts new
    ⟨.inl rfl, nofun, nofun, nofun⟩ ⟨nofun, nofun⟩
    (Run.everyStep_of_forall (P := fun _ _ => True) (fun _ _ => trivial) _ _)

theorem slow_lookup_restores_old :
    let entry (endpoint : String) : ShardEntry := ⟨[⟨"sn", endpoint, .leader, .normal, "/d", 1⟩]⟩
    ∃ s, Run.exec step new [.registerBacking 1 (entry "old"), .registerCache 1, .invalidate, .lookup 2,
        .fetch 2, .registerBacking 3 (entry "new"), .registerCache 3, .fill 2, .lookup 4] = some s ∧
      s.floor = 1 ∧ s.answers = [(0, "old", "/d"), (1, "old", "/d")] := by
  exact ⟨_, rfl, by decide +kernel, by decide +kernel⟩

end ShardMap
end WowDb.Query
