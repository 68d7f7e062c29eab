import WowDb.Lib.OrdMap

/-!
# Colocate groups

`query-node/src/meta/colocate.rs` for one group: each call reads the stored group and writes what it
makes of it, unsynchronised.
-/
namespace WowDb.Query
open WowDb.Lib List

structure ColocateGroup where
  name : String
  distributionKey : List String
  bucketCount : Nat
  members : Finset String
  createdAt : Nat
  stable : Bool
  deriving DecidableEq

namespace ColocateManager

inductive Call where
  | createGroup (name : String) (distributionKey : List String) (bucketCount now : Nat)
  | dropGroup (name : String) (ifExists : Bool)
  | addMember (groupName cubeName : String) (cubeDistKey : List String) (cubeBucketCount : Nat)
  | removeMember (groupName cubeName : String)

variable (group : ColocateGroup)

def withMembers (members : Finset String) : ColocateGroup :=
  { group with members := members, stable := decide (2 ≤ members.card) }

/-- What a call does once it has read: an error, nothing, or a write, of which `none` deletes. -/
def decideOn (stored : Option ColocateGroup) : Call → Except String (Option (Option ColocateGroup))
  | .createGroup name distributionKey bucketCount now =>
    if stored.isSome then .error ("Colocate group '" ++ name ++ "' already exists")
    else if distributionKey.isEmpty then .error "Distribution key must have at least one column"
    else if bucketCount = 0 ∨ 65536 < bucketCount then .error "bucket_count must be 1..65536"
    else .ok (some (some ⟨name, distributionKey, bucketCount, ∅, now, false⟩))
  | .dropGroup name ifExists =>
    match stored with
    | none =>
      if ifExists then .ok none else .error ("Colocate group '" ++ name ++ "' not found")
    | some group =>
      if group.members = ∅ then .ok (some none)
      else .error ("Colocate group '" ++ name ++ "' has " ++ toString group.members.card ++
        " member(s). Remove all members first.")
  | .addMember groupName cubeName cubeDistKey cubeBucketCount =>
    match stored with
    | none => .error ("Colocate group '" ++ groupName ++ "' not found")
    | some group =>
      if cubeBucketCount ≠ group.bucketCount then
        .error ("Bucket count mismatch: group=" ++ toString group.bucketCount ++ ", cube=" ++
          toString cubeBucketCount)
      else if cubeDistKey ≠ group.distributionKey then
        .error ("Distribution key mismatch: group=" ++ reprStr group.distributionKey ++ ", cube=" ++
          reprStr cubeDistKey)
      else .ok (some (some (withMembers group (insert cubeName group.members))))
  | .removeMember groupName cubeName =>
    match stored with
    | none => .error ("Colocate group '" ++ groupName ++ "' not found")
    | some group => .ok (some (some (withMembers group (group.members.erase cubeName))))

def execute (stored : Option ColocateGroup) (call : Call) : Option ColocateGroup :=
  match decideOn stored call with
  | .ok (some new) => new
  | .ok none | .error _ => stored

inductive Step where
  | read (id : Nat)
  | write (id : Nat)
  deriving DecidableEq

/-- `pending` are the calls that have read, with what they write; `log` are those that
returned `Ok`, in order; `harmed` is set when a group with members is dropped. -/
structure State where
  stored : Option ColocateGroup
  started : List Nat
  pending : OrdMap Nat (Option ColocateGroup)
  log : List Nat
  harmed : Bool

def step (calls : Nat → Call) (s : State) : Step → State
  | .read id =>
    if id ∈ s.started then s
    else match decideOn s.stored (calls id) with
      | .error _ => { s with started := id :: s.started }
      | .ok none => { s with started := id :: s.started, log := s.log ++ [id] }
      | .ok (some new) => { s with started := id :: s.started, pending := s.pending.insert id new }
  | .write id =>
    match s.pending.get? id with
    | none => s
    | some new => { s with
        stored := new
        pending := s.pending.erase id
        log := s.log ++ [id]
        harmed := s.harmed || (new.isNone && s.stored.any fun g => decide (g.members ≠ ∅)) }

def run (calls : Nat → Call) (stored : Option ColocateGroup) (schedule : List Step) : State :=
  schedule.foldl (step calls) ⟨stored, [], .empty, [], false⟩

/-- The members are those of the calls in some order. -/
def Serial (calls : Nat → Call) (stored : Option ColocateGroup) (schedule : List Step) : Prop :=
  (∃ order : List Nat, order.Perm (run calls stored schedule).log ∧
    (run calls stored schedule).stored.map ColocateGroup.members =
      ((order.map calls).foldl execute stored).map ColocateGroup.members) ∧
  (run calls stored schedule).harmed = false

/-- What the schedule alone says: the calls between their two steps, each with whether
another has written since it read; and whether such a call has written. -/
structure Track where
  started : List Nat
  pending : OrdMap Nat Bool
  clean : Bool

def Track.step (t : Track) : Step → Track
  | .read id =>
    if id ∈ t.started then t
    else { t with started := id :: t.started, pending := t.pending.insert id false }
  | .write id =>
    match t.pending.get? id with
    | none => t
    | some disturbed => { t with
        pending := (t.pending.erase id).map fun _ => true
        clean := t.clean && !disturbed }

def track (schedule : List Step) : Track := schedule.foldl Track.step ⟨[], .empty, true⟩

/-- No call writes between the two steps of another. -/
def Undisturbed (schedule : List Step) : Prop := (track schedule).clean = true

variable (schedule : List Step)

theorem run_relation {calls : Nat → Call} {stored : Option ColocateGroup}
    {related : State → Track → Prop}
    (read : ∀ {s t}, related s t → ∀ id, related (step calls s (.read id)) (t.step (.read id)))
    (write : ∀ {s t}, related s t → ∀ id, related (step calls s (.write id)) (t.step (.write id)))
    (start : related ⟨stored, [], .empty, [], false⟩ ⟨[], .empty, true⟩) :
    related (run calls stored schedule) (track schedule) := by
  induction schedule using reverseRecOn with
  | nil => exact start
  | append_singleton before a ih =>
    simp only [run, track, foldl_append] at ih ⊢
    cases a with
    | read id => exact read ih id
    | write id => exact write ih id

theorem members_of_delete {stored : Option ColocateGroup} {call : Call}
    (deletes : decideOn stored call = .ok (some none)) :
    (stored.any fun g => decide (g.members ≠ ∅)) = false := by
  cases call with
  | dropGroup name ifExists =>
    cases stored with
    | none => rfl
    | some group =>
      by_cases empty : group.members = ∅
      · simp [empty]
      · simp [decideOn, empty] at deletes
  | createGroup name distributionKey bucketCount now =>
    simp only [decideOn] at deletes
    split_ifs at deletes
    simp at deletes
  | addMember groupName cubeName cubeDistKey cubeBucketCount =>
    cases stored with
    | none => cases deletes
    | some group =>
      simp only [decideOn] at deletes
      split_ifs at deletes
      simp at deletes
  | removeMember groupName cubeName =>
    cases stored <;> simp [decideOn] at deletes

structure Follows (calls : Nat → Call) (stored : Option ColocateGroup) (s : State) (t : Track) :
    Prop where
  started : s.started = t.started
  known : ∀ id new, s.pending.get? id = some new → id ∈ s.started
  pending : ∀ id new, s.pending.get? id = some new → ∃ disturbed,
    t.pending.get? id = some disturbed ∧
      (disturbed = false → decideOn s.stored (calls id) = .ok (some new))
  serial : t.clean = true →
    s.stored = (s.log.map calls).foldl execute stored ∧ s.harmed = false

variable {calls : Nat → Call} {stored : Option ColocateGroup} {s : State} {t : Track}

theorem Follows.read (follows : Follows calls stored s t) (id : Nat) :
    Follows calls stored (step calls s (.read id)) (t.step (.read id)) := by
  simp only [step, Track.step, ← follows.started]
  split
  · exact follows
  · next fresh =>
    have kept : ∀ j new, s.pending.get? j = some new → ∃ disturbed,
        (t.pending.insert id false).get? j = some disturbed ∧
          (disturbed = false → decideOn s.stored (calls j) = .ok (some new)) := by
      intro j new found
      have other : j ≠ id := fun same => fresh (same ▸ follows.known j new found)
      rw [OrdMap.get?_insert, if_neg other]
      exact follows.pending j new found
    have known : ∀ j new, s.pending.get? j = some new → j ∈ id :: s.started :=
      fun j new found => mem_cons_of_mem _ (follows.known j new found)
    split
    · exact ⟨rfl, known, kept, follows.serial⟩
    · next nothing =>
      refine ⟨rfl, known, kept, fun clean => ?_⟩
      obtain ⟨replayed, unharmed⟩ := follows.serial clean
      rw [map_append, foldl_append, ← replayed]
      exact ⟨by simp [execute, nothing], unharmed⟩
    · next new decided =>
      refine ⟨rfl, fun j v found => ?_, fun j v found => ?_, follows.serial⟩
      all_goals
        rw [OrdMap.get?_insert] at found
        split at found
      · next same => exact same ▸ mem_cons_self
      · exact known j v found
      · next same =>
        obtain rfl := Option.some.inj found
        exact ⟨false, by rw [OrdMap.get?_insert, if_pos same], fun _ => same ▸ decided⟩
      · exact kept j v found

theorem Follows.write (follows : Follows calls stored s t) (id : Nat) :
    Follows calls stored (step calls s (.write id)) (t.step (.write id)) := by
  have marked : ∀ j d, j ≠ id → t.pending.get? j = some d →
      ((t.pending.erase id).map fun _ => true).get? j = some true := by
    intro j d other found
    rw [OrdMap.get?_map, OrdMap.get?_erase, if_neg other, found]
    rfl
  simp only [step, Track.step]
  cases here : s.pending.get? id with
  | none =>
    cases tracked : t.pending.get? id with
    | none => exact follows
    | some d =>
      refine ⟨follows.started, follows.known, fun j new found => ?_, fun clean => ?_⟩
      · obtain ⟨e, there, -⟩ := follows.pending j new found
        have other : j ≠ id := by
          rintro rfl
          rw [here] at found
          cases found
        exact ⟨true, marked j e other there, nofun⟩
      · exact follows.serial (Bool.and_eq_true_iff.mp clean).1
  | some new =>
    obtain ⟨d, tracked, current⟩ := follows.pending id new here
    rw [tracked]
    refine ⟨follows.started, fun j v found => follows.known j v (OrdMap.get?_of_erase found),
      fun j v found => ?_, fun clean => ?_⟩
    · obtain ⟨e, there, -⟩ := follows.pending j v (OrdMap.get?_of_erase found)
      have other : j ≠ id := by
        rintro rfl
        rw [OrdMap.get?_erase, if_pos rfl] at found
        cases found
      exact ⟨true, marked j e other there, nofun⟩
    · obtain ⟨before, undisturbed⟩ := Bool.and_eq_true_iff.mp clean
      have decided := current (by simpa using undisturbed)
      obtain ⟨replayed, unharmed⟩ := follows.serial before
      rw [map_append, foldl_append, ← replayed]
      refine ⟨by simp [execute, decided], ?_⟩
      cases new with
      | none => simpa [unharmed] using members_of_delete decided
      | some group => simp [unharmed]

theorem follows_run : Follows calls stored (run calls stored schedule) (track schedule) :=
  run_relation schedule (fun follows => follows.read) (fun follows => follows.write)
    ⟨rfl, nofun, nofun, fun _ => ⟨rfl, rfl⟩⟩

def cube (id : Nat) : String := String.ofList (List.replicate id 'c')

theorem cube_injective : Function.Injective cube := by
  intro i j same
  have lengths := congrArg String.length same
  simpa [cube] using lengths

def adds (id : Nat) : Call := .addMember "g" (cube id) ["k"] 1

def emptyGroup : ColocateGroup := ⟨"g", ["k"], 1, ∅, 0, false⟩

def Fits : Prop :=
  group.distributionKey = ["k"] ∧ group.bucketCount = 1

theorem decideOn_adds {group : ColocateGroup} (fits : Fits group) (id : Nat) :
    decideOn (some group) (adds id) =
      .ok (some (some (withMembers group (insert (cube id) group.members)))) := by
  simp [decideOn, adds, fits.1, fits.2]

theorem card_replay (order : List Nat) : ∀ group, Fits group → order.Nodup →
    (∀ id ∈ order, cube id ∉ group.members) → ∃ group',
      (order.map adds).foldl execute (some group) = some group' ∧
        group'.members.card = group.members.card + order.length := by
  induction order with
  | nil => exact fun group _ _ _ => ⟨group, rfl, rfl⟩
  | cons id rest ih =>
    intro group fits distinct absent
    obtain ⟨once, distinct⟩ := nodup_cons.mp distinct
    have added : execute (some group) (adds id) =
        some (withMembers group (insert (cube id) group.members)) := by
      simp [execute, decideOn_adds fits]
    have absent' : ∀ j ∈ rest,
        cube j ∉ (withMembers group (insert (cube id) group.members)).members := by
      intro j inside member
      rcases Finset.mem_insert.mp member with same | old
      · exact once (cube_injective same ▸ inside)
      · exact absent j (mem_cons_of_mem _ inside) old
    obtain ⟨group', replayed, card⟩ :=
      ih (withMembers group (insert (cube id) group.members)) fits distinct absent'
    refine ⟨group', by rw [map_cons, foldl_cons, added, replayed], ?_⟩
    rw [card, length_cons]
    have one : (withMembers group (insert (cube id) group.members)).members.card =
        group.members.card + 1 :=
      Finset.card_insert_of_notMem (absent id mem_cons_self)
    omega

structure Counts (s : State) (t : Track) : Prop where
  started : s.started = t.started
  pending : ∀ id disturbed, t.pending.get? id = some disturbed → id ∈ s.started ∧ id ∉ s.log ∧
    ∃ group, s.pending.get? id = some (some group) ∧ Fits group ∧
      group.members.card ≤ s.log.length + 1 ∧
      (disturbed = true ∨ t.clean = false → group.members.card ≤ s.log.length)
  idle : ∀ id, t.pending.get? id = none → s.pending.get? id = none
  log : s.log.Nodup ∧ ∀ id ∈ s.log, id ∈ s.started
  stored : ∃ group, s.stored = some group ∧ Fits group ∧ group.members.card ≤ s.log.length ∧
    (t.clean = false → group.members.card < s.log.length)

theorem Counts.read (counts : Counts s t) (id : Nat) :
    Counts (step adds s (.read id)) (t.step (.read id)) := by
  obtain ⟨group, stored, fits, most, fewer⟩ := counts.stored
  have decided := decideOn_adds fits id
  rw [← stored] at decided
  simp only [step, Track.step, ← counts.started, decided]
  split
  · exact counts
  · next fresh =>
    refine ⟨rfl, fun j d found => ?_, fun j absent => ?_,
      ⟨counts.log.1, fun j inside => mem_cons_of_mem _ (counts.log.2 j inside)⟩,
      group, stored, fits, most, fewer⟩
    · rw [OrdMap.get?_insert] at found ⊢
      split at found
      · next same =>
        subst same
        obtain rfl := Option.some.inj found
        have grown := Finset.card_insert_le (cube j) group.members
        refine ⟨mem_cons_self, fun inside => fresh (counts.log.2 j inside),
          _, if_pos rfl, fits, ?_, ?_⟩
        · simp only [withMembers]
          omega
        · rintro (disturbed | unclean)
          · cases disturbed
          · have := fewer unclean
            simp only [withMembers]
            omega
      · next other =>
        obtain ⟨known, unlogged, rest⟩ := counts.pending j d found
        rw [if_neg other]
        exact ⟨mem_cons_of_mem _ known, unlogged, rest⟩
    · rw [OrdMap.get?_insert] at absent ⊢
      split at absent
      · cases absent
      · next other =>
        rw [if_neg other]
        exact counts.idle j absent

theorem Counts.write (counts : Counts s t) (id : Nat) :
    Counts (step adds s (.write id)) (t.step (.write id)) := by
  simp only [step, Track.step]
  cases tracked : t.pending.get? id with
  | none =>
    rw [counts.idle id tracked]
    exact counts
  | some d =>
    obtain ⟨known, unlogged, group, here, fits, most, fewer⟩ := counts.pending id d tracked
    rw [here]
    have length : (s.log ++ [id]).length = s.log.length + 1 := length_append
    refine ⟨counts.started, fun j e found => ?_, fun j absent => ?_, ⟨?_, fun j inside => ?_⟩,
      group, rfl, fits, ?_, fun unclean => ?_⟩
    · rw [OrdMap.get?_map, OrdMap.get?_erase] at found
      split at found
      · cases found
      · next other =>
        obtain ⟨old, was, -⟩ := Option.map_eq_some_iff.mp found
        obtain ⟨known', unlogged', group', there, fits', most', -⟩ := counts.pending j old was
        refine ⟨known', by simp [unlogged', other], group', ?_, fits', ?_, fun _ => ?_⟩
        · rw [OrdMap.get?_erase, if_neg other, there]
        · exact most'.trans (by rw [length]; omega)
        · exact most'.trans_eq length.symm
    · rw [OrdMap.get?_map, OrdMap.get?_erase] at absent
      rw [OrdMap.get?_erase]
      split at absent
      · next same => rw [if_pos same]
      · next other =>
        rw [if_neg other]
        exact counts.idle j (Option.map_eq_none_iff.mp absent)
    · exact nodup_append_comm.mp (nodup_cons.mpr ⟨unlogged, counts.log.1⟩)
    · rcases mem_append.mp inside with old | new
      · exact counts.log.2 j old
      · exact mem_singleton.mp new ▸ known
    · exact most.trans_eq length.symm
    · -- the write itself was disturbed, or one before it was
      have few : group.members.card ≤ s.log.length := by
        apply fewer
        cases d with
        | true => exact Or.inl rfl
        | false => exact Or.inr (by simpa using unclean)
      exact (Nat.lt_succ_of_le few).trans_eq length.symm

theorem counts_run : Counts (run adds (some emptyGroup) schedule) (track schedule) :=
  run_relation schedule (fun counts => counts.read) (fun counts => counts.write)
    ⟨rfl, nofun, fun _ _ => rfl, ⟨nodup_nil, nofun⟩,
      emptyGroup, rfl, ⟨rfl, rfl⟩, le_rfl, nofun⟩

/-- Exactly when no call writes after another since its read. -/
theorem interleaving_serial_iff (schedule : List Step) :
    (∀ calls stored, Serial calls stored schedule) ↔ Undisturbed schedule := by
  constructor
  · intro serial
    obtain ⟨⟨order, reordered, replayed⟩, -⟩ := serial adds (some emptyGroup)
    have counts := counts_run schedule
    obtain ⟨group, stored, -, -, fewer⟩ := counts.stored
    obtain ⟨group', replay, card⟩ := card_replay order emptyGroup ⟨rfl, rfl⟩
      (reordered.nodup_iff.mpr counts.log.1) (fun _ _ => Finset.notMem_empty _)
    rw [stored, replay] at replayed
    have same := congrArg Finset.card (Option.some.inj replayed)
    have lengths := reordered.length_eq
    have none : emptyGroup.members.card = 0 := rfl
    by_contra disturbed
    have := fewer (by simpa [Undisturbed] using disturbed)
    omega
  · intro undisturbed calls stored
    obtain ⟨replayed, unharmed⟩ := (follows_run schedule).serial undisturbed
    exact ⟨⟨_, List.Perm.refl _, congrArg _ replayed⟩, unharmed⟩

theorem concurrent_add_lost :
    ¬ Serial adds (some emptyGroup) [.read 1, .read 2, .write 1, .write 2] ∧
      ¬ Serial (fun id => if id = 1 then adds 1 else .dropGroup "g" false) (some emptyGroup)
        [.read 1, .read 2, .write 1, .write 2] := by
  have ran : (run adds (some emptyGroup) [.read 1, .read 2, .write 1, .write 2]).log = [1, 2] ∧
      (run adds (some emptyGroup) [.read 1, .read 2, .write 1, .write 2]).stored.map
        ColocateGroup.members = some {cube 2} := by
    decide +kernel
  refine ⟨fun serial => ?_, fun serial => ?_⟩
  · obtain ⟨⟨order, reordered, replayed⟩, -⟩ := serial
    rw [ran.1] at reordered
    obtain ⟨group, replay, card⟩ := card_replay order emptyGroup ⟨rfl, rfl⟩
      (reordered.nodup_iff.mpr (by decide)) (fun _ _ => Finset.notMem_empty _)
    rw [ran.2, replay] at replayed
    have one : ({cube 2} : Finset String).card = group.members.card :=
      congrArg Finset.card (Option.some.inj replayed)
    rw [card, reordered.length_eq] at one
    exact absurd one (by decide)
  · exact absurd serial.2 (by decide +kernel)

end ColocateManager
end WowDb.Query
