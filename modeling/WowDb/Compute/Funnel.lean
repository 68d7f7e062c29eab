import WowDb.Lib.Int64
import WowDb.Lib.OrdMap
import WowDb.Lib.Subsequence

/-!
# Funnels

`compute-node/src/executor/analytics/funnel.rs`.
-/
namespace WowDb.Compute
open WowDb.Lib

structure FunnelStep where
  eventName : String
  filter : Option String
  deriving DecidableEq

structure FunnelDef where
  steps : List FunnelStep
  windowSec : Int64
  deriving DecidableEq

structure EventRecord where
  userKey : Bytes
  eventName : String
  eventTime : Int64
  deriving DecidableEq

def bit (step : Nat) : UInt64 := 1 <<< UInt64.ofNat step

structure UserFunnelState (n : Nat) where
  achieved : UInt64
  lastTimes : Vector (Option Int64) n

namespace UserFunnelState

variable {n : Nat}

def fresh : UserFunnelState n := ⟨0, .replicate n none⟩

def counted (s : UserFunnelState n) (step : Nat) : Bool := s.achieved &&& bit step != 0

def achieve (s : UserFunnelState n) (i : Fin n) (eventTime : Int64) : UserFunnelState n :=
  ⟨s.achieved ||| bit i, s.lastTimes.set i (some eventTime)⟩

def visitStep (windowSec eventTime : Int64) (s : UserFunnelState n) (i : Fin n) :
    UserFunnelState n :=
  if i.val = 0 then s.achieve i eventTime
  else if s.counted (i.val - 1) then
    let prevTime := s.lastTimes[i.val - 1].getD Int64.minValue
    let elapsed := eventTime - prevTime
    if 0 ≤ elapsed ∧ elapsed ≤ windowSec then s.achieve i eventTime else s
  else s

def earlier : Option Int64 → Option Int64 → Option Int64
  | mine, none => mine
  | none, some t => some t
  | some existing, some t => some (min existing t)

def merge (other s : UserFunnelState n) : UserFunnelState n :=
  ⟨s.achieved ||| other.achieved, s.lastTimes.zipWith earlier other.lastTimes⟩

end UserFunnelState

open UserFunnelState

abbrev FunnelDef.size (funnel : FunnelDef) : Nat := funnel.steps.length

def FunnelDef.visitEvent (funnel : FunnelDef) (event : EventRecord)
    (s : UserFunnelState funnel.size) : UserFunnelState funnel.size :=
  (List.finRange funnel.steps.length).foldl
    (fun s i => if event.eventName ≠ (funnel.steps.get i).eventName then s
      else s.visitStep funnel.windowSec event.eventTime i) s

structure FunnelExecutor (funnel : FunnelDef) where
  states : OrdMap Bytes (UserFunnelState funnel.size)

namespace FunnelExecutor

variable {funnel : FunnelDef}

def new (funnel : FunnelDef) : FunnelExecutor funnel := ⟨.empty⟩

def processEvents (ex : FunnelExecutor funnel) (events : List EventRecord) :
    FunnelExecutor funnel :=
  ⟨events.foldl (fun states event => states.upsert event.userKey fresh (funnel.visitEvent event))
    ex.states⟩

def stepCounts (ex : FunnelExecutor funnel) : List Nat :=
  (List.range funnel.size).map fun step => ex.states.entries.countP fun e => e.2.counted step

def merge (order : HashIteration Bytes (UserFunnelState funnel.size))
    (ex other : FunnelExecutor funnel) : FunnelExecutor funnel :=
  ⟨(order.iterate other.states).foldl
    (fun states e => states.upsert e.1 fresh (UserFunnelState.merge e.2)) ex.states⟩

end FunnelExecutor

def SortedByUserAndTime (events : List EventRecord) : Prop :=
  events.Pairwise fun a b => a.userKey < b.userKey ∨ a.userKey = b.userKey ∧ a.eventTime ≤ b.eventTime

instance (events : List EventRecord) : Decidable (SortedByUserAndTime events) :=
  inferInstanceAs (Decidable (events.Pairwise _))

def ofUser (user : Bytes) (events : List EventRecord) : List EventRecord :=
  events.filter (·.userKey = user)

theorem SortedByUserAndTime.ofUser {events : List EventRecord} (sorted : SortedByUserAndTime events)
    (user : Bytes) : (ofUser user events).Pairwise fun a b => a.eventTime ≤ b.eventTime := by
  refine (sorted.filter _).imp_of_mem ?_
  intro a b fromA fromB order
  have userA := of_decide_eq_true (List.mem_filter.1 fromA).2
  have userB := of_decide_eq_true (List.mem_filter.1 fromB).2
  rw [userA, userB] at order
  exact (order.resolve_left (lt_irrefl user)).2

theorem ofUser_concat (user : Bytes) (events : List EventRecord) (event : EventRecord) :
    ofUser user (events ++ [event]) =
      if event.userKey = user then ofUser user events ++ [event] else ofUser user events := by
  rw [ofUser, ofUser, List.filter_append]
  split
  · next own => rw [List.filter_cons_of_pos (by simpa using own), List.filter_nil]
  · next other => rw [List.filter_cons_of_neg (by simpa using other), List.filter_nil, List.append_nil]

theorem toNat_bit (step : Nat) : (bit step).toNat = 2 ^ (step % 64) := by
  have below : 2 ^ (step % 64) < 2 ^ 64 := Nat.pow_lt_pow_right (by decide) (Nat.mod_lt _ (by decide))
  have shift : step % 2 ^ 64 % 64 = step % 64 := Nat.mod_mod_of_dvd _ (by decide)
  rw [bit, UInt64.toNat_shiftLeft, UInt64.toNat_ofNat', shift, UInt64.toNat_one, Nat.one_shiftLeft]
  exact Nat.mod_eq_of_lt below

namespace UserFunnelState

variable {n : Nat}

theorem counted_eq_testBit (s : UserFunnelState n) (step : Nat) :
    s.counted step = s.achieved.toNat.testBit (step % 64) := by
  have zero : s.achieved &&& bit step = 0 ↔ s.achieved.toNat &&& 2 ^ (step % 64) = 0 := by
    rw [← UInt64.toNat_inj, UInt64.toNat_and, toNat_bit]
    rfl
  rw [counted, Bool.eq_iff_iff, bne_iff_ne, ne_eq, zero, Nat.and_two_pow]
  cases s.achieved.toNat.testBit (step % 64) <;> simp

theorem counted_fresh (step : Nat) : (fresh : UserFunnelState n).counted step = false := by
  rw [counted_eq_testBit]
  exact Nat.zero_testBit _

theorem counted_achieve (s : UserFunnelState n) (i : Fin n) (eventTime : Int64) (step : Nat) :
    (s.achieve i eventTime).counted step = (s.counted step || decide (i.val % 64 = step % 64)) := by
  rw [counted_eq_testBit, counted_eq_testBit, achieve, UInt64.toNat_or, toNat_bit, Nat.testBit_or,
    Nat.testBit_two_pow]

theorem counted_merge (other s : UserFunnelState n) (step : Nat) :
    (merge other s).counted step = (s.counted step || other.counted step) := by
  simp only [counted_eq_testBit, merge, UInt64.toNat_or, Nat.testBit_or]

def Accepts (windowSec eventTime : Int64) (s : UserFunnelState n) (i : Fin n) : Prop :=
  i.val = 0 ∨ s.counted (i.val - 1) = true ∧
    0 ≤ eventTime - s.lastTimes[i.val - 1].getD Int64.minValue ∧
    eventTime - s.lastTimes[i.val - 1].getD Int64.minValue ≤ windowSec

theorem visitStep_of_accepts {windowSec eventTime : Int64} {s : UserFunnelState n} {i : Fin n}
    (accepts : Accepts windowSec eventTime s i) :
    s.visitStep windowSec eventTime i = s.achieve i eventTime := by
  rcases accepts with first | ⟨before, timely⟩
  · rw [visitStep, if_pos first]
  · rw [visitStep]
    split
    · rfl
    · exact if_pos timely

theorem visitStep_of_not_accepts {windowSec eventTime : Int64} {s : UserFunnelState n} {i : Fin n}
    (refuses : ¬ Accepts windowSec eventTime s i) : s.visitStep windowSec eventTime i = s := by
  simp only [Accepts, not_or, not_and_or] at refuses
  rw [visitStep, if_neg refuses.1]
  split
  · next before =>
    apply if_neg
    rw [not_and_or]
    exact refuses.2.resolve_left (not_not_intro before)
  · rfl

end UserFunnelState

def FunnelDef.matching (funnel : FunnelDef) (event : EventRecord) : List (Fin funnel.size) :=
  (List.finRange funnel.steps.length).filter fun i =>
    event.eventName = (funnel.steps.get i).eventName

theorem FunnelDef.visitEvent_eq (funnel : FunnelDef) (event : EventRecord)
    (s : UserFunnelState funnel.size) :
    funnel.visitEvent event s =
      (funnel.matching event).foldl (visitStep funnel.windowSec event.eventTime) s := by
  rw [visitEvent, matching, List.foldl_filter]
  congr
  funext s i
  by_cases same : event.eventName = (funnel.steps.get i).eventName
  · rw [if_neg (not_not_intro same), if_pos (decide_eq_true same)]
  · rw [if_pos same, if_neg (by simpa using same)]

namespace FunnelExecutor

variable {funnel : FunnelDef}

def stateOf (ex : FunnelExecutor funnel) (user : Bytes) : UserFunnelState funnel.size :=
  (ex.states.get? user).getD fresh

def countedAt (ex : FunnelExecutor funnel) (user : Bytes) (step : Nat) : Bool :=
  (ex.states.get? user).any fun s => s.counted step

variable (ex : FunnelExecutor funnel)

theorem countedAt_eq (user : Bytes) (step : Nat) :
    ex.countedAt user step = (ex.stateOf user).counted step := by
  rw [countedAt, stateOf]
  cases ex.states.get? user with
  | none => exact (counted_fresh step).symm
  | some s => rfl

theorem stateOf_processEvents (events : List EventRecord) (user : Bytes) :
    (ex.processEvents events).stateOf user =
      (ofUser user events).foldl (fun s event => funnel.visitEvent event s) (ex.stateOf user) :=
  OrdMap.getD_foldl_upsert EventRecord.userKey fresh funnel.visitEvent events ex.states user

theorem isSome_processEvents (events : List EventRecord) (user : Bytes) :
    ((ex.processEvents events).states.get? user).isSome = true ↔
      (ex.states.get? user).isSome = true ∨ user ∈ events.map (·.userKey) :=
  OrdMap.isSome_foldl_upsert EventRecord.userKey (fun _ => fresh) funnel.visitEvent events ex.states
    user

variable (order : HashIteration Bytes (UserFunnelState funnel.size))

theorem get?_merge (ex other : FunnelExecutor funnel) (user : Bytes) :
    (merge order ex other).states.get? user =
      ((other.states.get? user).map fun theirs => UserFunnelState.merge theirs (ex.stateOf user)).or
        (ex.states.get? user) :=
  order.get?_foldl_upsert other.states fresh UserFunnelState.merge ex.states user

theorem countedAt_merge (ex other : FunnelExecutor funnel) (user : Bytes) (step : Nat) :
    (merge order ex other).countedAt user step =
      (ex.countedAt user step || other.countedAt user step) := by
  rw [countedAt, get?_merge, countedAt_eq ex]
  cases theirs : other.states.get? user with
  | none =>
    rw [Option.map_none, Option.none_or]
    simp only [countedAt, theirs, Option.any_none, Bool.or_false]
    exact countedAt_eq ex user step
  | some s => simp [countedAt, theirs, counted_merge]

end FunnelExecutor

open List

theorem ones_or_ones (a b : Nat) : (2 ^ a - 1) ||| (2 ^ b - 1) = 2 ^ max a b - 1 := by
  apply Nat.eq_of_testBit_eq
  intro i
  simp only [Nat.testBit_or, Nat.testBit_two_pow_sub_one, ← Bool.decide_or, lt_max_iff]

theorem ones_or_bit {m k : Nat} (next : k ≤ m) : (2 ^ m - 1) ||| 2 ^ k = 2 ^ max m (k + 1) - 1 := by
  apply Nat.eq_of_testBit_eq
  intro i
  simp only [Nat.testBit_or, Nat.testBit_two_pow_sub_one, Nat.testBit_two_pow, ← Bool.decide_or]
  congr 1
  apply propext
  omega

namespace UserFunnelState

variable {n : Nat}

def LowOnes (s : UserFunnelState n) : Prop := ∃ m ≤ n, s.achieved.toNat = 2 ^ m - 1

theorem lowOnes_fresh : (fresh : UserFunnelState n).LowOnes := ⟨0, Nat.zero_le n, rfl⟩

theorem counted_of_ones {s : UserFunnelState n} {m step : Nat} (ones : s.achieved.toNat = 2 ^ m - 1)
    (small : step < 64) : s.counted step = decide (step < m) := by
  rw [counted_eq_testBit, ones, Nat.testBit_two_pow_sub_one, Nat.mod_eq_of_lt small]

theorem LowOnes.counted_mono {s : UserFunnelState n} (low : s.LowOnes) {a b : Nat} (before : a ≤ b)
    (small : b < 64) (later : s.counted b = true) : s.counted a = true := by
  obtain ⟨m, -, ones⟩ := low
  rw [counted_of_ones ones small, decide_eq_true_iff] at later
  rw [counted_of_ones ones (by omega), decide_eq_true_iff]
  omega

theorem LowOnes.visitStep {s : UserFunnelState n} (low : s.LowOnes) (small : n ≤ 64)
    (windowSec eventTime : Int64) (i : Fin n) : (s.visitStep windowSec eventTime i).LowOnes := by
  by_cases accepts : Accepts windowSec eventTime s i
  · rw [visitStep_of_accepts accepts]
    obtain ⟨m, short, ones⟩ := low
    have inside := i.isLt
    -- the step before is in the run, so this one at most follows it
    have next : i.val ≤ m := by
      rcases accepts with first | ⟨before, -⟩
      · omega
      · rw [counted_of_ones ones (by omega), decide_eq_true_iff] at before
        omega
    refine ⟨max m (i.val + 1), by omega, ?_⟩
    rw [achieve, UInt64.toNat_or, toNat_bit, ones, Nat.mod_eq_of_lt (by omega), ones_or_bit next]
  · rwa [visitStep_of_not_accepts accepts]

theorem LowOnes.merge {s other : UserFunnelState n} (low : s.LowOnes) (theirs : other.LowOnes) :
    (merge other s).LowOnes := by
  obtain ⟨a, aShort, aOnes⟩ := low
  obtain ⟨b, bShort, bOnes⟩ := theirs
  refine ⟨max a b, max_le aShort bShort, ?_⟩
  rw [UserFunnelState.merge, UInt64.toNat_or, aOnes, bOnes, ones_or_ones]

end UserFunnelState

open UserFunnelState

theorem FunnelDef.lowOnes_visitEvent {funnel : FunnelDef} (small : funnel.size ≤ 64)
    (event : EventRecord) {s : UserFunnelState funnel.size} (low : s.LowOnes) :
    (funnel.visitEvent event s).LowOnes := by
  rw [visitEvent_eq]
  induction funnel.matching event generalizing s with
  | nil => exact low
  | cons i rest ih => exact ih (low.visitStep small _ _ i)

namespace FunnelExecutor

/-- Calls of an executor, and merges with others. -/
inductive History (funnel : FunnelDef) where
  | new
  | processEvents (h : History funnel) (events : List EventRecord)
  | merge (h other : History funnel) (order : HashIteration Bytes (UserFunnelState funnel.size))

namespace History

variable {funnel : FunnelDef}

def executor : History funnel → FunnelExecutor funnel
  | new => .new funnel
  | processEvents h events => h.executor.processEvents events
  | merge h other order => .merge order h.executor other.executor

def users : History funnel → List Bytes
  | new => []
  | processEvents h events => h.users ++ events.map (·.userKey)
  | merge h other _ => h.users ++ other.users

theorem lowOnes_stateOf (small : funnel.size ≤ 64) (h : History funnel) (user : Bytes) :
    (h.executor.stateOf user).LowOnes := by
  induction h with
  | new => exact lowOnes_fresh
  | processEvents h events ih =>
    rw [executor, stateOf_processEvents]
    generalize h.executor.stateOf user = s at ih
    induction ofUser user events generalizing s with
    | nil => exact ih
    | cons event rest later => exact later _ (FunnelDef.lowOnes_visitEvent small event ih)
  | merge h other order ours theirs =>
    rw [executor, stateOf, get?_merge]
    rw [stateOf] at theirs
    cases found : other.executor.states.get? user with
    | none => simpa [stateOf] using ours
    | some s =>
      rw [found] at theirs
      exact ours.merge theirs

theorem isSome_iff_mem_users (h : History funnel) (user : Bytes) :
    (h.executor.states.get? user).isSome = true ↔ user ∈ h.users := by
  induction h with
  | new => simp [executor, users, FunnelExecutor.new, OrdMap.get?, OrdMap.empty]
  | processEvents h events ih => rw [executor, isSome_processEvents, ih, users, mem_append]
  | merge h other order ours theirs =>
    rw [executor, get?_merge, users, mem_append, ← ours, ← theirs]
    cases other.executor.states.get? user <;> simp

theorem countedAt_mono (small : funnel.size ≤ 64) (h : History funnel) (user : Bytes) {a b : Nat}
    (before : a ≤ b) (inside : b < funnel.size) (later : h.executor.countedAt user b = true) :
    h.executor.countedAt user a = true := by
  rw [countedAt_eq] at later ⊢
  exact (lowOnes_stateOf small h user).counted_mono before (by omega) later

end History

theorem stepCounts_eq {funnel : FunnelDef} (ex : FunnelExecutor funnel) :
    ex.stepCounts = (List.range funnel.size).map fun step =>
      (ex.states.entries.map Prod.fst).countP fun user => ex.countedAt user step := by
  rw [stepCounts]
  apply map_congr_left
  intro step _
  exact OrdMap.countP_entries ex.states fun s => s.counted step

/-- The counts do not increase along the funnel. -/
theorem counts_never_increase {funnel : FunnelDef} (small : funnel.steps.length ≤ 64)
    (h : History funnel) :
    (∀ user s, h.executor.states.get? user = some s →
      ∃ m ≤ funnel.steps.length, s.achieved.toNat = 2 ^ m - 1) ∧
    h.executor.stepCounts.Pairwise (· ≥ ·) ∧
    ∀ count ∈ h.executor.stepCounts.head?, count ≤ h.users.dedup.length := by
  have users : (h.executor.states.entries.map Prod.fst).length ≤ h.users.dedup.length := by
    apply (subperm_of_subset h.executor.states.nodup_keys _).length_le
    intro user member
    rwa [mem_dedup, ← h.isSome_iff_mem_users, ← OrdMap.mem_keys_iff]
  refine ⟨?_, ?_, ?_⟩
  · intro user s found
    have low := h.lowOnes_stateOf small user
    rwa [stateOf, found] at low
  · rw [stepCounts_eq, pairwise_map]
    refine (pairwise_lt_range).imp_of_mem ?_
    intro a b _ inside before
    apply countP_mono_left
    intro user _ later
    exact h.countedAt_mono small user (Nat.le_of_lt before) (mem_range.1 inside) later
  · intro count first
    rw [stepCounts_eq] at first
    obtain ⟨step, -, rfl⟩ := mem_map.1 (mem_of_mem_head? first)
    exact countP_le_length.trans users

def sampleHistory : History ⟨[⟨"view", none⟩, ⟨"buy", none⟩], 60⟩ :=
  .merge (.processEvents .new [⟨[1], "view", 0⟩, ⟨[2], "view", 0⟩])
    (.processEvents .new [⟨[2], "view", 5⟩, ⟨[2], "buy", 9⟩]) .ascending

theorem sampleHistory_counts_never_increase : sampleHistory.executor.stepCounts = [2, 1] ∧
      ∀ count ∈ sampleHistory.executor.stepCounts.head?, count ≤ sampleHistory.users.dedup.length :=
  ⟨by decide, (counts_never_increase (by decide) sampleHistory).2.2⟩

end FunnelExecutor

/-- Distinct events match the steps up to `k` within the window. -/
def FunnelDef.Completes (funnel : FunnelDef) (events : List EventRecord) (k : Nat) : Prop :=
  ∃ chain ∈ events.sublists,
    chain.map (·.eventName) = (funnel.steps.take (k + 1)).map (·.eventName) ∧
    ∀ first ∈ chain.head?, ∀ event ∈ chain.tail,
      event.eventTime.toInt - first.eventTime.toInt ≤ funnel.windowSec.toInt

instance (funnel : FunnelDef) (events : List EventRecord) (k : Nat) :
    Decidable (funnel.Completes events k) :=
  inferInstanceAs (Decidable (∃ chain ∈ events.sublists, _))

structure Hit (n : Nat) where
  step : Fin n
  time : Int64

namespace Hit

variable {n : Nat}

def Starts (h : Hit n) : Prop := h.step.val = 0

def Follows (windowSec : Int64) (a b : Hit n) : Prop :=
  b.step.val ≠ 0 ∧ a.step.val % 64 = (b.step.val - 1) % 64 ∧
    b.time.toInt - (if a.step.val = b.step.val - 1 then a.time else Int64.minValue).toInt ≤
      windowSec.toInt

end Hit

open Hit

namespace FunnelDef

def hits (funnel : FunnelDef) (events : List EventRecord) : List (Hit funnel.size) :=
  events.flatMap fun event => (funnel.matching event).map (⟨·, event.eventTime⟩)

/-- A chain of matches, each near the one before, ends at `k`. -/
def Reaches (funnel : FunnelDef) (events : List EventRecord) (k : Nat) : Prop :=
  ∃ h, EndsChain Starts (Follows funnel.windowSec) (funnel.hits events) h ∧ h.step.val % 64 = k % 64

end FunnelDef

theorem elapsed_within_iff {a t w : Int64} (order : a ≤ t) :
    0 ≤ t - a ∧ t - a ≤ w ↔ t.toInt - a.toInt ≤ w.toInt := by
  rw [Int64.le_iff_toInt_le] at order
  rw [Int64.le_iff_toInt_le, Int64.le_iff_toInt_le, Int64.toInt_sub, Int64.toInt_zero]
  have tHigh := t.toInt_lt
  have aLow := a.le_toInt
  have wHigh := w.toInt_lt
  by_cases fits : t.toInt - a.toInt < 2 ^ 63
  · rw [Int.bmod_eq_of_le (by omega) (by omega)]
    omega
  · have wraps : (t.toInt - a.toInt).bmod (2 ^ 64) = t.toInt - a.toInt - 2 ^ 64 := by
      rw [Int.bmod_def]
      omega
    rw [wraps]
    omega

section Tracks

variable {n : Nat} (windowSec : Int64)

structure Tracks (hits : List (Hit n)) (s : UserFunnelState n) : Prop where
  bits : ∀ k, s.counted k = true ↔
    ∃ h, EndsChain Starts (Follows windowSec) hits h ∧ h.step.val % 64 = k % 64
  times : ∀ (i : Fin n) t, s.lastTimes[i.val] = some t →
    EndsChain Starts (Follows windowSec) hits ⟨i, t⟩
  latest : ∀ h, EndsChain Starts (Follows windowSec) hits h →
    ∃ t, s.lastTimes[h.step.val] = some t ∧ h.time ≤ t

variable {windowSec}

theorem tracks_fresh : Tracks windowSec ([] : List (Hit n)) fresh where
  bits k := by simp [counted_fresh, not_endsChain_nil]
  times i t found := by simp [fresh] at found
  latest h ends := (not_endsChain_nil h ends).elim

variable {s : UserFunnelState n}

variable {hits : List (Hit n)} {x : Hit n}

variable (tracks : Tracks windowSec hits s)

include tracks

theorem Tracks.prevTime_le (later : ∀ h ∈ hits, h.time ≤ x.time) (i : Fin n) :
    s.lastTimes[i.val].getD Int64.minValue ≤ x.time := by
  cases found : s.lastTimes[i.val] with
  | none => exact Int64.minValue_le x.time
  | some t => exact later ⟨i, t⟩ (tracks.times i t found).mem

theorem Tracks.accepts_iff (later : ∀ h ∈ hits, h.time ≤ x.time) :
    UserFunnelState.Accepts windowSec x.time s x.step ↔
      Starts x ∨ ∃ h, EndsChain Starts (Follows windowSec) hits h ∧ Follows windowSec h x := by
  by_cases first : x.step.val = 0
  · exact iff_of_true (.inl first) (.inl first)
  · have inside := x.step.isLt
    have order : s.lastTimes[x.step.val - 1].getD Int64.minValue ≤ x.time :=
      tracks.prevTime_le later ⟨x.step.val - 1, by omega⟩
    rw [UserFunnelState.Accepts, Starts, or_iff_right first, or_iff_right first, tracks.bits,
      elapsed_within_iff order]
    constructor
    · rintro ⟨⟨h, ends, same⟩, timely⟩
      cases found : s.lastTimes[x.step.val - 1] with
      | some t =>
        rw [found] at timely
        refine ⟨_, tracks.times ⟨x.step.val - 1, by omega⟩ t found, first, rfl, ?_⟩
        rwa [if_pos rfl]
      | none =>
        rw [found] at timely
        refine ⟨h, ends, first, same, ?_⟩
        -- the step before has no end of a chain, so this end is of another step
        have other : h.step.val ≠ x.step.val - 1 := by
          intro equal
          obtain ⟨t, some, -⟩ := tracks.latest h ends
          simp only [equal, found, reduceCtorEq] at some
        rwa [if_neg other]
    · rintro ⟨h, ends, -, same, timely⟩
      refine ⟨⟨h, ends, same⟩, ?_⟩
      by_cases equal : h.step.val = x.step.val - 1
      · obtain ⟨t, found, older⟩ := tracks.latest h ends
        simp only [equal] at found
        rw [if_pos equal] at timely
        rw [Int64.le_iff_toInt_le] at older
        rw [found, Option.getD_some]
        omega
      · rw [if_neg equal] at timely
        have least := Int64.le_iff_toInt_le.1
          (Int64.minValue_le (s.lastTimes[x.step.val - 1].getD Int64.minValue))
        omega

theorem Tracks.visitStep (later : ∀ h ∈ hits, h.time ≤ x.time) :
    Tracks windowSec (hits ++ [x]) (s.visitStep windowSec x.time x.step) := by
  have accepts_iff := tracks.accepts_iff later
  by_cases accepts : UserFunnelState.Accepts windowSec x.time s x.step
  · have ends : ∀ h, EndsChain Starts (Follows windowSec) (hits ++ [x]) h ↔
        EndsChain Starts (Follows windowSec) hits h ∨ h = x := by
      intro h
      rw [endsChain_concat, and_iff_left (accepts_iff.1 accepts)]
    rw [visitStep_of_accepts accepts]
    constructor
    · intro k
      rw [counted_achieve, Bool.or_eq_true, tracks.bits, decide_eq_true_iff]
      simp only [ends, or_and_right, exists_or, exists_eq_left]
    · intro i t found
      rw [ends]
      simp only [achieve, Vector.getElem_set] at found
      split at found
      · next same =>
        obtain rfl : i = x.step := Fin.ext same.symm
        obtain rfl := Option.some.inj found
        exact .inr rfl
      · exact .inl (tracks.times i t found)
    · intro h reached
      simp only [achieve, Vector.getElem_set]
      by_cases same : x.step.val = h.step.val
      · refine ⟨x.time, if_pos same, ?_⟩
        rcases (ends h).1 reached with old | rfl
        · exact later h old.mem
        · exact Int64.le_refl _
      · rw [if_neg same]
        rcases (ends h).1 reached with old | rfl
        · exact tracks.latest h old
        · exact (same rfl).elim
  · have ends : ∀ h, EndsChain Starts (Follows windowSec) (hits ++ [x]) h ↔
        EndsChain Starts (Follows windowSec) hits h := by
      intro h
      rw [endsChain_concat, ← accepts_iff]
      simp only [accepts, and_false, or_false]
    rw [visitStep_of_not_accepts accepts]
    constructor
    · simpa only [ends] using tracks.bits
    · simpa only [ends] using tracks.times
    · simpa only [ends] using tracks.latest

omit tracks

theorem tracks_foldl {hits more : List (Hit n)} (tracks : Tracks windowSec hits s)
    (sorted : (hits ++ more).Pairwise fun a b => a.time ≤ b.time) :
    Tracks windowSec (hits ++ more)
      (more.foldl (fun s h => s.visitStep windowSec h.time h.step) s) := by
  induction more generalizing hits s with
  | nil => rwa [append_nil]
  | cons x rest ih =>
    have later : ∀ h ∈ hits, h.time ≤ x.time := fun h here =>
      (pairwise_append.1 sorted).2.2 h here x mem_cons_self
    have step := ih (tracks.visitStep later)
    rw [append_assoc] at step
    exact step sorted

end Tracks

namespace FunnelDef

variable {funnel : FunnelDef}

theorem hits_cons (event : EventRecord) (rest : List EventRecord) : funnel.hits (event :: rest) =
      (funnel.matching event).map (⟨·, event.eventTime⟩) ++ funnel.hits rest := rfl

theorem hits_append (funnel : FunnelDef) (a b : List EventRecord) :
    funnel.hits (a ++ b) = funnel.hits a ++ funnel.hits b := flatMap_append

variable {events : List EventRecord}

theorem mem_hits {h : Hit funnel.size} :
    h ∈ funnel.hits events ↔ ∃ event ∈ events,
      event.eventName = (funnel.steps.get h.step).eventName ∧ event.eventTime = h.time := by
  simp only [hits, matching, mem_flatMap, mem_map, mem_filter, mem_finRange,
    true_and, decide_eq_true_iff]
  constructor
  · rintro ⟨event, here, step, same, rfl⟩
    exact ⟨event, here, same, rfl⟩
  · rintro ⟨event, here, same, time⟩
    exact ⟨event, here, h.step, same, by rw [time]⟩

variable {a b : List EventRecord}

theorem hits_sublist (sub : a.Sublist b) : (funnel.hits a).Sublist (funnel.hits b) := by
  induction sub with
  | slnil => exact .slnil
  | cons event _ ih => exact ih.trans (sublist_append_right _ _)
  | cons_cons event _ ih => exact (List.Sublist.refl _).append ih

theorem hits_sorted (sorted : events.Pairwise fun a b => a.eventTime ≤ b.eventTime) :
    (funnel.hits events).Pairwise fun a b => a.time ≤ b.time := by
  induction sorted with
  | nil => exact .nil
  | @cons event rest later _ ih =>
    refine pairwise_append.2 ⟨?_, ih, ?_⟩
    · rw [pairwise_map]
      exact pairwise_of_forall fun _ _ => Int64.le_refl _
    · intro a fromEvent b fromRest
      obtain ⟨step, -, rfl⟩ := mem_map.1 fromEvent
      obtain ⟨other, here, -, time⟩ := mem_hits.1 fromRest
      exact time ▸ later other here

theorem foldl_visitEvent (events : List EventRecord) (s : UserFunnelState funnel.size) :
    events.foldl (fun s event => funnel.visitEvent event s) s =
      (funnel.hits events).foldl (fun s h => s.visitStep funnel.windowSec h.time h.step) s := by
  induction events generalizing s with
  | nil => rfl
  | cons event rest ih =>
    rw [foldl_cons, ih, visitEvent_eq, hits_cons, foldl_append, foldl_map]

theorem Reaches.mono {k : Nat} (sub : a.Sublist b)
    (reaches : funnel.Reaches a k) : funnel.Reaches b k := by
  obtain ⟨h, ends, bit⟩ := reaches
  exact ⟨h, ends.mono (hits_sublist sub), bit⟩

end FunnelDef

theorem FunnelExecutor.countedAt_iff_reaches (funnel : FunnelDef) {events : List EventRecord}
    (sorted : SortedByUserAndTime events) (user : Bytes) (k : Nat) :
    ((new funnel).processEvents events).countedAt user k = true ↔
      funnel.Reaches (ofUser user events) k := by
  have tracks : Tracks funnel.windowSec ([] ++ funnel.hits (ofUser user events)) _ :=
    tracks_foldl tracks_fresh (FunnelDef.hits_sorted (sorted.ofUser user))
  rw [countedAt_eq, stateOf_processEvents, FunnelDef.foldl_visitEvent]
  exact tracks.bits k

namespace FunnelDef

variable {funnel : FunnelDef}

theorem get_of_names_front {before : List EventRecord} {event : EventRecord}
    (names : (before ++ [event]).map (·.eventName) <+: funnel.steps.map (·.eventName)) :
    ∃ inside : before.length < funnel.steps.length,
      event.eventName = (funnel.steps.get ⟨before.length, inside⟩).eventName := by
  have last := List.prefix_iff_getElem?.1 names before.length (by simp)
  rw [List.getElem?_map, Option.map_eq_some_iff] at last
  obtain ⟨step, found, same⟩ := last
  obtain ⟨inside, rfl⟩ := List.getElem?_eq_some_iff.1 found
  refine ⟨inside, ?_⟩
  simpa using same.symm

theorem endsChain_of_names {events before : List EventRecord} {event : EventRecord}
    (ordered : events.Pairwise fun a b => a.eventTime ≤ b.eventTime)
    (sub : (before ++ [event]).Sublist events)
    (names : (before ++ [event]).map (·.eventName) <+: funnel.steps.map (·.eventName))
    (within : ∀ first ∈ (before ++ [event]).head?, ∀ other ∈ (before ++ [event]).tail,
      other.eventTime.toInt - first.eventTime.toInt ≤ funnel.windowSec.toInt) :
    ∃ inside : before.length < funnel.size,
      EndsChain Starts (Follows funnel.windowSec) (funnel.hits events)
        ⟨⟨before.length, inside⟩, event.eventTime⟩ := by
  obtain ⟨inside, same⟩ := get_of_names_front names
  refine ⟨inside, ?_⟩
  induction before using reverseRecOn generalizing event events with
  | nil =>
    have here : event ∈ events := singleton_sublist.1 sub
    exact .of_start (mem_hits.2 ⟨event, here, same, rfl⟩) rfl
  | append_singleton earlier previous ih =>
    obtain ⟨front, back, rfl, frontSub, backSub⟩ := append_sublist_iff.1 sub
    have here : event ∈ back := singleton_sublist.1 backSub
    have namesBefore : (earlier ++ [previous]).map (·.eventName) <+:
        funnel.steps.map (·.eventName) := by
      rw [map_append] at names
      exact (prefix_append _ _).trans names
    obtain ⟨insideBefore, sameBefore⟩ := get_of_names_front namesBefore
    rw [head?_append_of_ne_nil _ (by simp), tail_append_of_ne_nil (by simp)] at within
    have orderedFront := (pairwise_append.1 ordered).1
    have ends := ih orderedFront frontSub namesBefore
      (fun first isFirst other member => within first isFirst other (mem_append_left _ member))
      insideBefore sameBefore
    -- the first event is no later than the one before, which leaves this one less to wait
    obtain ⟨first, isFirst⟩ : ∃ first, first ∈ (earlier ++ [previous]).head? := by
      cases earlier <;> simp
    have notLater : first.eventTime ≤ previous.eventTime := by
      rcases mem_append.1 (mem_of_mem_head? isFirst) with member | member
      · exact (pairwise_append.1 (orderedFront.sublist frontSub)).2.2 first member previous
          mem_cons_self
      · obtain rfl := mem_singleton.1 member
        exact Int64.le_refl _
    have timely := within first isFirst event (by simp)
    rw [hits_append]
    refine ends.extend (mem_hits.2 ⟨event, here, same, rfl⟩) ⟨by simp, by simp, ?_⟩
    rw [if_pos (by simp)]
    rw [Int64.le_iff_toInt_le] at notLater
    dsimp only
    omega

theorem Completes.reaches {events : List EventRecord} {k : Nat}
    (ordered : events.Pairwise fun a b => a.eventTime ≤ b.eventTime) (inside : k < funnel.size)
    (completes : funnel.Completes events k) : funnel.Reaches events k := by
  obtain ⟨chain, sub, names, within⟩ := completes
  rw [mem_sublists] at sub
  have length := congrArg length names
  rw [length_map, length_map, length_take, Nat.min_eq_left inside] at length
  rcases eq_nil_or_concat' chain with rfl | ⟨before, event, rfl⟩
  · simp at length
  · have names : (before ++ [event]).map (·.eventName) <+: funnel.steps.map (·.eventName) := by
      rw [names]
      exact (List.take_prefix _ _).map _
    obtain ⟨short, ends⟩ := endsChain_of_names ordered sub names within
    refine ⟨_, ends, ?_⟩
    rw [length_append, length_singleton] at length
    exact congrArg (· % 64) (Nat.succ.inj length)

end FunnelDef

namespace FunnelExecutor

/-- Users are counted as meant exactly if no chain goes too far. -/
theorem countedAt_iff_completes_iff (funnel : FunnelDef) (events : List EventRecord)
    (sorted : SortedByUserAndTime events) :
    (∀ user, ∀ k < funnel.steps.length, ((new funnel).processEvents events).countedAt user k = true ↔
      funnel.Completes (ofUser user events) k) ↔
    ∀ user, ∀ k < funnel.steps.length, funnel.Reaches (ofUser user events) k →
      funnel.Completes (ofUser user events) k := by
  constructor
  · intro exact user k inside reaches
    rw [← exact user k inside, countedAt_iff_reaches funnel sorted]
    exact reaches
  · intro exact user k inside
    rw [countedAt_iff_reaches funnel sorted]
    exact ⟨exact user k inside, FunnelDef.Completes.reaches (sorted.ofUser user) inside⟩

theorem countedAt_without_completing :
    (let funnel : FunnelDef := ⟨[⟨"A", none⟩, ⟨"B", none⟩, ⟨"C", none⟩], 10⟩
     let events : List EventRecord := [⟨[1], "A", 0⟩, ⟨[1], "B", 10⟩, ⟨[1], "C", 20⟩]
     SortedByUserAndTime events ∧ ((new funnel).processEvents events).countedAt [1] 2 = true ∧
       ¬ funnel.Completes (ofUser [1] events) 2) ∧
    (let funnel : FunnelDef := ⟨[⟨"A", none⟩, ⟨"A", none⟩], 10⟩
     let events : List EventRecord := [⟨[1], "A", 0⟩]
     SortedByUserAndTime events ∧ ((new funnel).processEvents events).countedAt [1] 1 = true ∧
       ¬ funnel.Completes (ofUser [1] events) 1) ∧
    (let funnel : FunnelDef := ⟨⟨"A", none⟩ :: .replicate 64 ⟨"B", none⟩, 10⟩
     let events : List EventRecord := [⟨[1], "A", 0⟩]
     SortedByUserAndTime events ∧ ((new funnel).processEvents events).countedAt [1] 64 = true ∧
       ¬ funnel.Completes (ofUser [1] events) 64) := by
  decide +kernel

def viewBuy : FunnelDef := ⟨[⟨"view", none⟩, ⟨"buy", none⟩], 60⟩

def viewBuyEvents : List EventRecord := [⟨[1], "view", 0⟩, ⟨[1], "buy", 9⟩]

theorem viewBuy_countedAt_iff_completes :
    SortedByUserAndTime viewBuyEvents ∧ ∀ user, ∀ k < viewBuy.steps.length,
      ((new viewBuy).processEvents viewBuyEvents).countedAt user k = true ↔
        viewBuy.Completes (ofUser user viewBuyEvents) k := by
  have sorted : SortedByUserAndTime viewBuyEvents := by decide
  refine ⟨sorted, (countedAt_iff_completes_iff viewBuy viewBuyEvents sorted).2 ?_⟩
  intro user k inside reaches
  by_cases own : user = [1]
  · subst own
    clear reaches
    revert k
    decide
  · have absent : ofUser user viewBuyEvents = [] := by
      simp [ofUser, viewBuyEvents, Ne.symm own]
    obtain ⟨h, ends, -⟩ := reaches
    rw [absent] at ends
    exact (not_endsChain_nil h ends).elim

def part (side : Bool) (events : List (EventRecord × Bool)) : List EventRecord :=
  (events.filter (·.2 = side)).map Prod.fst

theorem part_sublist (side : Bool) (events : List (EventRecord × Bool)) :
    (part side events).Sublist (events.map Prod.fst) :=
  filter_sublist.map Prod.fst

theorem sorted_part {events : List (EventRecord × Bool)}
    (sorted : SortedByUserAndTime (events.map Prod.fst)) (side : Bool) :
    SortedByUserAndTime (part side events) :=
  sorted.sublist (part_sublist side events)

theorem mem_users_part (events : List (EventRecord × Bool)) (user : Bytes) :
    user ∈ (part true events).map (·.userKey) ∨ user ∈ (part false events).map (·.userKey) ↔
      user ∈ (events.map Prod.fst).map (·.userKey) := by
  simp only [part, mem_map, mem_filter, decide_eq_true_iff]
  constructor
  · rintro (⟨_, ⟨e, ⟨here, -⟩, rfl⟩, same⟩ | ⟨_, ⟨e, ⟨here, -⟩, rfl⟩, same⟩) <;>
      exact ⟨e.1, ⟨e, here, rfl⟩, same⟩
  · rintro ⟨_, ⟨e, here, rfl⟩, same⟩
    cases side : e.2 with
    | true => exact .inl ⟨e.1, ⟨e, ⟨here, side⟩, rfl⟩, same⟩
    | false => exact .inr ⟨e.1, ⟨e, ⟨here, side⟩, rfl⟩, same⟩

theorem countP_eq_iff {α : Type} {p q : α → Bool} {l : List α} (fewer : ∀ x ∈ l, p x → q x) :
    l.countP p = l.countP q ↔ ∀ x ∈ l, q x → p x := by
  have within : l.filter p = (l.filter q).filter p := by
    rw [filter_filter]
    exact filter_congr fun x here => by simpa using fewer x here
  rw [countP_eq_length_filter, countP_eq_length_filter, within, length_filter_eq_length_iff]
  simp

theorem mem_keys_of_countedAt {funnel : FunnelDef} {ex : FunnelExecutor funnel} {user : Bytes}
    {k : Nat} (counted : ex.countedAt user k = true) : user ∈ ex.states.entries.map Prod.fst := by
  rw [countedAt] at counted
  rw [OrdMap.mem_keys_iff]
  cases found : ex.states.get? user with
  | none => simp [found] at counted
  | some s => rfl

theorem keys_merge_part {funnel : FunnelDef}
    (order : HashIteration Bytes (UserFunnelState funnel.size))
    (events : List (EventRecord × Bool)) :
    (merge order ((new funnel).processEvents (part true events))
      ((new funnel).processEvents (part false events))).states.entries.map Prod.fst =
    ((new funnel).processEvents (events.map Prod.fst)).states.entries.map Prod.fst := by
  apply OrdMap.keys_eq
  intro user
  have merged := History.isSome_iff_mem_users
    (.merge (.processEvents .new (part true events)) (.processEvents .new (part false events)) order)
    user
  have whole := History.isSome_iff_mem_users
    (.processEvents (.new : History funnel) (events.map Prod.fst)) user
  simp only [History.users, nil_append] at merged whole
  rw [mem_append, mem_users_part] at merged
  exact Bool.eq_iff_iff.2 (merged.trans whole.symm)

/-- Merging counts as one exactly if no user's events are split. -/
theorem stepCounts_merge_eq_iff (funnel : FunnelDef)
    (order : HashIteration Bytes (UserFunnelState funnel.size)) (events : List (EventRecord × Bool))
    (sorted : SortedByUserAndTime (events.map Prod.fst)) :
    (merge order ((new funnel).processEvents (part true events))
        ((new funnel).processEvents (part false events))).stepCounts =
      ((new funnel).processEvents (events.map Prod.fst)).stepCounts ↔
    ∀ user, ∀ k < funnel.steps.length, funnel.Reaches (ofUser user (events.map Prod.fst)) k →
      funnel.Reaches (ofUser user (part true events)) k ∨
        funnel.Reaches (ofUser user (part false events)) k := by
  have whole := countedAt_iff_reaches funnel sorted
  have merged : ∀ user k, (merge order ((new funnel).processEvents (part true events))
      ((new funnel).processEvents (part false events))).countedAt user k = true ↔
        funnel.Reaches (ofUser user (part true events)) k ∨
          funnel.Reaches (ofUser user (part false events)) k := by
    intro user k
    rw [countedAt_merge, Bool.or_eq_true, countedAt_iff_reaches funnel (sorted_part sorted true),
      countedAt_iff_reaches funnel (sorted_part sorted false)]
  have fewer : ∀ user k, funnel.Reaches (ofUser user (part true events)) k ∨
      funnel.Reaches (ofUser user (part false events)) k →
        funnel.Reaches (ofUser user (events.map Prod.fst)) k := by
    intro user k reached
    exact reached.elim (.mono ((part_sublist true events).filter _))
      (.mono ((part_sublist false events).filter _))
  rw [stepCounts_eq, stepCounts_eq, keys_merge_part, map_inj_left]
  constructor
  · intro equal user k inside reached
    have counted := (whole user k).2 reached
    have missed := (countP_eq_iff fun user _ part => (whole user k).2 (fewer user k
      ((merged user k).1 part))).1 (equal k (mem_range.2 inside))
    exact (merged user k).1 (missed user (mem_keys_of_countedAt counted) counted)
  · intro reached k inside
    refine (countP_eq_iff fun user _ part => (whole user k).2 (fewer user k
      ((merged user k).1 part))).2 ?_
    intro user _ counted
    exact (merged user k).2 (reached user k (mem_range.1 inside) ((whole user k).1 counted))

theorem stepCounts_merge_lost :
    let events : List (EventRecord × Bool) := [(⟨[1], "view", 0⟩, true), (⟨[1], "buy", 9⟩, false)]
    SortedByUserAndTime (events.map Prod.fst) ∧
      (merge .ascending ((new viewBuy).processEvents (part true events))
        ((new viewBuy).processEvents (part false events))).stepCounts = [1, 0] ∧
      ((new viewBuy).processEvents (events.map Prod.fst)).stepCounts = [1, 1] := by
  decide

theorem stepCounts_merge_by_user :
    let events : List (EventRecord × Bool) :=
      [(⟨[1], "view", 0⟩, true), (⟨[1], "buy", 9⟩, true), (⟨[2], "view", 3⟩, false)]
    SortedByUserAndTime (events.map Prod.fst) ∧
      ∀ user, ∀ k < viewBuy.steps.length, viewBuy.Reaches (ofUser user (events.map Prod.fst)) k →
        viewBuy.Reaches (ofUser user (part true events)) k ∨
          viewBuy.Reaches (ofUser user (part false events)) k := by
  intro events
  have sorted : SortedByUserAndTime (events.map Prod.fst) := by decide
  exact ⟨sorted, (stepCounts_merge_eq_iff viewBuy .ascending events sorted).1 (by decide +kernel)⟩

end FunnelExecutor
end WowDb.Compute
