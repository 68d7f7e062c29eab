import WowDb.Lib.Int64
import WowDb.Lib.Comparators
import WowDb.Lib.OrdMap

/-!
# Sessions of user events

`compute-node/src/analytics/sessionize.rs`.
-/
namespace WowDb.Compute
open WowDb.Lib List

structure EventRow where
  userKey : String
  eventTime : Int64
  eventName : String
  deriving DecidableEq

structure SessionRow where
  sessionId : String
  userKey : String
  sessionStart : Int64
  sessionEnd : Int64
  eventCount : UInt32
  eventSequence : List String
  durationSecs : Int64
  deriving DecidableEq

namespace SessionRow

def new (sessionId userKey : String) (firstEventTime : Int64) (firstEventName : String) :
    SessionRow :=
  ⟨sessionId, userKey, firstEventTime, firstEventTime, 1, [firstEventName], 0⟩

def addEvent (row : SessionRow) (eventTime : Int64) (eventName : String) : SessionRow :=
  { row with
    sessionEnd := eventTime
    eventCount := row.eventCount + 1
    eventSequence := row.eventSequence ++ [eventName]
    durationSecs := eventTime - row.sessionStart }

end SessionRow

structure Sessionizer where
  sessionTimeoutSecs : Int64

namespace Sessionizer

def new (sessionTimeoutSecs : UInt64) : Sessionizer := ⟨sessionTimeoutSecs.toInt64⟩

/-- The loop of `build_sessions`, with the sessions closed so far, the current one and the
number of identifiers taken. -/
def visit (s : Sessionizer) (ids : Nat → String) (userKey : String) :
    List EventRow → List SessionRow → SessionRow → Nat → List SessionRow × Nat
  | [], sessions, current, next => (sessions ++ [current], next)
  | ev :: rest, sessions, current, next =>
    if s.sessionTimeoutSecs < ev.eventTime - current.sessionEnd then
      visit s ids userKey rest (sessions ++ [current])
        (.new (ids next) userKey ev.eventTime ev.eventName) (next + 1)
    else visit s ids userKey rest sessions (current.addEvent ev.eventTime ev.eventName) next

def buildSessions (s : Sessionizer) (ids : Nat → String) (userKey : String) :
    List EventRow → Nat → List SessionRow × Nat
  | [], next => ([], next)
  | first :: rest, next =>
    visit s ids userKey rest [] (.new (ids next) userKey first.eventTime first.eventName) (next + 1)

def byUser (events : List EventRow) : OrdMap String (List EventRow) :=
  events.foldl (fun m ev => m.insert ev.userKey ((m.get? ev.userKey).getD [] ++ [ev])) .empty

def sortByTime (events : List EventRow) : List EventRow :=
  events.insertionSort fun a b => a.eventTime ≤ b.eventTime

def sessionizeGroups (s : Sessionizer) (ids : Nat → String) :
    List (String × List EventRow) → Nat → List SessionRow
  | [], _ => []
  | (userKey, userEvents) :: rest, next =>
    let built := buildSessions s ids userKey (sortByTime userEvents) next
    built.1 ++ sessionizeGroups s ids rest built.2

def sessionize (s : Sessionizer) (order : HashIteration String (List EventRow))
    (ids : Nat → String) (events : List EventRow) : List SessionRow :=
  sessionizeGroups s ids (order.iterate (byUser events)) 0

def gap (a b : EventRow) : Int := b.eventTime.toInt - a.eventTime.toInt

structure Describes (row : SessionRow) (group : List EventRow) : Prop where
  user : ∀ ev ∈ group, ev.userKey = row.userKey
  start : group.head?.map (·.eventTime) = some row.sessionStart
  finish : group.getLast?.map (·.eventTime) = some row.sessionEnd
  count : row.eventCount.toNat = group.length
  names : row.eventSequence = group.map (·.eventName)
  duration : row.durationSecs.toInt = row.sessionEnd.toInt - row.sessionStart.toInt

def Near (timeout : Nat) (a b : EventRow) : Prop := gap a b ≤ timeout

instance (timeout : Nat) (a b : EventRow) : Decidable (Near timeout a b) :=
  inferInstanceAs (Decidable (gap a b ≤ timeout))

/-- The user's events in time order fall into the sessions of the user, in order: close
together inside a session, further apart than the timeout between two. -/
structure Partitions (timeout : Nat) (userEvents : List EventRow) (rows : List SessionRow)
    (groups : List (List EventRow)) : Prop where
  described : List.Forall₂ Describes rows groups
  inOrder : StablySorted (·.eventTime.toInt) userEvents groups.flatten
  close : ∀ group ∈ groups, group.IsChain (Near timeout)
  apart : groups.IsChain fun g h => ∃ last first, ¬ Near timeout (g.getLast last) (h.head first)

def Meets (timeout : Nat) (events : List EventRow) (sessions : List SessionRow) : Prop :=
  ∀ user, ∃ groups, Partitions timeout (events.filter (·.userKey = user))
    (sessions.filter (·.userKey = user)) groups

def expected (timeout : Nat) (userEvents : List EventRow) : List (List EventRow) :=
  (sortByTime userEvents).splitBy fun a b => decide (Near timeout a b)

def Countable (timeout : Nat) (events : List EventRow) : Prop :=
  ∀ ev ∈ events, ∀ group ∈ expected timeout (events.filter (·.userKey = ev.userKey)),
    group.length < 2 ^ 32

instance (timeout : Nat) (events : List EventRow) : Decidable (Countable timeout events) := by
  unfold Countable
  infer_instance

/-- What the loop keeps: the row's fields follow the group, count and duration in the
machine's arithmetic. -/
structure Tracks (userKey : String) (row : SessionRow) (group : List EventRow) : Prop where
  user : row.userKey = userKey
  start : group.head?.map (·.eventTime) = some row.sessionStart
  finish : group.getLast?.map (·.eventTime) = some row.sessionEnd
  count : row.eventCount = UInt32.ofNat group.length
  names : row.eventSequence = group.map (·.eventName)
  duration : row.durationSecs = row.sessionEnd - row.sessionStart

theorem tracks_new (sessionId userKey : String) (ev : EventRow) :
    Tracks userKey (.new sessionId userKey ev.eventTime ev.eventName) [ev] where
  user := rfl
  start := rfl
  finish := rfl
  count := rfl
  names := rfl
  duration := (Int64.sub_self _).symm

variable {userKey : String} {group : List EventRow}

theorem tracks_addEvent {row : SessionRow} (tracks : Tracks userKey row group) (ev : EventRow) :
    Tracks userKey (row.addEvent ev.eventTime ev.eventName) (group ++ [ev]) where
  user := tracks.user
  start := by
    have start := tracks.start
    cases group with
    | nil => cases start
    | cons first rest => exact start
  finish := by simp [SessionRow.addEvent]
  count := by simp [SessionRow.addEvent, tracks.count, UInt32.ofNat_add]
  names := by simp [SessionRow.addEvent, tracks.names]
  duration := rfl

variable (s : Sessionizer) {sessions : List SessionRow}

variable (ids : Nat → String)

theorem visit_tracks (userKey : String) (rest : List EventRow) {closed : List (List EventRow)}
    {current : SessionRow} {last : EventRow} {opened : List EventRow} (next : Nat)
    (before : List.Forall₂ (Tracks userKey) sessions closed.reverse)
    (now : Tracks userKey current (last :: opened).reverse) :
    List.Forall₂ (Tracks userKey) (visit s ids userKey rest sessions current next).1
      (List.splitBy.loop (fun a b => !decide (s.sessionTimeoutSecs < b.eventTime - a.eventTime))
        rest last opened closed) := by
  induction rest generalizing sessions closed current last opened next with
  | nil =>
    simp only [visit, splitBy.loop, reverse_cons]
    rw [reverse_cons] at now
    exact rel_append before (.cons now .nil)
  | cons ev rest ih =>
    have last_time : current.sessionEnd = last.eventTime := by
      simpa using now.finish.symm
    simp only [visit, splitBy.loop, last_time]
    by_cases far : s.sessionTimeoutSecs < ev.eventTime - last.eventTime
    · simp only [far, if_true, decide_true, Bool.not_true]
      refine ih (next + 1) ?_ (tracks_new _ _ ev)
      rw [reverse_cons]
      exact rel_append before (.cons now .nil)
    · simp only [far, if_false, decide_false, Bool.not_false]
      refine ih next before ?_
      rw [reverse_cons]
      exact tracks_addEvent now ev

theorem buildSessions_tracks (userKey : String) (events : List EventRow) (next : Nat) :
    List.Forall₂ (Tracks userKey) (buildSessions s ids userKey events next).1
      (events.splitBy fun a b => !decide (s.sessionTimeoutSecs < b.eventTime - a.eventTime)) := by
  cases events with
  | nil => exact .nil
  | cons first rest =>
    exact visit_tracks s ids userKey rest (next + 1) .nil (tracks_new _ _ first)

theorem byUser_getD (events : List EventRow) (user : String) :
    ((byUser events).get? user).getD [] = events.filter (·.userKey = user) := by
  simpa [byUser, OrdMap.push] using
    OrdMap.getD_foldl_push (fun ev : EventRow => ev.userKey) id events .empty user

variable {rows : List SessionRow} {groups : List (List EventRow)}

theorem userKey_of_tracks (tracks : List.Forall₂ (Tracks userKey) rows groups) :
    ∀ row ∈ rows, row.userKey = userKey := by
  induction tracks with
  | nil => simp
  | cons head _ ih => exact forall_mem_cons.mpr ⟨head.user, ih⟩

theorem filter_sessionizeGroups (user : String)
    (entries : List (String × List EventRow)) (distinct : (entries.map Prod.fst).Nodup)
    (next : Nat) :
    ∃ n, (sessionizeGroups s ids entries next).filter (·.userKey = user) =
      (buildSessions s ids user (sortByTime ((entries.lookup user).getD [])) n).1 := by
  induction entries generalizing next with
  | nil => exact ⟨next, rfl⟩
  | cons e rest ih =>
    obtain ⟨absent, distinctRest⟩ := nodup_cons.mp distinct
    obtain ⟨n, later⟩ := ih distinctRest (buildSessions s ids e.1 (sortByTime e.2) next).2
    have owner := userKey_of_tracks (buildSessions_tracks s ids e.1 (sortByTime e.2) next)
    simp only [sessionizeGroups, filter_append, later, OrdMap.lookup_cons_ite]
    by_cases same : user = e.1
    · subst same
      have missing : rest.lookup e.1 = none := by
        rw [lookup_eq_none_iff]
        rintro ⟨k, v⟩ member
        exact bne_iff_ne.mpr fun equal => absent (equal ▸ mem_map_of_mem member)
      refine ⟨next, ?_⟩
      rw [missing, filter_eq_self.mpr fun row member => by simp [owner row member]]
      simp [sortByTime, buildSessions]
    · refine ⟨n, ?_⟩
      rw [filter_eq_nil_iff.mpr fun row member => by
        simp [owner row member, Ne.symm same]]
      simp [same]

theorem filter_sessionize (order : HashIteration String (List EventRow))
    (ids : Nat → String) (events : List EventRow) (user : String) :
    ∃ n, (s.sessionize order ids events).filter (·.userKey = user) =
      (buildSessions s ids user (sortByTime (events.filter (·.userKey = user))) n).1 := by
  obtain ⟨n, built⟩ := filter_sessionizeGroups s ids user (order.iterate (byUser events))
    (order.nodup_keys _) 0
  refine ⟨n, ?_⟩
  rw [sessionize, built, order.lookup_iterate, byUser_getD]

theorem toInt_sub_of_close {a b : Int64} (above : a.toInt - b.toInt < 2 ^ 63)
    (below : b.toInt - a.toInt < 2 ^ 63) : (a - b).toInt = a.toInt - b.toInt := by
  rw [Int64.toInt_sub]
  exact Int.bmod_eq_of_le (by omega) (by omega)

variable {timeout : UInt64}

theorem new_timeout (small : timeout.toNat < 2 ^ 63) :
    (new timeout).sessionTimeoutSecs.toInt = timeout.toNat := by
  have signed := BitVec.toInt_eq_toNat_of_lt (x := timeout.toBitVec) (by
    rw [UInt64.toNat_toBitVec]
    omega)
  simpa [new, ← Int64.toInt_toBitVec] using signed

def Bounded (events : List EventRow) : Prop := ∀ a ∈ events, ∀ b ∈ events, gap a b < 2 ^ 63

instance (events : List EventRow) : Decidable (Bounded events) := by
  unfold Bounded
  infer_instance

theorem exceeds_iff (small : timeout.toNat < 2 ^ 63) {a b : EventRow} (forward : gap a b < 2 ^ 63)
    (backward : gap b a < 2 ^ 63) :
    (new timeout).sessionTimeoutSecs < b.eventTime - a.eventTime ↔ ¬ Near timeout.toNat a b := by
  rw [Int64.lt_iff_toInt_lt, new_timeout small, toInt_sub_of_close forward backward]
  exact not_le.symm

theorem splitBy_loop_congr {α : Type} {r q : α → α → Bool} {a : α} {l g : List α}
    {gs : List (List α)} (agree : ∀ x ∈ a :: l, ∀ y ∈ a :: l, r x y = q x y) :
    List.splitBy.loop r l a g gs = List.splitBy.loop q l a g gs := by
  induction l generalizing a g gs with
  | nil => rfl
  | cons b l ih =>
    have later : ∀ x ∈ b :: l, ∀ y ∈ b :: l, r x y = q x y := fun x hx y hy =>
      agree x (mem_cons_of_mem a hx) y (mem_cons_of_mem a hy)
    simp only [splitBy.loop, agree a (by simp) b (by simp)]
    cases q a b with
    | true => exact ih later
    | false => exact ih later

theorem splitBy_congr {α : Type} {r q : α → α → Bool} {l : List α}
    (agree : ∀ x ∈ l, ∀ y ∈ l, r x y = q x y) : l.splitBy r = l.splitBy q := by
  cases l with
  | nil => rfl
  | cons a l => exact splitBy_loop_congr agree

variable {events : List EventRow}

theorem mem_sortByTime {ev : EventRow} : ev ∈ sortByTime events ↔ ev ∈ events :=
  mem_insertionSort _

theorem stablySorted_sortByTime (events : List EventRow) :
    StablySorted (·.eventTime.toInt) events (sortByTime events) :=
  stablySorted_insertionSort (r := fun a b : EventRow => a.eventTime ≤ b.eventTime)
    (fun _ _ => Int64.le_iff_toInt_le) events

theorem buildSessions_expected (small : timeout.toNat < 2 ^ 63) (ids : Nat → String)
    (userKey : String) (bounded : Bounded events) (next : Nat) :
    List.Forall₂ (Tracks userKey)
      (buildSessions (new timeout) ids userKey (sortByTime events) next).1
      (expected timeout.toNat events) := by
  have tracks := buildSessions_tracks (new timeout) ids userKey (sortByTime events) next
  rw [splitBy_congr (q := fun a b => decide (Near timeout.toNat a b))] at tracks
  · exact tracks
  · intro a inA b inB
    have cut := exceeds_iff small
      (bounded a (mem_sortByTime.mp inA) b (mem_sortByTime.mp inB))
      (bounded b (mem_sortByTime.mp inB) a (mem_sortByTime.mp inA))
    simp [cut]

theorem mem_of_mem_expected {timeout : Nat} (member : group ∈ expected timeout events)
    {ev : EventRow} (inGroup : ev ∈ group) : ev ∈ events := by
  rw [← mem_sortByTime,
    ← flatten_splitBy (fun a b => decide (Near timeout a b)) (sortByTime events)]
  exact mem_flatten.mpr ⟨group, member, inGroup⟩

theorem describes_of_tracks {row : SessionRow} (tracks : Tracks userKey row group)
    (short : group.length < 2 ^ 32) (owned : ∀ ev ∈ group, ev.userKey = userKey)
    (bounded : Bounded group) :
    Describes row group where
  user ev member := (owned ev member).trans tracks.user.symm
  start := tracks.start
  finish := tracks.finish
  count := by
    rw [tracks.count, UInt32.toNat_ofNat_of_lt' short]
  names := tracks.names
  duration := by
    obtain ⟨first, isFirst, firstTime⟩ := Option.map_eq_some_iff.mp tracks.start
    obtain ⟨last, isLast, lastTime⟩ := Option.map_eq_some_iff.mp tracks.finish
    have inFirst := mem_of_mem_head? isFirst
    have inLast := mem_of_getLast? isLast
    rw [tracks.duration, ← firstTime, ← lastTime]
    exact toInt_sub_of_close (bounded first inFirst last inLast) (bounded last inLast first inFirst)

theorem forall₂_of_mem {α β : Type} {R Q : α → β → Prop} {xs : List α} {ys : List β}
    (related : List.Forall₂ R xs ys) (imp : ∀ x, ∀ y ∈ ys, R x y → Q x y) :
    List.Forall₂ Q xs ys := by
  induction related with
  | nil => exact .nil
  | cons head _ ih =>
    exact .cons (imp _ _ (by simp) head) (ih fun x y member => imp x y (by simp [member]))

theorem meets_of_countable (small : timeout.toNat < 2 ^ 63)
    (order : HashIteration String (List EventRow)) (ids : Nat → String) (bounded : Bounded events)
    (countable : Countable timeout.toNat events) :
    Meets timeout.toNat events ((new timeout).sessionize order ids events) := by
  intro user
  have owned : ∀ ev ∈ events.filter (·.userKey = user), ev ∈ events ∧ ev.userKey = user := by
    simp
  have boundedUser : Bounded (events.filter (·.userKey = user)) := fun a inA b inB =>
    bounded a (owned a inA).1 b (owned b inB).1
  obtain ⟨n, rows⟩ := filter_sessionize (new timeout) order ids events user
  refine ⟨expected timeout.toNat (events.filter (·.userKey = user)), ?_, ?_, ?_, ?_⟩
  · rw [rows]
    refine forall₂_of_mem (buildSessions_expected small ids user boundedUser n) ?_
    intro row group member tracks
    have inside : ∀ ev ∈ group, ev ∈ events.filter (·.userKey = user) := fun ev =>
      mem_of_mem_expected member
    have short : group.length < 2 ^ 32 := by
      obtain ⟨ev, rest, rfl⟩ := exists_cons_of_ne_nil (ne_nil_of_mem_splitBy member)
      obtain ⟨inEvents, rfl⟩ := owned ev (inside ev (by simp))
      exact countable ev inEvents _ member
    exact describes_of_tracks tracks short (fun ev inGroup => (owned ev (inside ev inGroup)).2)
      fun a inA b inB => boundedUser a (inside a inA) b (inside b inB)
  · rw [expected, flatten_splitBy]
    exact stablySorted_sortByTime _
  · intro group member
    exact (isChain_of_mem_splitBy member).imp fun a b near => of_decide_eq_true near
  · refine (isChain_getLast_head_splitBy _ _).imp ?_
    rintro g h ⟨last, first, far⟩
    exact ⟨last, first, of_decide_eq_false far⟩

theorem group_bounds (described : List.Forall₂ Describes rows groups) :
    ∀ group ∈ groups, group ≠ [] ∧ group.length < 2 ^ 32 := by
  induction described with
  | nil => simp
  | @cons row group _ _ head _ ih =>
    refine forall_mem_cons.mpr ⟨⟨?_, ?_⟩, ih⟩
    · rintro rfl
      simpa using head.start
    · rw [← head.count]
      exact row.eventCount.toNat_lt

theorem groups_eq_expected {timeout : Nat} {userEvents : List EventRow}
    (parts : Partitions timeout userEvents rows groups) : expected timeout userEvents = groups := by
  refine splitBy_eq_iff.mpr ⟨?_, ?_, ?_, ?_⟩
  · exact (stablySorted_sortByTime userEvents).unique parts.inOrder
  · exact fun member => (group_bounds parts.described [] member).1 rfl
  · intro group member
    exact (parts.close group member).imp fun a b near => decide_eq_true near
  · refine parts.apart.imp ?_
    rintro g h ⟨last, first, far⟩
    exact ⟨last, first, decide_eq_false far⟩

theorem countable_of_meets {timeout : Nat}
    (meets : Meets timeout events sessions) : Countable timeout events := by
  intro ev _ group member
  obtain ⟨groups, parts⟩ := meets ev.userKey
  rw [groups_eq_expected parts] at member
  exact (group_bounds parts.described group member).2

/-- Exactly when the counter of a session is wide enough. -/
theorem sessionize_meets_iff (timeout : UInt64) (small : timeout.toNat < 2 ^ 63)
    (order : HashIteration String (List EventRow)) (ids : Nat → String) (events : List EventRow)
    (bounded : Bounded events) :
    Meets timeout.toNat events ((new timeout).sessionize order ids events) ↔
      Countable timeout.toNat events :=
  ⟨countable_of_meets, meets_of_countable small order ids bounded⟩

theorem sessionize_two_users : Meets 30
      [⟨"u", 100, "c"⟩, ⟨"v", -5, "x"⟩, ⟨"u", 10, "a"⟩, ⟨"u", 40, "b"⟩, ⟨"v", 26, "y"⟩]
      ((new 30).sessionize .ascending (fun _ => "id")
        [⟨"u", 100, "c"⟩, ⟨"v", -5, "x"⟩, ⟨"u", 10, "a"⟩, ⟨"u", 40, "b"⟩, ⟨"v", 26, "y"⟩]) :=
  (sessionize_meets_iff 30 (by decide) .ascending (fun _ => "id")
    [⟨"u", 100, "c"⟩, ⟨"v", -5, "x"⟩, ⟨"u", 10, "a"⟩, ⟨"u", 40, "b"⟩, ⟨"v", 26, "y"⟩]
    (by decide +kernel)).mpr (by decide +kernel)

theorem expected_replicate (timeout : Nat) {n : Nat} (nonzero : n ≠ 0) (ev : EventRow) :
    expected timeout (List.replicate n ev) = [List.replicate n ev] := by
  have sorted : sortByTime (replicate n ev) = replicate n ev :=
    List.Pairwise.insertionSort_eq (pairwise_replicate.mpr (.inr (Int64.le_refl _)))
  rw [expected, sorted]
  refine splitBy_of_isChain (by simpa using nonzero) ?_
  refine List.Pairwise.isChain (pairwise_replicate.mpr (.inr (decide_eq_true ?_)))
  simp [Near, gap]

theorem not_meets_replicate {n : Nat} (many : 2 ^ 32 ≤ n) (timeout : Nat) (ev : EventRow)
    (sessions : List SessionRow) : ¬ Meets timeout (List.replicate n ev) sessions := by
  intro meets
  have nonzero : n ≠ 0 := by omega
  have short := countable_of_meets meets ev (mem_replicate.mpr ⟨nonzero, rfl⟩)
  rw [filter_replicate_of_pos (by simp), expected_replicate timeout nonzero] at short
  have counted := short _ (mem_singleton_self _)
  rw [length_replicate] at counted
  omega

theorem eventCount_wraps : Bounded (List.replicate (2 ^ 32) ⟨"u", 0, "view"⟩) ∧
    ¬ Meets 1800 (List.replicate (2 ^ 32) ⟨"u", 0, "view"⟩)
      ((new 1800).sessionize .ascending (fun _ => "id")
        (List.replicate (2 ^ 32) ⟨"u", 0, "view"⟩)) := by
  refine ⟨?_, not_meets_replicate le_rfl 1800 _ _⟩
  intro a inA b inB
  rw [(mem_replicate.mp inA).2, (mem_replicate.mp inB).2]
  decide

/-- Sessions hold every event of a user once, in the order of time, even where counts wrap. -/
theorem sessions_partition_events (s : Sessionizer) (order : HashIteration String (List EventRow))
    (ids : Nat → String) (events : List EventRow) (user : String) :
    ∃ groups, Forall₂ (Tracks user) ((s.sessionize order ids events).filter (·.userKey = user)) groups ∧
      groups.flatten = sortByTime (events.filter (·.userKey = user)) := by
  obtain ⟨n, built⟩ := filter_sessionize s order ids events user
  rw [built]
  exact ⟨_, buildSessions_tracks s ids user _ n, flatten_splitBy _ _⟩

end Sessionizer
end WowDb.Compute
