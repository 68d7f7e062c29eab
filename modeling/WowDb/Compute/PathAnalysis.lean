import WowDb.Compute.Funnel
import WowDb.Lib.Run

/-!
# Paths of events

`PathExecutor` of `compute-node/src/executor/analytics/path.rs`: every user has one open path, which an
end event, the depth, the session gap or the end of a `process_events` call closes. Times are `Int64`
with the wrapped difference of the source; user keys are octets, and the hash map is read back in any
order.
-/
namespace WowDb.Compute
open WowDb.Lib

structure PathDef where
  startEvent : Option String
  endEvent : Option String
  maxDepth : Nat
  sessionGap : Int64
  deriving DecidableEq

structure UserSession where
  path : List String
  lastTime : Int64
  deriving DecidableEq

namespace UserSession

def fresh : UserSession := ⟨[], Int64.minValue⟩

def expired (d : PathDef) (s : UserSession) (event : EventRecord) : Bool :=
  s.lastTime ≠ Int64.minValue ∧ d.sessionGap < event.eventTime - s.lastTime

def expire (d : PathDef) (s : UserSession) (event : EventRecord) : UserSession × List (List String) :=
  if s.expired d event then
    (⟨[], s.lastTime⟩, if s.path.isEmpty then [] else [s.path])
  else (s, [])

def shouldStart (d : PathDef) (path : List String) (event : EventRecord) : Bool :=
  match d.startEvent with
  | none => path.isEmpty
  | some start => path.isEmpty && event.eventName == start

def reachedEnd (d : PathDef) (event : EventRecord) : Bool :=
  (d.endEvent.map (event.eventName == ·)).getD false

def extend (d : PathDef) (s : UserSession) (event : EventRecord) : UserSession × List (List String) :=
  if shouldStart d s.path event || !s.path.isEmpty then
    let path := s.path ++ [event.eventName]
    if reachedEnd d event || d.maxDepth ≤ path.length then (⟨[], event.eventTime⟩, [path])
    else (⟨path, event.eventTime⟩, [])
  else (s, [])

def visit (d : PathDef) (s : UserSession) (event : EventRecord) : UserSession × List (List String) :=
  let e := s.expire d event
  let x := e.1.extend d event
  (x.1, e.2 ++ x.2)

end UserSession

structure PathLoop where
  userSessions : OrdMap Bytes UserSession
  pathsToFlush : List (List String)

namespace PathLoop

def sessionOf (l : PathLoop) (user : Bytes) : UserSession :=
  (l.userSessions.get? user).getD .fresh

def visit (d : PathDef) (l : PathLoop) (event : EventRecord) : PathLoop :=
  let visited := (l.sessionOf event.userKey).visit d event
  ⟨l.userSessions.insert event.userKey visited.1, l.pathsToFlush ++ visited.2⟩

def remainingPaths (l : PathLoop) (order : HashIteration Bytes UserSession) : List (List String) :=
  ((order.iterate l.userSessions).map fun e => e.2.path).filter fun path => !path.isEmpty

end PathLoop

structure PathExecutor where
  pathCounts : OrdMap (List String) Nat
  userSessions : OrdMap Bytes UserSession

namespace PathExecutor

def new : PathExecutor := ⟨.empty, .empty⟩

def flushPath (counts : OrdMap (List String) Nat) (path : List String) : OrdMap (List String) Nat :=
  if 2 ≤ path.length then counts.upsert path 0 (· + 1) else counts

def processEvents (order : HashIteration Bytes UserSession) (d : PathDef) (ex : PathExecutor)
    (events : List EventRecord) : PathExecutor :=
  let l := events.foldl (PathLoop.visit d) ⟨ex.userSessions, []⟩
  ⟨(l.pathsToFlush ++ l.remainingPaths order).foldl flushPath ex.pathCounts, .empty⟩

end PathExecutor

def longPaths (paths : List (List String)) : List (List String) :=
  paths.filter fun path => decide (2 ≤ path.length)

theorem longPaths_perm_iff {paths other : List (List String)} :
    (longPaths paths).Perm (longPaths other) ↔
      ∀ p : List String, 2 ≤ p.length → paths.count p = other.count p := by
  have long : ∀ (paths : List (List String)) (p : List String), 2 ≤ p.length →
      (longPaths paths).count p = paths.count p := by
    intro paths p counted
    exact List.count_filter (by simpa using counted)
  rw [List.perm_iff_count]
  constructor
  · intro same p counted
    rw [← long paths p counted, same p, long other p counted]
  · intro same p
    by_cases counted : 2 ≤ p.length
    · rw [long paths p counted, same p counted, long other p counted]
    · have absent : ∀ paths : List (List String), p ∉ longPaths paths := by
        intro paths member
        exact counted (of_decide_eq_true (List.mem_filter.1 member).2)
      rw [List.count_eq_zero.2 (absent paths), List.count_eq_zero.2 (absent other)]

namespace PathExecutor

theorem foldl_flushPath (paths : List (List String)) (counts : OrdMap (List String) Nat) :
    paths.foldl flushPath counts =
      (longPaths paths).foldl (fun m p => m.upsert p 0 (· + 1)) counts := by
  rw [longPaths, List.foldl_filter]
  simp only [decide_eq_true_iff]
  rfl

theorem foldl_flushPath_eq_iff {paths other : List (List String)}
    {counts : OrdMap (List String) Nat} :
    paths.foldl flushPath counts = other.foldl flushPath counts ↔
      (longPaths paths).Perm (longPaths other) := by
  rw [foldl_flushPath, foldl_flushPath]
  constructor
  · intro equal
    rw [List.perm_iff_count]
    intro p
    have ours := OrdMap.getD_foldl_count id (longPaths paths) counts p
    have theirs := OrdMap.getD_foldl_count id (longPaths other) counts p
    simp only [id] at ours theirs
    rw [equal, theirs] at ours
    rw [List.count_eq_length_filter, List.count_eq_length_filter]
    simpa [beq_eq_decide] using (Nat.add_left_cancel ours).symm
  · intro same
    exact OrdMap.foldl_upsert_perm id 0 (fun _ _ _ => rfl) same counts

end PathExecutor

namespace UserSession

variable {d : PathDef}

def Alike (s t : UserSession) : Prop := s.path = t.path ∧ (s.path ≠ [] → s = t)

theorem Alike.refl (s : UserSession) : Alike s s := ⟨rfl, fun _ => rfl⟩

variable {s t : UserSession}

theorem extend_of_nil (emptyS : s.path = []) (emptyT : t.path = []) (event : EventRecord) :
    (s.extend d event).2 = (t.extend d event).2 ∧
      Alike (s.extend d event).1 (t.extend d event).1 := by
  unfold extend
  rw [emptyS, emptyT]
  split
  · exact ⟨rfl, Alike.refl _⟩
  · exact ⟨rfl, emptyS.trans emptyT.symm, fun open_ => (open_ emptyS).elim⟩

theorem expire_fresh (event : EventRecord) : fresh.expire d event = (fresh, []) := by
  simp [expire, expired, fresh]

theorem visit_of_begins {event : EventRecord} (begins : s.path = [] ∨ s.expired d event = true) :
    (s.visit d event).2 = (if s.path.isEmpty then [] else [s.path]) ++ (fresh.visit d event).2 ∧
      Alike (s.visit d event).1 (fresh.visit d event).1 := by
  have closed : (s.expire d event).1.path = [] ∧
      (s.expire d event).2 = if s.path.isEmpty then [] else [s.path] := by
    unfold expire
    rcases begins with empty | late
    · split <;> simp [empty]
    · simp [late]
  have extended := extend_of_nil (d := d) closed.1 (rfl : fresh.path = []) event
  simp only [visit, expire_fresh, closed.2, List.nil_append]
  exact ⟨by rw [extended.1], extended.2⟩

theorem visit_of_nil (empty : s.path = []) (event : EventRecord) :
    (s.visit d event).2 = (fresh.visit d event).2 ∧
      Alike (s.visit d event).1 (fresh.visit d event).1 := by
  simpa [empty] using visit_of_begins (.inl empty : _ ∨ s.expired d event = true)

theorem Alike.visit (alike : Alike s t) (event : EventRecord) :
    (s.visit d event).2 = (t.visit d event).2 ∧ Alike (s.visit d event).1 (t.visit d event).1 := by
  by_cases empty : s.path = []
  · have left := visit_of_nil (d := d) empty event
    have right := visit_of_nil (d := d) (alike.1 ▸ empty) event
    refine ⟨left.1.trans right.1.symm, left.2.1.trans right.2.1.symm, ?_⟩
    intro grown
    rw [left.2.2 grown, right.2.2 (by rwa [right.2.1, ← left.2.1])]
  · rw [alike.2 empty]
    exact ⟨rfl, Alike.refl _⟩

def runEvents (d : PathDef) (s : UserSession) (events : List EventRecord) :
    UserSession × List (List String) :=
  events.foldl (fun r event => ((r.1.visit d event).1, r.2 ++ (r.1.visit d event).2)) (s, [])

def paths (d : PathDef) (s : UserSession) (events : List EventRecord) : List (List String) :=
  (s.runEvents d events).2 ++ [(s.runEvents d events).1.path]

theorem runEvents_concat (s : UserSession) (events : List EventRecord) (event : EventRecord) :
    s.runEvents d (events ++ [event]) = (((s.runEvents d events).1.visit d event).1,
        (s.runEvents d events).2 ++ ((s.runEvents d events).1.visit d event).2) := by
  rw [runEvents, List.foldl_append]
  rfl

theorem paths_of_begins {event : EventRecord} (begins : s.path = [] ∨ s.expired d event = true)
    (rest : List EventRecord) : s.paths d (event :: rest) =
      (if s.path.isEmpty then [] else [s.path]) ++ fresh.paths d (event :: rest) := by
  have both : (s.runEvents d (event :: rest)).2 =
      (if s.path.isEmpty then [] else [s.path]) ++ (fresh.runEvents d (event :: rest)).2 ∧
      Alike (s.runEvents d (event :: rest)).1 (fresh.runEvents d (event :: rest)).1 := by
    induction rest using List.reverseRecOn with
    | nil => exact visit_of_begins begins
    | append_singleton rest last ih =>
      have next := ih.2.visit (d := d) last
      rw [← List.cons_append, runEvents_concat, runEvents_concat, ih.1, next.1, List.append_assoc]
      exact ⟨rfl, next.2⟩
  rw [paths, paths, both.1, both.2.1, List.append_assoc]

end UserSession

namespace PathLoop

variable {d : PathDef}

def new : PathLoop := ⟨.empty, []⟩

variable (l : PathLoop)

theorem sessionOf_visit (event : EventRecord) (user : Bytes) :
    (l.visit d event).sessionOf user =
      if user = event.userKey then ((l.sessionOf event.userKey).visit d event).1
      else l.sessionOf user := by
  rw [sessionOf, visit, OrdMap.get?_insert]
  split <;> rfl

theorem sessionOf_foldl (events : List EventRecord) (user : Bytes) :
    (events.foldl (visit d) l).sessionOf user =
      ((l.sessionOf user).runEvents d (ofUser user events)).1 := by
  induction events using List.reverseRecOn with
  | nil => rfl
  | append_singleton events event ih =>
    rw [List.foldl_append, List.foldl_cons, List.foldl_nil, sessionOf_visit, ofUser_concat]
    by_cases own : event.userKey = user
    · subst own
      rw [if_pos rfl, if_pos rfl, ih, UserSession.runEvents_concat]
    · have other : user ≠ event.userKey := fun same => own same.symm
      rw [if_neg other, if_neg own, ih]

def tally (l : PathLoop) (p : List String) : Nat :=
  l.pathsToFlush.count p + l.userSessions.entries.countP fun e => e.2.path = p

theorem count_flushed (order : HashIteration Bytes UserSession) {p : List String}
    (nonempty : p ≠ []) : (l.pathsToFlush ++ l.remainingPaths order).count p = l.tally p := by
  rw [List.count_append, tally, remainingPaths, List.count_filter (by simpa using nonempty)]
  rw [List.count, List.countP_map, (order.iterate_perm l.userSessions).countP_eq]
  congr 1
  apply List.countP_congr
  simp

theorem tally_visit (event : EventRecord) {p : List String} (nonempty : p ≠ []) :
    (l.visit d event).tally p + [(l.sessionOf event.userKey).path].count p =
      l.tally p + ((l.sessionOf event.userKey).visit d event).2.count p +
        [((l.sessionOf event.userKey).visit d event).1.path].count p := by
  have moved := l.userSessions.countP_insert event.userKey
    ((l.sessionOf event.userKey).visit d event).1 fun s => decide (s.path = p)
  have old : (l.userSessions.get? event.userKey).toList.countP (fun s => decide (s.path = p)) =
      [(l.sessionOf event.userKey).path].count p := by
    rw [sessionOf]
    cases l.userSessions.get? event.userKey with
    | none => simp [UserSession.fresh, nonempty.symm]
    | some s => simp [List.count_singleton, List.countP_singleton]
  have new : [((l.sessionOf event.userKey).visit d event).1].countP (fun s => decide (s.path = p)) =
      [((l.sessionOf event.userKey).visit d event).1.path].count p := by
    simp [List.count_singleton, List.countP_singleton]
  rw [old, new] at moved
  simp only [tally, visit, List.count_append]
  omega

end PathLoop

namespace PathLoop

variable {d : PathDef}

/-- The loop over a slice, once from where the events before have led and once from nothing.
Every user but one begins without a path; the tallies then differ by what the events of that
user make. -/
structure Cut (d : PathDef) (base : PathLoop) (user : Bytes) (slice : List EventRecord) : Prop where
  alike : ∀ other, other ≠ user → (base.sessionOf other).path = [] →
    UserSession.Alike ((slice.foldl (visit d) base).sessionOf other)
      ((slice.foldl (visit d) new).sessionOf other)
  tally : ∀ p : List String, p ≠ [] → (slice.foldl (visit d) base).tally p +
        (UserSession.fresh.paths d (ofUser user slice)).count p + [(base.sessionOf user).path].count p =
      base.tally p + (slice.foldl (visit d) new).tally p +
        ((base.sessionOf user).paths d (ofUser user slice)).count p

theorem cut_nil (base : PathLoop) (user : Bytes) : Cut d base user [] where
  alike other _ empty := ⟨empty, fun grown => (grown empty).elim⟩
  tally p nonempty := by
    have none : [([] : List String)].count p = 0 := by simp [nonempty.symm]
    simp [UserSession.paths, UserSession.runEvents, UserSession.fresh, ofUser, tally, new, OrdMap.empty,
      none]

theorem count_paths (s : UserSession) (events : List EventRecord) (p : List String) :
    (s.paths d events).count p =
      (s.runEvents d events).2.count p + [(s.runEvents d events).1.path].count p :=
  List.count_append

theorem count_paths_concat (s : UserSession) (events : List EventRecord) (event : EventRecord)
    (p : List String) :
    (s.paths d (events ++ [event])).count p =
      (s.runEvents d events).2.count p + ((s.runEvents d events).1.visit d event).2.count p +
        [((s.runEvents d events).1.visit d event).1.path].count p := by
  rw [count_paths, UserSession.runEvents_concat, List.count_append]

variable {user : Bytes} {slice : List EventRecord}

theorem Cut.concat {base : PathLoop} {event : EventRecord} (cut : Cut d base user slice)
    (others : event.userKey ≠ user → (base.sessionOf event.userKey).path = []) :
    Cut d base user (slice ++ [event]) := by
  constructor
  · intro other apart empty
    rw [List.foldl_append, List.foldl_append]
    simp only [List.foldl_cons, List.foldl_nil, sessionOf_visit]
    split
    · next same =>
      subst same
      exact ((cut.alike _ apart empty).visit event).2
    · exact cut.alike other apart empty
  · intro p nonempty
    have before := cut.tally p nonempty
    have whole := tally_visit (d := d) (slice.foldl (visit d) base) event nonempty
    have alone := tally_visit (d := d) (slice.foldl (visit d) new) event nonempty
    rw [List.foldl_append, List.foldl_append, List.foldl_cons, List.foldl_nil, List.foldl_cons,
      List.foldl_nil, ofUser_concat]
    by_cases own : event.userKey = user
    · subst own
      rw [sessionOf_foldl] at whole alone
      rw [count_paths, count_paths] at before
      rw [if_pos rfl, count_paths_concat, count_paths_concat]
      have started : new.sessionOf event.userKey = UserSession.fresh := rfl
      rw [started] at alone
      omega
    · -- the session of another user does the same in both
      have alike := cut.alike event.userKey own (others own)
      have next := alike.visit (d := d) event
      rw [alike.1, next.1, next.2.1] at whole
      rw [if_neg own]
      omega

theorem cut_of_others {base : PathLoop}
    (others : ∀ event ∈ slice, event.userKey ≠ user → (base.sessionOf event.userKey).path = []) :
    Cut d base user slice := by
  induction slice using List.reverseRecOn with
  | nil => exact cut_nil base user
  | append_singleton slice event ih =>
    rw [List.forall_mem_append] at others
    exact (ih others.1).concat (others.2 event List.mem_cons_self)

def after (d : PathDef) (seen : List EventRecord) : PathLoop := seen.foldl (visit d) new

theorem sessionOf_after_of_unseen {seen : List EventRecord}
    (unseen : ofUser user seen = []) : (after d seen).sessionOf user = .fresh := by
  unfold after
  rw [sessionOf_foldl, unseen]
  rfl

end PathLoop

open PathLoop

variable {seen slice : List EventRecord}

theorem exists_cut_user (sorted : SortedByUserAndTime (seen ++ slice)) :
    ∃ user, ∀ event ∈ slice, event.userKey ≠ user → ofUser event.userKey seen = [] := by
  have order := (List.pairwise_append.1 sorted).2.2
  by_cases cut : ∃ a ∈ seen, ∃ b ∈ slice, a.userKey = b.userKey
  · obtain ⟨a, inSeen, b, inSlice, same⟩ := cut
    refine ⟨b.userKey, ?_⟩
    intro event here apart
    apply List.filter_eq_nil_iff.2
    intro other seenOther own
    have own := of_decide_eq_true own
    have first := order other seenOther b inSlice
    have second := order a inSeen event here
    rw [own] at first
    rw [same] at second
    have below := first.resolve_right fun equal => apart equal.1
    have above := second.resolve_right fun equal => apart equal.1.symm
    exact lt_irrefl _ (below.trans above)
  · refine ⟨[], ?_⟩
    intro event here _
    apply List.filter_eq_nil_iff.2
    intro other seenOther own
    exact cut ⟨other, seenOther, event, here, of_decide_eq_true own⟩

/-- Every user of the slice begins anew in it: no path of theirs is open after the events before, or
the session gap has passed when their first event of the slice comes. -/
def Begins (d : PathDef) (seen slice : List EventRecord) : Prop :=
  ∀ event ∈ slice, ∀ first ∈ (ofUser event.userKey slice).head?,
    ((after d seen).sessionOf event.userKey).path = [] ∨
      ((after d seen).sessionOf event.userKey).expired d first = true

instance (d : PathDef) (seen slice : List EventRecord) : Decidable (Begins d seen slice) :=
  inferInstanceAs (Decidable (∀ event ∈ slice, _))

/-- A user who begins anew makes the open path and the paths of their events alone. -/
theorem count_paths_of_begins {d : PathDef} (begins : Begins d seen slice) {event : EventRecord}
    (here : event ∈ slice) {p : List String} (nonempty : p ≠ []) :
    (((after d seen).sessionOf event.userKey).paths d (ofUser event.userKey slice)).count p =
      [((after d seen).sessionOf event.userKey).path].count p +
        (UserSession.fresh.paths d (ofUser event.userKey slice)).count p := by
  have member : event ∈ ofUser event.userKey slice := List.mem_filter.2 ⟨here, decide_eq_true rfl⟩
  have start := begins event here
  cases own : ofUser event.userKey slice with
  | nil => simp [own] at member
  | cons first rest =>
    rw [own] at start
    rw [UserSession.paths_of_begins (start first rfl) rest]
    cases ((after d seen).sessionOf event.userKey).path with
    | nil => simp [nonempty.symm]
    | cons name names => simp [List.count_cons, Nat.add_comm]

theorem ne_nil_of_long {p : List String} (long : 2 ≤ p.length) : p ≠ [] := by
  intro empty
  simp [empty] at long

theorem tally_add_of_begins {d : PathDef} (sorted : SortedByUserAndTime (seen ++ slice))
    (begins : Begins d seen slice) {p : List String} (nonempty : p ≠ []) :
    (after d (seen ++ slice)).tally p = (after d seen).tally p + (after d slice).tally p := by
  obtain ⟨user, others⟩ := exists_cut_user sorted
  have cut : Cut d (after d seen) user slice :=
    cut_of_others fun event here apart => by
      rw [sessionOf_after_of_unseen (others event here apart)]
      rfl
  have whole : after d (seen ++ slice) = slice.foldl (visit d) (after d seen) := List.foldl_append
  have balance := cut.tally p nonempty
  rw [whole]
  by_cases listed : ∃ event ∈ slice, event.userKey = user
  · obtain ⟨event, here, own⟩ := listed
    have added := count_paths_of_begins begins here nonempty
    rw [own] at added
    unfold after at added balance ⊢
    omega
  · have absent : ofUser user slice = [] :=
      List.filter_eq_nil_iff.2 fun event here own => listed ⟨event, here, of_decide_eq_true own⟩
    have none : (UserSession.fresh.paths d []).count p = 0 := by
      simp [UserSession.paths, UserSession.runEvents, UserSession.fresh, nonempty.symm]
    have same : (((after d seen).sessionOf user).paths d []).count p =
        [((after d seen).sessionOf user).path].count p := rfl
    rw [absent, none, same] at balance
    unfold after at balance ⊢
    omega

/-- The calls of `process_events` so far, and the events of all of them. -/
structure SlicedRun where
  executor : PathExecutor
  seen : List EventRecord

namespace SlicedRun

def init : SlicedRun := ⟨.new, []⟩

def step (order : HashIteration Bytes UserSession) (d : PathDef) (s : SlicedRun)
    (slice : List EventRecord) : Option SlicedRun :=
  some ⟨s.executor.processEvents order d slice, s.seen ++ slice⟩

/-- The counts are those of one call on all events. -/
def Agrees (order : HashIteration Bytes UserSession) (d : PathDef) (s : SlicedRun) : Prop :=
  s.executor.pathCounts = (PathExecutor.new.processEvents order d s.seen).pathCounts

variable (order : HashIteration Bytes UserSession)

theorem agrees_init (d : PathDef) : Agrees order d init := by
  have none : order.iterate .empty = [] := (order.iterate_perm .empty).eq_nil
  unfold Agrees PathExecutor.processEvents
  simp only [init, PathExecutor.new, List.foldl_nil, remainingPaths, none]
  rfl

theorem agrees_step {whole : HashIteration Bytes UserSession} {d : PathDef} {s : SlicedRun}
    {slice : List EventRecord} (closed : s.executor.userSessions = .empty)
    (agrees : Agrees whole d s) (sorted : SortedByUserAndTime (s.seen ++ slice))
    (begins : Begins d s.seen slice) :
    Agrees whole d ⟨s.executor.processEvents order d slice, s.seen ++ slice⟩ := by
  have flushed : s.executor.pathCounts =
      ((after d s.seen).pathsToFlush ++ (after d s.seen).remainingPaths whole).foldl
        PathExecutor.flushPath .empty := agrees
  have sliced : (s.executor.processEvents order d slice).pathCounts =
      ((after d slice).pathsToFlush ++ (after d slice).remainingPaths order).foldl
        PathExecutor.flushPath s.executor.pathCounts := by
    unfold PathExecutor.processEvents
    rw [closed]
    rfl
  have together : (PathExecutor.new.processEvents whole d (s.seen ++ slice)).pathCounts =
      ((after d (s.seen ++ slice)).pathsToFlush ++
        (after d (s.seen ++ slice)).remainingPaths whole).foldl PathExecutor.flushPath .empty := rfl
  unfold Agrees
  rw [sliced, together, flushed, ← List.foldl_append, PathExecutor.foldl_flushPath_eq_iff,
    longPaths_perm_iff]
  intro p long
  have nonempty := ne_nil_of_long long
  rw [List.count_append, count_flushed _ _ nonempty, count_flushed _ _ nonempty,
    count_flushed _ _ nonempty, tally_add_of_begins sorted begins nonempty]

/-- Slices of a sorted list count like one call, after each of them, if every user of a slice begins
anew in it. -/
theorem counts_agree_of_begins (order whole : HashIteration Bytes UserSession) (d : PathDef)
    (slices : List (List EventRecord)) (sorted : SortedByUserAndTime slices.flatten)
    (begins : Run.EveryStep (step order d) (fun s slice => Begins d s.seen slice) init slices) :
    Run.EveryState (step order d) (Agrees whole d) init slices := by
  have general : ∀ s : SlicedRun, s.executor.userSessions = .empty → Agrees whole d s →
      SortedByUserAndTime (s.seen ++ slices.flatten) →
      Run.EveryStep (step order d) (fun s slice => Begins d s.seen slice) s slices →
      Run.EveryState (step order d) (Agrees whole d) s slices := by
    clear sorted begins
    induction slices with
    | nil =>
      intro s _ agrees _ _
      rw [Run.everyState_nil]
      exact agrees
    | cons slice rest ih =>
      intro s closed agrees sorted begins
      rw [List.flatten_cons, ← List.append_assoc] at sorted
      rw [Run.everyStep_cons (rfl : step order d s slice = some _)] at begins
      rw [Run.everyState_cons]
      refine ⟨agrees, fun next stepped => ?_⟩
      obtain rfl := Option.some.inj stepped
      have agreesNext := agrees_step order closed agrees (List.pairwise_append.1 sorted).1 begins.1
      exact ih _ rfl agreesNext sorted begins.2
  exact general init rfl (agrees_init whole d) sorted begins

def anyPath : PathDef := ⟨none, none, 10, 1800⟩

theorem counts_agree_after_gap :
    Run.EveryState (step .ascending anyPath) (Agrees .ascending anyPath) init
      [[⟨[1], "A", 0⟩, ⟨[1], "B", 1⟩], [⟨[1], "A", 5000⟩, ⟨[1], "C", 5001⟩, ⟨[2], "A", 0⟩]] :=
  counts_agree_of_begins .ascending .ascending anyPath _ (by decide) (by decide +kernel)

/-- A path that goes on over two slices is counted as two. -/
theorem path_cut_in_two :
    let slices : List (List EventRecord) :=
      [[⟨[1], "A", 0⟩, ⟨[1], "B", 1⟩], [⟨[1], "C", 2⟩, ⟨[1], "D", 3⟩]]
    SortedByUserAndTime slices.flatten ∧
      (Run.exec (step .ascending anyPath) init slices).map (·.executor.pathCounts.entries) =
        some [(["A", "B"], 1), (["C", "D"], 1)] ∧
      (PathExecutor.new.processEvents .ascending anyPath slices.flatten).pathCounts.entries =
        [(["A", "B", "C", "D"], 1)] := by
  decide +kernel

end SlicedRun
end WowDb.Compute
