import WowDb.Query.ClusterGuard

/-!
# The disk monitor of the query node

`query-node/src/disk_monitor.rs`: polls add and remove reasons of the guard.
-/
namespace WowDb.Query
open WowDb.Lib List

structure PathType (π : Type) where
  same : π → π → Bool
  toStringLossy : π → String
  same_refl : ∀ p, same p p = true
  same_trans : ∀ {p q r}, same p q = true → same q r = true → same p r = true

def pathComponents (path : String) : Bool × List (List Char) :=
  (path.toList.head? == some '/', match path.toList.splitOn '/' with
    | [] => []
    | first :: rest => [first].filter (· ≠ []) ++ rest.filter (fun c => c ≠ [] && c ≠ ['.']))

def textPath : PathType String where
  same p q := pathComponents p == pathComponents q
  toStringLossy p := p
  same_refl := by simp
  same_trans := by
    simp only [beq_iff_eq]
    intro p q r left right
    exact left.trans right

example : textPath.same "/data//raft/./wal/" "/data/raft/wal" = true := by decide

structure QnDiskMonitorConfig (π : Type) where
  diskFullThreshold : F64
  diskRecoveryThreshold : F64
  nodeId : String
  watchPaths : List π

def QnDiskMonitorConfig.default : QnDiskMonitorConfig String where
  diskFullThreshold := .div (.ofNat 95) (.ofNat 100)
  diskRecoveryThreshold := .div (.ofNat 85) (.ofNat 100)
  nodeId := "qn-1"
  watchPaths := ["/data/raft/wal", "/data/raft/snapshots"]

inductive PathState where
  | normal
  | readOnly
  deriving DecidableEq

structure QnDiskMonitor (π : Type) where
  config : QnDiskMonitorConfig π
  guard : ClusterGuard
  states : List (π × PathState)

structure Sample where
  usage : Option F64
  enteredAt : Int
  updatedAt : Int

namespace QnDiskMonitor

variable {π : Type} (P : PathType π) (codec : GuardCodec)

variable (config : QnDiskMonitorConfig π)

def withProvider (guard : ClusterGuard) : QnDiskMonitor π :=
  ⟨config, guard, config.watchPaths.map fun p => (p, .normal)⟩

def stateOf (states : List (π × PathState)) (path : π) : Option PathState :=
  (states.find? fun e => P.same e.1 path).map Prod.snd

def setState (path : π) (state : PathState) : List (π × PathState) → List (π × PathState)
  | [] => []
  | e :: rest =>
    if P.same e.1 path then (e.1, state) :: rest else e :: setState path state rest

def pollPath (m : QnDiskMonitor π) (path : π) (sample : Sample) : QnDiskMonitor π :=
  match sample.usage with
  | none => m
  | some usage =>
    let reason := ReadOnlyReason.diskFull m.config.nodeId (P.toStringLossy path) usage
    match stateOf P m.states path with
    | some .normal =>
      if usage.gt m.config.diskFullThreshold then { m with
        states := setState P path .readOnly m.states
        guard := m.guard.addReason codec reason sample.enteredAt sample.updatedAt }
      else m
    | some .readOnly =>
      if usage.le m.config.diskRecoveryThreshold then { m with
        states := setState P path .normal m.states
        guard := m.guard.removeReason codec reason sample.updatedAt }
      else m
    | none => m

def pollPaths (m : QnDiskMonitor π) : List (π × Sample) → QnDiskMonitor π
  | [] => m
  | (path, sample) :: rest => pollPaths (pollPath P codec m path sample) rest

def pollOnce (m : QnDiskMonitor π) (samples : List Sample) : QnDiskMonitor π :=
  pollPaths P codec m (m.config.watchPaths.zip samples)

/-- A poll, a restart within a poll, or a manual change. -/
inductive Action (π : Type) where
  | poll (samples : List Sample)
  | restart (config : QnDiskMonitorConfig π) (interrupted : List Sample)
  | setManual (admin : String) (comment : Option String) (enteredAt updatedAt : Int)
  | clearManual (admin : String) (force : Bool) (updatedAt : Int)

def started (raft : MetaStateMachine) : QnDiskMonitor π :=
  withProvider config ((ClusterGuard.new raft).loadFromRaft codec)

def step (m : QnDiskMonitor π) : Action π → Option (QnDiskMonitor π)
  | .poll samples =>
    if samples.length = m.config.watchPaths.length then some (pollOnce P codec m samples) else none
  | .restart config interrupted =>
    some (started codec config (pollOnce P codec m interrupted).guard.raft)
  | .setManual admin comment enteredAt updatedAt =>
    some { m with guard := m.guard.setManualReadOnly codec admin comment enteredAt updatedAt }
  | .clearManual admin force updatedAt =>
    some { m with guard := (m.guard.clearManualReadOnly codec admin force updatedAt).1 }

def Leading (states : List (π × PathState)) : Prop :=
  states.Pairwise fun e f => f.2 = .readOnly → P.same e.1 f.1 = false

variable {P codec}

variable {path : π} {state : PathState}

variable {states : List (π × PathState)}

theorem split_of_stateOf
    (found : stateOf P states path = some state) : ∃ before p after,
    states = before ++ (p, state) :: after ∧ (∀ e ∈ before, P.same e.1 path = false) ∧
      P.same p path = true ∧
      ∀ next, setState P path next states = before ++ (p, next) :: after := by
  induction states with
  | nil => simp [stateOf] at found
  | cons e rest ih =>
    cases here : P.same e.1 path with
    | true =>
      simp only [stateOf, find?_cons, here, Option.map_some, Option.some.injEq] at found
      subst found
      exact ⟨[], e.1, rest, rfl, by simp, here, fun next => by simp [setState, here]⟩
    | false =>
      rw [stateOf, find?_cons, here] at found
      obtain ⟨before, p, after, split, others, same, set⟩ := ih found
      refine ⟨e :: before, p, after, by rw [split]; rfl, ?_, same, fun next => ?_⟩
      · intro f member
        rcases mem_cons.mp member with rfl | earlier
        · exact here
        · exact others f earlier
      · simp [setState, here, set next]

theorem map_fst_setState (path : π) (next : PathState) (states : List (π × PathState)) :
    (setState P path next states).map Prod.fst = states.map Prod.fst := by
  induction states with
  | nil => rfl
  | cons e rest ih =>
    simp only [setState]
    split
    · rfl
    · simp only [map_cons, ih]

theorem Leading.setState (leading : Leading P states)
    (found : stateOf P states path = some state) (next : PathState) :
    Leading P (setState P path next states) := by
  obtain ⟨before, p, after, rfl, others, same, set⟩ := split_of_stateOf found
  rw [set next]
  unfold Leading at leading ⊢
  rw [pairwise_append, pairwise_cons] at leading ⊢
  obtain ⟨front, ⟨from_p, back⟩, across⟩ := leading
  refine ⟨front, ⟨from_p, back⟩, ?_⟩
  intro e inFront f inBack readOnly
  rcases mem_cons.mp inBack with rfl | later
  · cases equal : P.same e.1 p with
    | false => rfl
    | true =>
      have reached := P.same_trans equal same
      rw [others e inFront] at reached
      cases reached
  · exact across e inFront f (mem_cons_of_mem _ later) readOnly

variable (P codec)

structure Kept (m : QnDiskMonitor π) : Prop where
  paths : m.states.map Prod.fst = m.config.watchPaths
  leading : Leading P m.states
  sound : m.guard.Sound codec

variable {P codec}

theorem pollPath_config (m : QnDiskMonitor π) (path : π) (sample : Sample) :
    (pollPath P codec m path sample).config = m.config := by
  unfold pollPath
  split
  · rfl
  · dsimp only
    split
    · split <;> rfl
    · split <;> rfl
    · rfl

variable {m : QnDiskMonitor π}

theorem Kept.pollPath (kept : Kept P codec m) (path : π) (sample : Sample) :
    Kept P codec (pollPath P codec m path sample) := by
  unfold QnDiskMonitor.pollPath
  split
  · exact kept
  · dsimp only
    split
    · rename_i found
      split
      · exact ⟨(map_fst_setState ..).trans kept.paths, kept.leading.setState found _,
          ClusterGuard.sound_addReason ..⟩
      · exact kept
    · rename_i found
      split
      · exact ⟨(map_fst_setState ..).trans kept.paths, kept.leading.setState found _,
          kept.sound.removeReason ..⟩
      · exact kept
    · exact kept

theorem pollPaths_config (m : QnDiskMonitor π) (work : List (π × Sample)) :
    (pollPaths P codec m work).config = m.config := by
  induction work generalizing m with
  | nil => rfl
  | cons w work ih => rw [pollPaths, ih, pollPath_config]

theorem Kept.pollPaths (kept : Kept P codec m) (work : List (π × Sample)) :
    Kept P codec (pollPaths P codec m work) := by
  induction work generalizing m with
  | nil => exact kept
  | cons w work ih => exact ih (kept.pollPath w.1 w.2)

theorem kept_started {raft : MetaStateMachine}
    (stored : ∀ json, raft.get readOnlyStateKey = some json →
      ∃ state : ClusterReadOnlyState, state.Consistent ∧ codec.toJson state = json) :
    Kept P codec (started codec config raft) := by
  refine ⟨?_, ?_, ClusterGuard.sound_loadFromRaft stored⟩
  · simp [started, withProvider, Function.comp_def]
  · unfold Leading started withProvider
    rw [pairwise_map, pairwise_iff_getElem]
    intro i j _ _ _ readOnly
    cases readOnly

theorem kept_step (m : QnDiskMonitor π) (a : Action π) (t : QnDiskMonitor π) (kept : Kept P codec m)
    (stepped : step P codec m a = some t) : Kept P codec t := by
  cases a with
  | poll samples =>
    simp only [step] at stepped
    split at stepped
    · cases stepped
      exact kept.pollPaths _
    · cases stepped
  | restart config interrupted =>
    cases stepped
    exact kept_started config (kept.pollPaths _).sound.stored
  | setManual admin comment enteredAt updatedAt =>
    cases stepped
    exact ⟨kept.paths, kept.leading, ClusterGuard.sound_addReason ..⟩
  | clearManual admin force updatedAt =>
    cases stepped
    exact ⟨kept.paths, kept.leading, kept.sound.clearManualReadOnly ..⟩

def Quiet (sample : Sample) : Prop :=
  ∃ usage, sample.usage = some usage ∧ usage.le config.diskRecoveryThreshold = true ∧
    usage.gt config.diskFullThreshold = false

theorem pollPath_normal {sample : Sample} (quiet : Quiet m.config sample)
    (normal : stateOf P m.states path = some .normal) : pollPath P codec m path sample = m := by
  obtain ⟨usage, measured, -, notFull⟩ := quiet
  simp [pollPath, measured, normal, notFull]

variable (codec) in
theorem pollPath_readOnly {sample : Sample} (quiet : Quiet m.config sample)
    (readOnly : stateOf P m.states path = some .readOnly) :
    ∃ usage, pollPath P codec m path sample = { m with
      states := setState P path .normal m.states
      guard := m.guard.removeReason codec
        (.diskFull m.config.nodeId (P.toStringLossy path) usage) sample.updatedAt } := by
  obtain ⟨usage, measured, recovered, -⟩ := quiet
  exact ⟨usage, by simp [pollPath, measured, readOnly, recovered]⟩

variable {after : List (π × PathState)}

variable {before : List (π × PathState)}

theorem stateOf_next {p : π}
    (normal : ∀ e ∈ before, e.2 = .normal) (leading : Leading P (before ++ (p, state) :: after)) :
    stateOf P (before ++ (p, state) :: after) p = some state := by
  cases earlier : before.find? fun e => P.same e.1 p with
  | none => simp [stateOf, find?_append, earlier, P.same_refl]
  | some e =>
    have found := mem_of_find?_eq_some earlier
    have same := find?_some earlier
    -- A second entry for the same path cannot be read-only.
    have second : state = .normal := by
      cases state with
      | normal => rfl
      | readOnly =>
        have apart := (pairwise_append.mp leading).2.2 e found (p, .readOnly)
          (mem_cons_self ..) rfl
        rw [apart] at same
        cases same
    simp [stateOf, find?_append, earlier, second, normal e found]

theorem setState_next {p : π} {next : PathState} (others : ∀ e ∈ before, P.same e.1 p = false) :
    setState P p next (before ++ (p, state) :: after) = before ++ (p, next) :: after := by
  induction before with
  | nil => simp [setState, P.same_refl]
  | cons e before ih =>
    have here := others e (mem_cons_self ..)
    simp [setState, here, ih fun f member => others f (mem_cons_of_mem _ member)]

variable (codec) in
theorem mem_reasons_pollPaths (before : List (π × PathState)) {work : List (π × Sample)}
    (split : m.states = before ++ after) (normal : ∀ e ∈ before, e.2 = .normal)
    (leading : Leading P m.states) (paths : after.map Prod.fst = work.map Prod.fst)
    (quiet : ∀ w ∈ work, Quiet m.config w.2) (r : ReadOnlyReason) :
    r ∈ (pollPaths P codec m work).guard.state.reasons ↔ r ∈ m.guard.state.reasons ∧
      ∀ p, (p, .readOnly) ∈ after → r.isAt m.config.nodeId (P.toStringLossy p) = false := by
  induction work generalizing m before after with
  | nil =>
    obtain rfl : after = [] := by simpa using paths
    simp [pollPaths]
  | cons w work ih =>
    obtain ⟨path, sample⟩ := w
    obtain ⟨⟨p, state⟩, rest, rfl⟩ : ∃ e rest, after = e :: rest := by
      cases after with
      | nil => simp at paths
      | cons e rest => exact ⟨e, rest, rfl⟩
    obtain ⟨rfl, pathsRest⟩ : p = path ∧ rest.map Prod.fst = work.map Prod.fst := by
      simpa using paths
    have now := quiet (p, sample) (mem_cons_self ..)
    have later : ∀ w ∈ work, Quiet m.config w.2 := fun w member => quiet w (mem_cons_of_mem _ member)
    have normalNext : ∀ e ∈ before ++ [(p, PathState.normal)], e.2 = .normal := by
      intro e member
      rcases mem_append.mp member with old | new
      · exact normal e old
      · rw [mem_singleton.mp new]
    have found : stateOf P m.states p = some state := by
      rw [split]
      exact stateOf_next normal (split ▸ leading)
    rw [pollPaths]
    cases state with
    | normal =>
      rw [pollPath_normal now found, ih _ (by simp [split]) normalNext leading pathsRest later]
      simp
    | readOnly =>
      obtain ⟨usage, polled⟩ := pollPath_readOnly codec now found
      have states : setState P p .normal m.states = before ++ [(p, .normal)] ++ rest := by
        have others : ∀ e ∈ before, P.same e.1 p = false := by
          intro e earlier
          rw [split, Leading, pairwise_append] at leading
          exact leading.2.2 e earlier (p, .readOnly) (mem_cons_self ..) rfl
        rw [split, setState_next others]
        simp
      have rest := ih (m := { m with
        states := setState P p .normal m.states
        guard := m.guard.removeReason codec
          (.diskFull m.config.nodeId (P.toStringLossy p) usage) sample.updatedAt })
        _ states normalNext (leading.setState found .normal) pathsRest later
      rw [polled, rest]
      simp only [ClusterGuard.removeReason, ClusterGuard.replicate,
        ClusterReadOnlyState.mem_removeReason, ReadOnlyReason.sameSource_diskFull, mem_cons,
        Prod.mk.injEq, and_true, forall_eq_or_imp, and_assoc]

def ObservesRecovery (m : QnDiskMonitor π) : Action π → Prop
  | .poll samples => ∀ x ∈ samples, ∃ usage, x.usage = some usage ∧
      usage.le m.config.diskRecoveryThreshold = true
  | _ => False

def BelowFull (m : QnDiskMonitor π) : Action π → Prop
  | .poll samples => ∀ x ∈ samples, ∀ usage, x.usage = some usage →
      usage.gt m.config.diskFullThreshold = false
  | _ => True

variable (P)

def Recorded (m : QnDiskMonitor π) : Prop :=
  ∀ path usage, .diskFull m.config.nodeId path usage ∈ m.guard.state.reasons →
    ∃ p, (p, .readOnly) ∈ m.states ∧ P.toStringLossy p = path

def Ended (percent : F64 → String) (m : QnDiskMonitor π) : Prop :=
  (∀ r ∈ m.guard.state.reasons, r.ofNode m.config.nodeId = false) ∧
    ∀ e, checkWriteAllowed percent m.guard.state = .error e →
      e.reasons ≠ [] ∧ ∀ r ∈ e.reasons, r.ofNode m.config.nodeId = false

variable {P}

theorem ended_iff (percent : F64 → String) (kept : Kept P codec m) :
    Ended percent m ↔ ∀ r ∈ m.guard.state.reasons, r.ofNode m.config.nodeId = false := by
  refine ⟨And.left, fun others => ⟨others, ?_⟩⟩
  intro e refused
  have consistent := kept.sound.consistent
  unfold ClusterReadOnlyState.Consistent at consistent
  unfold checkWriteAllowed at refused
  split at refused
  · rename_i enabled
    cases refused
    refine ⟨?_, others⟩
    rintro none
    rw [show m.guard.state.reasons = [] from none] at consistent
    simp [consistent] at enabled
  · cases refused

theorem ended_iff_recorded (percent : F64 → String) {t : QnDiskMonitor π} {a : Action π}
    (kept : Kept P codec m) (observes : ObservesRecovery m a) (below : BelowFull m a)
    (stepped : step P codec m a = some t) : Ended percent t ↔ Recorded P m := by
  rw [ended_iff percent (kept_step m a t kept stepped)]
  cases a with
  | poll samples =>
    simp only [step] at stepped
    split at stepped
    · rename_i complete
      cases stepped
      have quiet : ∀ w ∈ m.config.watchPaths.zip samples, Quiet m.config w.2 := by
        intro w member
        have sampled := (of_mem_zip (a := w.1) (b := w.2) member).2
        obtain ⟨usage, measured, recovered⟩ := observes w.2 sampled
        exact ⟨usage, measured, recovered, below w.2 sampled usage measured⟩
      have paths : m.states.map Prod.fst = (m.config.watchPaths.zip samples).map Prod.fst := by
        rw [kept.paths, map_fst_zip (Nat.le_of_eq complete.symm)]
      have left := mem_reasons_pollPaths codec [] rfl (by simp) kept.leading
        paths quiet
      have node : (pollOnce P codec m samples).config.nodeId = m.config.nodeId := by
        rw [pollOnce, pollPaths_config]
      rw [node]
      constructor
      · intro gone path usage member
        by_contra unknown
        push Not at unknown
        have stays := (left (.diskFull m.config.nodeId path usage)).mpr ⟨member, fun p readOnly => by
          simp [ReadOnlyReason.isAt, (unknown p readOnly).symm]⟩
        simpa [ReadOnlyReason.ofNode] using gone _ stays
      · intro recorded r member
        obtain ⟨before, elsewhere⟩ := (left r).mp member
        cases r with
        | manualOverride admin comment => rfl
        | diskFull nodeId path usage =>
          by_contra same
          obtain rfl : nodeId = m.config.nodeId := by simpa [ReadOnlyReason.ofNode] using same
          obtain ⟨p, readOnly, rfl⟩ := recorded path usage before
          simpa [ReadOnlyReason.isAt] using elsewhere p readOnly
    · cases stepped
  | restart config interrupted => cases observes
  | setManual admin comment enteredAt updatedAt => cases observes
  | clearManual admin force updatedAt => cases observes

variable (P codec)

/-- For any polls, restarts and manual changes. -/
theorem diskFull_ends_of_recorded (percent : F64 → String) (config : QnDiskMonitorConfig π)
    (raft : MetaStateMachine) (fresh : raft.get readOnlyStateKey = none) (acts : List (Action π))
    (steps : Run.EveryStep (step P codec)
      (fun m a => ObservesRecovery m a → BelowFull m a ∧ Recorded P m) (started codec config raft) acts) :
    Run.EveryStep (step P codec)
      (fun m a => ObservesRecovery m a → ∀ t, step P codec m a = some t → Ended percent t)
      (started codec config raft) acts := by
  have start : Kept P codec (started codec config raft) := by
    refine kept_started config ?_
    intro json found
    rw [fresh] at found
    cases found
  refine steps.imp_of_inv kept_step ?_ acts _ start
  intro m a kept known observes t stepped
  obtain ⟨below, recorded⟩ := known observes
  exact (ended_iff_recorded percent kept observes below stepped).mpr recorded

def share (percent : Nat) : Sample := ⟨some (.div (.ofNat percent) (.ofNat 100)), 0, 0⟩

theorem share_usage (percent : Nat) :
    (share percent).usage = some (.div (.ofNat percent) (.ofNat 100)) := rfl

def booted : QnDiskMonitor String := started jsonGuard .default .default

def filled : QnDiskMonitor String := pollOnce textPath jsonGuard booted [share 97, share 50]

def walFull : ReadOnlyReason := .diskFull "qn-1" "/data/raft/wal" (.div (.ofNat 97) (.ofNat 100))

theorem share_thresholds :
    (F64.div (.ofNat 97) (.ofNat 100)).gt (QnDiskMonitorConfig.default).diskFullThreshold = true ∧
    (F64.div (.ofNat 50) (.ofNat 100)).gt (QnDiskMonitorConfig.default).diskFullThreshold = false ∧
    (F64.div (.ofNat 97) (.ofNat 100)).le (QnDiskMonitorConfig.default).diskRecoveryThreshold = false ∧
    (F64.div (.ofNat 50) (.ofNat 100)).le (QnDiskMonitorConfig.default).diskRecoveryThreshold = true := by
  decide +kernel

theorem quiet_share : Quiet QnDiskMonitorConfig.default (share 50) :=
  ⟨_, share_usage 50, share_thresholds.2.2.2, share_thresholds.2.1⟩

theorem default_watchPaths :
    QnDiskMonitorConfig.default.watchPaths = ["/data/raft/wal", "/data/raft/snapshots"] := rfl

theorem filled_eq : filled = ⟨.default, (ClusterGuard.new .default).addReason jsonGuard walFull 0 0,
    [("/data/raft/wal", .readOnly), ("/data/raft/snapshots", .normal)]⟩ := by
  obtain ⟨full, notFull, -, -⟩ := share_thresholds
  have apart : textPath.same "/data/raft/wal" "/data/raft/snapshots" = false := by decide
  have node : QnDiskMonitorConfig.default.nodeId = "qn-1" := rfl
  have text : textPath.toStringLossy "/data/raft/wal" = "/data/raft/wal" := rfl
  have start : booted = ⟨.default, .new .default,
      [("/data/raft/wal", .normal), ("/data/raft/snapshots", .normal)]⟩ := rfl
  simp [filled, start, pollOnce, pollPaths, pollPath, default_watchPaths, node, share, full,
    notFull, stateOf,
    setState, apart, text, textPath.same_refl, walFull]

theorem diskFull_ends_without_restart : ∃ t, Run.exec (step textPath jsonGuard) booted
    [.poll [share 97, share 50], .poll [share 50, share 50]] = some t ∧ Ended (fun _ => "") t := by
  have steps : Run.EveryStep (step textPath jsonGuard)
      (fun m a => ObservesRecovery m a → BelowFull m a ∧ Recorded textPath m) booted
      [.poll [share 97, share 50], .poll [share 50, share 50]] := by
    intro t first
    obtain rfl : filled = t := Option.some.inj first
    refine ⟨fun observes => ?_, fun t second => ⟨fun observes => ⟨?_, ?_⟩, trivial⟩⟩
    · obtain ⟨usage, measured, recovered⟩ := observes (share 97) (by simp)
      rw [share_usage, Option.some.injEq] at measured
      rw [← measured, show booted.config = .default from rfl, share_thresholds.2.2.1] at recovered
      cases recovered
    · intro x member usage measured
      obtain rfl : x = share 50 := by simpa using member
      rw [share_usage, Option.some.injEq] at measured
      rw [← measured, filled_eq]
      exact share_thresholds.2.1
    · rw [filled_eq]
      intro path usage member
      obtain ⟨-, rfl, -⟩ : _ ∧ path = "/data/raft/wal" ∧ _ := by
        simpa [ClusterGuard.addReason, ClusterGuard.replicate, ClusterGuard.new, walFull,
          ClusterReadOnlyState.addReason, ClusterReadOnlyState.default] using member
      exact ⟨"/data/raft/wal", by simp, rfl⟩
  have ends := diskFull_ends_of_recorded textPath jsonGuard (fun _ => "") .default .default rfl _ steps
  obtain ⟨-, second⟩ := ends filled rfl
  refine ⟨pollOnce textPath jsonGuard filled [share 50, share 50], ?_, ?_⟩
  · rw [Run.exec, show step textPath jsonGuard booted (.poll [share 97, share 50]) = some filled from rfl]
    simp [Run.exec, step, filled_eq, default_watchPaths]
  · have stepped : step textPath jsonGuard filled (.poll [share 50, share 50]) =
        some (pollOnce textPath jsonGuard filled [share 50, share 50]) := by
      simp [step, filled_eq, default_watchPaths]
    refine (second _ stepped).1 ?_ _ stepped
    intro x member
    obtain rfl : x = share 50 := by simpa using member
    rw [filled_eq]
    exact ⟨_, share_usage 50, share_thresholds.2.2.2⟩

def restarted : QnDiskMonitor String := ⟨.default, filled.guard,
  [("/data/raft/wal", .normal), ("/data/raft/snapshots", .normal)]⟩

theorem filled_reasons : filled.guard.state.reasons = [walFull] := by
  rw [filled_eq]
  rfl

theorem loadFromRaft_replicate (g : ClusterGuard) {state : ClusterReadOnlyState}
    (finite : state.reasons.all (·.finite) = true) :
    (ClusterGuard.new (g.replicate jsonGuard state).raft).loadFromRaft jsonGuard =
      g.replicate jsonGuard state := by
  have again : jsonGuard.fromJson (jsonGuard.toJson state) = some state := by
    simp only [jsonGuard]
    rw [GuardJson.fromJson_toJson, if_pos finite]
  simp only [ClusterGuard.loadFromRaft, ClusterGuard.new, ClusterGuard.get_replicate,
    Option.bind_some, again]
  rfl

theorem step_restart : step textPath jsonGuard filled (.restart .default []) = some restarted := by
  have number : walFull.finite = true := by decide +kernel
  have finite : ((ClusterGuard.new .default).state.addReason walFull 0 0).reasons.all
      (·.finite) = true := by
    simp [ClusterGuard.new, ClusterReadOnlyState.default, ClusterReadOnlyState.addReason, number]
  have loaded : (ClusterGuard.new filled.guard.raft).loadFromRaft jsonGuard = filled.guard := by
    rw [filled_eq]
    exact loadFromRaft_replicate (.new .default) finite
  rw [step, pollOnce, zip_nil_right, pollPaths, started, loaded]
  rfl

theorem pollOnce_restarted : pollOnce textPath jsonGuard restarted [share 50, share 50] = restarted := by
  have first : stateOf textPath restarted.states "/data/raft/wal" = some .normal := by decide
  have second : stateOf textPath restarted.states "/data/raft/snapshots" = some .normal := by decide
  have config : restarted.config = .default := rfl
  have quiet : Quiet restarted.config (share 50) := config ▸ quiet_share
  simp only [pollOnce, config, default_watchPaths, zip_cons_cons, zip_nil_right, pollPaths,
    pollPath_normal quiet first, pollPath_normal quiet second]

theorem restored_reason_stays : ∃ t, Run.exec (step textPath jsonGuard) booted
    [.poll [share 97, share 50], .restart .default [], .poll [share 50, share 50]] = some t ∧
      walFull ∈ t.guard.state.reasons ∧ walFull.ofNode t.config.nodeId = true ∧
      t.guard.state.enabled = true := by
  have fill : step textPath jsonGuard booted (.poll [share 97, share 50]) = some filled := rfl
  have recover : step textPath jsonGuard restarted (.poll [share 50, share 50]) = some restarted := by
    rw [step, pollOnce_restarted]
    rfl
  refine ⟨restarted, by simp [Run.exec, fill, step_restart, recover], ?_, rfl, ?_⟩
  · rw [restarted, filled_reasons]
    exact mem_singleton_self _
  · rw [restarted, filled_eq]
    rfl

end QnDiskMonitor
end WowDb.Query
