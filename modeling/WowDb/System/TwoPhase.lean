import WowDb.Lib.AtomicCommit
import WowDb.Query.Transaction
import WowDb.Storage.Transaction

/-!
# Two-phase commit between the query node and the storage nodes

One coordinator and a storage node under every name, each with its own clock.
-/
namespace WowDb.System.TwoPhase
open WowDb.Lib WowDb.Query WowDb.Storage

local instance lawfulBEq {κ : Type} [LinearOrder κ] : LawfulBEq κ := inferInstance

section Protocol

variable {τ : Type} [LinearOrder τ] [ToString τ]

inductive Message (τ : Type) where
  | prepare (nodeId : String) (txId : τ) (lsn : UInt64)
  | prepareAck (nodeId : String) (txId : τ)
  | commit (nodeId : String) (txId : τ)
  | rollback (nodeId : String) (txId : τ)
  deriving DecidableEq

structure Node (τ : Type) [LinearOrder τ] where
  manager : SnTransactionManager τ
  clock : Nat
  seen : List (τ × SnTxState)

structure Cluster (τ : Type) [LinearOrder τ] where
  coordinator : TransactionManager τ
  clock : Nat
  nodes : String → Node τ
  messages : List (Message τ)
  issued : List τ
  decided : List τ

inductive Action (τ : Type) where
  | begin (txId : τ) (cubeName : String)
  | registerParticipant (txId : τ) (nodeId endpoint : String)
  | firstRows (nodeId : String) (txId : τ)
  | addTablet (nodeId : String) (txId : τ) (tabletId : String)
  | sendPrepare (nodeId : String) (txId : τ) (lsn : UInt64)
  | deliver (message : Message τ)
  | prepareCommit (txId : τ)
  | markCommitted (txId : τ)
  | rollback (txId : τ)
  | cleanup
  | cleanupNode (nodeId : String)
  | tick (elapsed : Nat)
  | tickNode (nodeId : String) (elapsed : Nat)

def Node.call (n : Node τ) (txId : τ) (m : SnTransactionManager τ) : Node τ :=
  match m.getState txId with
  | none => { n with manager := m }
  | some state => { n with manager := m, seen := n.seen ++ [(txId, state)] }

def Node.cleanup (n : Node τ) : Node τ :=
  let (manager, aborted) := n.manager.cleanupTimedOut n.clock
  { n with manager, seen := n.seen ++ aborted.map fun txId => (txId, .rolledBack) }

variable (s : Cluster τ)

def Cluster.setNode (nodeId : String) (n : Node τ) : Cluster τ :=
  { s with nodes := Function.update s.nodes nodeId n }

def receive : Message τ → Cluster τ
  | .prepare nodeId txId lsn =>
    let n := s.nodes nodeId
    let (manager, result) := n.manager.prepare n.clock txId lsn
    let s := s.setNode nodeId (n.call txId manager)
    match result with
    | .ok _ => { s with messages := s.messages ++ [.prepareAck nodeId txId] }
    | .error _ => s
  | .prepareAck nodeId txId =>
    { s with coordinator := (s.coordinator.receivePrepareAck txId nodeId).1 }
  | .commit nodeId txId =>
    let n := s.nodes nodeId
    s.setNode nodeId (n.call txId (n.manager.commit txId).1)
  | .rollback nodeId txId =>
    let n := s.nodes nodeId
    s.setNode nodeId (n.call txId (n.manager.rollback txId).1)

def step : Action τ → Option (Cluster τ)
  | .begin txId cubeName =>
    if txId ∈ s.issued then none
    else some { s with
      coordinator := s.coordinator.begin s.clock txId cubeName, issued := txId :: s.issued }
  | .registerParticipant txId nodeId endpoint =>
    some { s with coordinator := (s.coordinator.registerParticipant txId nodeId endpoint).1 }
  | .firstRows nodeId txId =>
    let n := s.nodes nodeId
    some (s.setNode nodeId (n.call txId (n.manager.register n.clock txId)))
  | .addTablet nodeId txId tabletId =>
    let n := s.nodes nodeId
    some (s.setNode nodeId (n.call txId (n.manager.addTablet txId tabletId).1))
  | .sendPrepare nodeId txId lsn =>
    some { s with messages := s.messages ++ [.prepare nodeId txId lsn] }
  | .deliver message => if message ∈ s.messages then some (receive s message) else none
  | .prepareCommit txId =>
    let (coordinator, result) := s.coordinator.prepareCommit s.clock txId
    match result with
    | .ok participants => some { s with
        coordinator
        messages := s.messages ++ participants.map fun p => .commit p.nodeId txId
        decided := txId :: s.decided }
    | .error _ => some { s with coordinator }
  | .markCommitted txId => some { s with coordinator := (s.coordinator.markCommitted txId).1 }
  | .rollback txId =>
    let (coordinator, result) := s.coordinator.rollback txId
    match result with
    | .ok participants => some { s with
        coordinator, messages := s.messages ++ participants.map fun p => .rollback p.nodeId txId }
    | .error _ => some { s with coordinator }
  | .cleanup => some { s with coordinator := (s.coordinator.cleanupTimedOut s.clock).1 }
  | .cleanupNode nodeId => some (s.setNode nodeId (s.nodes nodeId).cleanup)
  | .tick elapsed => some { s with clock := s.clock + elapsed }
  | .tickNode nodeId elapsed =>
    let n := s.nodes nodeId
    some (s.setNode nodeId { n with clock := n.clock + elapsed })

def start (timeout : Nat) (nodeTimeout : String → Nat) : Cluster τ :=
  ⟨.withTimeout timeout, 0, fun nodeId => ⟨.withTimeout (nodeTimeout nodeId), 0, []⟩, [], [], []⟩

def Atomic : Prop :=
  ∀ (txId : τ) (a b : String), (txId, .committed) ∈ (s.nodes a).seen →
    (txId, .rolledBack) ∉ (s.nodes b).seen

end Protocol

open WowDb.Lib.AtomicCommit

variable {τ : Type} [LinearOrder τ]

def phaseOf : SnTxState → Phase
  | .active => .working
  | .prepared => .ready
  | .committed => .committed
  | .rolledBack => .aborted

def Node.phase (n : Node τ) (txId : τ) : Phase :=
  if (txId, SnTxState.committed) ∈ n.seen then .committed
  else if (txId, SnTxState.rolledBack) ∈ n.seen then .aborted
  else ((n.manager.getState txId).map phaseOf).getD .idle

structure Node.Sound (n : Node τ) : Prop where
  keyed : ∀ k tx, n.manager.transactions.get? k = some tx → tx.txId = k
  noted : ∀ k tx, n.manager.transactions.get? k = some tx → (k, tx.state) ∈ n.seen
  running : ∀ k tx, n.manager.transactions.get? k = some tx → tx.state.isOpen = true →
    (k, SnTxState.committed) ∉ n.seen ∧ (k, SnTxState.rolledBack) ∉ n.seen
  ended : ∀ k, (k, SnTxState.committed) ∈ n.seen → (k, SnTxState.rolledBack) ∉ n.seen

variable {n : Node τ} {k : τ} {tx : SnTransaction τ}

theorem Node.Sound.phase_of_record (sound : n.Sound)
    (found : n.manager.transactions.get? k = some tx) : n.phase k = phaseOf tx.state := by
  have noted := sound.noted k tx found
  have running := sound.running k tx found
  have ended := sound.ended k
  unfold Node.phase
  cases state : tx.state with
  | active =>
    obtain ⟨notCommitted, notRolledBack⟩ := running (by rw [state]; rfl)
    simp [notCommitted, notRolledBack, SnTransactionManager.getState, found, state]
  | prepared =>
    obtain ⟨notCommitted, notRolledBack⟩ := running (by rw [state]; rfl)
    simp [notCommitted, notRolledBack, SnTransactionManager.getState, found, state]
  | committed =>
    rw [state] at noted
    simp [noted, phaseOf]
  | rolledBack =>
    rw [state] at noted
    have notCommitted : (k, SnTxState.committed) ∉ n.seen := fun both => ended both noted
    simp [noted, notCommitted, phaseOf]

theorem Node.phase_congr {n' : Node τ} (record : n'.manager.getState k = n.manager.getState k)
    (seen : ∀ state, (k, state) ∈ n'.seen ↔ (k, state) ∈ n.seen) : n'.phase k = n.phase k := by
  simp only [Node.phase, record, seen]

structure Node.Follows (decision : τ → Option Decision) (n n' : Node τ) : Prop where
  sound : n'.Sound
  moved : ∀ k, n'.phase k = n.phase k ∨ Move (decision k) (n.phase k) (n'.phase k)

theorem not_ended_of_move {decision : Option Decision} {p q : Phase} (move : Move decision p q) :
    p ≠ .committed ∧ p ≠ .aborted := by
  cases move with
  | rollback _ started => rcases started with rfl | rfl <;> exact ⟨nofun, nofun⟩
  | _ => exact ⟨nofun, nofun⟩

theorem Node.not_seen_of_phase (running : n.phase k ≠ .committed ∧ n.phase k ≠ .aborted) :
    (k, SnTxState.committed) ∉ n.seen ∧ (k, SnTxState.rolledBack) ∉ n.seen := by
  obtain ⟨notCommitted, notAborted⟩ := running
  have first : (k, SnTxState.committed) ∉ n.seen := by
    intro seen
    exact notCommitted (by simp [Node.phase, seen])
  refine ⟨first, ?_⟩
  intro seen
  exact notAborted (by simp [Node.phase, first, seen])

theorem Node.phase_eq_committed (phase : n.phase k = .committed) :
    (k, SnTxState.committed) ∈ n.seen ∨ (k, SnTxState.rolledBack) ∉ n.seen := by
  by_contra neither
  obtain ⟨notCommitted, rolledBack⟩ := not_or.mp neither
  simp [Node.phase, notCommitted, not_not.mp rolledBack] at phase

variable {txId : τ} {m : SnTransactionManager τ}

theorem Node.call_seen (found : m.transactions.get? txId = some tx) :
    n.call txId m = { n with manager := m, seen := n.seen ++ [(txId, tx.state)] } := by
  simp [Node.call, SnTransactionManager.getState, found]

theorem Node.Sound.call (sound : n.Sound) {decision : Option Decision}
    (frame : ∀ k, k ≠ txId → m.transactions.get? k = n.manager.transactions.get? k)
    (found : m.transactions.get? txId = some tx) (key : tx.txId = txId)
    (legal : phaseOf tx.state = n.phase txId ∨ Move decision (n.phase txId) (phaseOf tx.state)) :
    (n.call txId m).Sound := by
  rw [Node.call_seen found]
  constructor
  · intro k old stored
    by_cases same : k = txId
    · subst same
      rw [found] at stored
      cases stored
      exact key
    · exact sound.keyed k old (frame k same ▸ stored)
  · intro k old stored
    by_cases same : k = txId
    · subst same
      rw [found] at stored
      cases stored
      simp
    · have before := sound.noted k old (frame k same ▸ stored)
      simp [before]
  · intro k old stored isOpen
    by_cases same : k = txId
    · subst same
      rw [found] at stored
      cases stored
      have running : n.phase k ≠ .committed ∧ n.phase k ≠ .aborted := by
        rcases legal with stayed | move
        · rw [← stayed]
          revert isOpen
          cases tx.state <;> simp [phaseOf, SnTxState.isOpen]
        · exact not_ended_of_move move
      obtain ⟨notCommitted, notRolledBack⟩ := Node.not_seen_of_phase running
      revert isOpen
      cases tx.state <;> simp [notCommitted, notRolledBack, SnTxState.isOpen]
    · have before := sound.running k old (frame k same ▸ stored) isOpen
      simp [before, same]
  · intro k committed rolledBack
    simp only [List.mem_append, List.mem_singleton, Prod.mk.injEq] at committed rolledBack
    rcases committed with before | ⟨rfl, now⟩
    · rcases rolledBack with earlier | ⟨rfl, now⟩
      · exact sound.ended k before earlier
      · -- a committed transaction stays committed
        rw [← now] at legal
        have phase : n.phase k = .committed := by simp [Node.phase, before]
        rcases legal with stayed | move
        · rw [phase] at stayed
          cases stayed
        · exact (not_ended_of_move move).1 phase
    · rcases rolledBack with before | ⟨-, other⟩
      · rw [← now] at legal
        rcases legal with stayed | move
        · rcases Node.phase_eq_committed stayed.symm with both | never
          · exact sound.ended k both before
          · exact never before
        · exact (Node.not_seen_of_phase (not_ended_of_move move)).2 before
      · rw [← now] at other
        cases other

theorem Node.phase_call_other
    (frame : ∀ k, k ≠ txId → m.transactions.get? k = n.manager.transactions.get? k)
    (different : k ≠ txId) : (n.call txId m).phase k = n.phase k := by
  unfold Node.call
  split
  · refine Node.phase_congr ?_ fun state => Iff.rfl
    simp only [SnTransactionManager.getState, frame k different]
  · refine Node.phase_congr ?_ fun state => ?_
    · simp only [SnTransactionManager.getState, frame k different]
    · simp [different]

variable {decision : τ → Option Decision}

theorem Node.call_follows (sound : n.Sound)
    (frame : ∀ k, k ≠ txId → m.transactions.get? k = n.manager.transactions.get? k)
    (found : m.transactions.get? txId = some tx) (key : tx.txId = txId)
    (legal : phaseOf tx.state = n.phase txId ∨ Move (decision txId) (n.phase txId) (phaseOf tx.state)) :
    Node.Follows decision n (n.call txId m) := by
  have after := sound.call frame found key legal
  refine ⟨after, fun k => ?_⟩
  by_cases same : k = txId
  · subst same
    have stored : (n.call k m).manager.transactions.get? k = some tx := by
      rw [Node.call_seen found]
      exact found
    rw [after.phase_of_record stored]
    exact legal
  · exact Or.inl (Node.phase_call_other frame same)

theorem Node.same_follows (n' : Node τ) (sound : n.Sound) (decision : τ → Option Decision)
    (records : ∀ k, n'.manager.transactions.get? k = n.manager.transactions.get? k)
    (seen : n'.seen = n.seen) : Node.Follows decision n n' ∧ ∀ k, n'.phase k = n.phase k := by
  have phases : ∀ k, n'.phase k = n.phase k := by
    intro k
    refine Node.phase_congr ?_ ?_
    · simp only [SnTransactionManager.getState, records]
    · intro state
      rw [seen]
  refine ⟨⟨?_, fun k => Or.inl (phases k)⟩, phases⟩
  constructor
  · intro k tx stored
    exact sound.keyed k tx (records k ▸ stored)
  · intro k tx stored
    rw [seen]
    exact sound.noted k tx (records k ▸ stored)
  · intro k tx stored
    rw [seen]
    exact sound.running k tx (records k ▸ stored)
  · rw [seen]
    exact sound.ended

theorem phaseOf_ne_idle (state : SnTxState) : phaseOf state ≠ .idle := by
  cases state <;> exact nofun

theorem Node.onTx_follows [ToString τ] (sound : n.Sound) {α : Type}
    {f : SnTransaction τ → SnTransaction τ × Except String α}
    (keyed : ∀ tx, (f tx).1.txId = tx.txId)
    (legal : ∀ tx, (f tx).1.state = tx.state ∨ Move (decision txId) (phaseOf tx.state)
      (phaseOf (f tx).1.state)) :
    Node.Follows decision n (n.call txId (n.manager.onTx txId f).1) ∧
      ∀ k, n.phase k = .idle → (n.call txId (n.manager.onTx txId f).1).phase k = .idle := by
  have records := fun k => SnTransactionManager.get?_onTx n.manager txId k f
  cases found : n.manager.transactions.get? txId with
  | none =>
    have same : ∀ k, (n.manager.onTx txId f).1.transactions.get? k =
        n.manager.transactions.get? k := by
      intro k
      rw [records]
      by_cases equal : k = txId
      · simp [equal, found]
      · simp [equal]
    have unseen : n.call txId (n.manager.onTx txId f).1 =
        { n with manager := (n.manager.onTx txId f).1 } := by
      simp [Node.call, SnTransactionManager.getState, same, found]
    rw [unseen]
    obtain ⟨follows, phases⟩ := Node.same_follows
      { n with manager := (n.manager.onTx txId f).1 } sound decision same rfl
    exact ⟨follows, fun k idle => (phases k).trans idle⟩
  | some tx =>
    have before := sound.phase_of_record found
    have stored : (n.manager.onTx txId f).1.transactions.get? txId = some (f tx).1 := by
      simp [records, found]
    have frame : ∀ k, k ≠ txId → (n.manager.onTx txId f).1.transactions.get? k =
        n.manager.transactions.get? k := by
      intro k different
      simp [records, different]
    have key : (f tx).1.txId = txId := (keyed tx).trans (sound.keyed txId tx found)
    have allowed : phaseOf (f tx).1.state = n.phase txId ∨
        Move (decision txId) (n.phase txId) (phaseOf (f tx).1.state) := by
      rw [before]
      rcases legal tx with stayed | move
      · exact Or.inl (congrArg phaseOf stayed)
      · exact Or.inr move
    have follows := Node.call_follows sound frame stored key allowed
    refine ⟨follows, fun k idle => ?_⟩
    by_cases same : k = txId
    · subst same
      rw [before] at idle
      exact absurd idle (phaseOf_ne_idle tx.state)
    · exact (Node.phase_call_other frame same).trans idle

theorem Node.phase_call [ToString τ] {α : Type}
    {f : SnTransaction τ → SnTransaction τ × Except String α}
    (found : n.manager.transactions.get? txId = some tx)
    (sound : (n.call txId (n.manager.onTx txId f).1).Sound) :
    (n.call txId (n.manager.onTx txId f).1).phase txId = phaseOf (f tx).1.state := by
  apply sound.phase_of_record
  have stored : (n.manager.onTx txId f).1.transactions.get? txId = some (f tx).1 := by
    simp [SnTransactionManager.get?_onTx, found]
  rw [Node.call_seen stored]
  exact stored

theorem Node.register_follows (sound : n.Sound) (txId : τ) (now : Nat)
    (decision : τ → Option Decision)
    (allowed : (n.manager.transactions.get? txId).isSome = true ∨ n.phase txId = .idle ∧
      decision txId ≠ some .commit) :
    Node.Follows decision n (n.call txId (n.manager.register now txId)) ∧
      ∀ k, k ≠ txId → (n.call txId (n.manager.register now txId)).phase k = n.phase k := by
  have records := SnTransactionManager.get?_register n.manager now txId
  have frame : ∀ k, k ≠ txId → (n.manager.register now txId).transactions.get? k =
      n.manager.transactions.get? k := by
    intro k different
    simp [records, different]
  refine ⟨?_, fun k different => Node.phase_call_other frame different⟩
  have stored := records txId
  rw [if_pos rfl] at stored
  cases found : n.manager.transactions.get? txId with
  | none =>
    rw [found] at stored allowed
    obtain ⟨idle, undecided⟩ := allowed.resolve_left (by simp)
    refine Node.call_follows sound frame stored rfl (Or.inr ?_)
    rw [idle]
    exact Move.join undecided
  | some tx =>
    rw [found] at stored
    refine Node.call_follows sound frame stored (sound.keyed txId tx found) (Or.inl ?_)
    exact (sound.phase_of_record found).symm

theorem Node.mem_cleanup_seen (sound : n.Sound) (k : τ) (state : SnTxState) :
    (k, state) ∈ n.cleanup.seen ↔ (k, state) ∈ n.seen ∨ state = .rolledBack ∧
      ∃ tx, n.manager.transactions.get? k = some tx ∧ n.manager.expires n.clock tx = true := by
  simp only [Node.cleanup, SnTransactionManager.cleanupTimedOut, List.mem_append, List.mem_map,
    List.mem_filter, Prod.mk.injEq]
  refine or_congr Iff.rfl ?_
  constructor
  · rintro ⟨-, ⟨⟨key, tx⟩, ⟨member, late⟩, rfl⟩, rfl, rfl⟩
    have found := (OrdMap.mem_entries_iff _ _ _).mp member
    rw [sound.keyed key tx found]
    exact ⟨rfl, tx, found, late⟩
  · rintro ⟨rfl, tx, found, late⟩
    refine ⟨k, ⟨(k, tx), ⟨(OrdMap.mem_entries_iff _ _ _).mpr found, late⟩, ?_⟩, rfl, rfl⟩
    exact sound.keyed k tx found

theorem Node.get?_cleanup (stored : n.cleanup.manager.transactions.get? k = some tx) :
    n.manager.transactions.get? k = some tx ∧ tx.state.isOpen = true ∧
      n.manager.timedOut n.clock tx = false := by
  have records := SnTransactionManager.get?_cleanupTimedOut n.manager n.clock k
  rw [show n.cleanup.manager = (n.manager.cleanupTimedOut n.clock).1 from rfl, records] at stored
  simpa [Option.filter_eq_some_iff] using stored

theorem Node.Sound.cleanup (sound : n.Sound) : n.cleanup.Sound := by
  constructor
  · intro k tx stored
    exact sound.keyed k tx (Node.get?_cleanup stored).1
  · intro k tx stored
    exact (Node.mem_cleanup_seen sound k _).mpr (Or.inl (sound.noted k tx (Node.get?_cleanup stored).1))
  · intro k tx stored isOpen
    obtain ⟨found, -, inTime⟩ := Node.get?_cleanup stored
    obtain ⟨notCommitted, notRolledBack⟩ := sound.running k tx found isOpen
    rw [Node.mem_cleanup_seen sound, Node.mem_cleanup_seen sound]
    refine ⟨by simp [notCommitted], ?_⟩
    rintro (before | ⟨-, other, same, late⟩)
    · exact notRolledBack before
    · rw [found] at same
      cases same
      simp [SnTransactionManager.expires, inTime] at late
  · intro k committed rolledBack
    rw [Node.mem_cleanup_seen sound] at committed rolledBack
    have before := committed.resolve_right (by simp)
    rcases rolledBack with earlier | ⟨-, tx, found, late⟩
    · exact sound.ended k before earlier
    · simp only [SnTransactionManager.expires, Bool.and_eq_true] at late
      exact (sound.running k tx found late.1).1 before

theorem Node.phase_cleanup (sound : n.Sound)
    (inTime : ∀ tx, n.manager.transactions.get? k = some tx → n.manager.expires n.clock tx = false) :
    n.cleanup.phase k = n.phase k := by
  have records := SnTransactionManager.get?_cleanupTimedOut n.manager n.clock k
  have seen : ∀ state, (k, state) ∈ n.cleanup.seen ↔ (k, state) ∈ n.seen := by
    intro state
    rw [Node.mem_cleanup_seen sound]
    refine or_iff_left ?_
    rintro ⟨-, tx, found, late⟩
    rw [inTime tx found] at late
    cases late
  cases found : n.manager.transactions.get? k with
  | none =>
    refine Node.phase_congr ?_ seen
    simp [SnTransactionManager.getState, Node.cleanup, records, found]
  | some tx =>
    have notLate := inTime tx found
    have noted := sound.noted k tx found
    rw [sound.phase_of_record found]
    cases isOpen : tx.state.isOpen with
    | true =>
      refine sound.cleanup.phase_of_record ?_
      simp only [SnTransactionManager.expires, isOpen, Bool.true_and] at notLate
      simp [Node.cleanup, records, found, isOpen, notLate]
    | false =>
      -- the record is gone and its end is in the notes
      have once := sound.ended k
      simp only [Node.phase, seen]
      cases state : tx.state with
      | active => simp [state, SnTxState.isOpen] at isOpen
      | prepared => simp [state, SnTxState.isOpen] at isOpen
      | committed =>
        rw [state] at noted
        simp [noted, phaseOf]
      | rolledBack =>
        rw [state] at noted
        have notCommitted : (k, SnTxState.committed) ∉ n.seen := fun both => once both noted
        simp [noted, notCommitted, phaseOf]

theorem Node.cleanup_follows (sound : n.Sound) (decision : τ → Option Decision)
    (allowed : ∀ k tx, n.manager.transactions.get? k = some tx → tx.state = .prepared →
      n.manager.timedOut n.clock tx = true → decision k = some .abort) :
    Node.Follows decision n n.cleanup ∧ ∀ k, n.phase k = .idle → n.cleanup.phase k = .idle := by
  refine ⟨⟨sound.cleanup, fun k => ?_⟩, fun k idle => ?_⟩
  · by_cases expired : ∃ tx, n.manager.transactions.get? k = some tx ∧
        n.manager.expires n.clock tx = true
    · obtain ⟨tx, found, late⟩ := expired
      have rolledBack := (Node.mem_cleanup_seen sound k .rolledBack).mpr
        (Or.inr ⟨rfl, tx, found, late⟩)
      have notCommitted : (k, SnTxState.committed) ∉ n.cleanup.seen := fun both =>
        sound.cleanup.ended k both rolledBack
      have after : n.cleanup.phase k = .aborted := by simp [Node.phase, rolledBack, notCommitted]
      simp only [SnTransactionManager.expires, Bool.and_eq_true] at late
      rw [after, sound.phase_of_record found]
      refine Or.inr ?_
      cases state : tx.state with
      | active => exact Move.giveUp
      | prepared => exact Move.rollback (allowed k tx found state late.2) (Or.inr rfl)
      | committed => simp [state, SnTxState.isOpen] at late
      | rolledBack => simp [state, SnTxState.isOpen] at late
    · refine Or.inl (Node.phase_cleanup sound fun tx found => ?_)
      exact Bool.eq_false_iff.mpr fun late => expired ⟨tx, found, late⟩
  · rw [← idle]
    refine Node.phase_cleanup sound fun tx found => ?_
    rw [sound.phase_of_record found] at idle
    exact absurd idle (phaseOf_ne_idle tx.state)

end WowDb.System.TwoPhase
