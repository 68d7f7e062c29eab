import WowDb.System.TwoPhase

/-!
# When two-phase commit is atomic

Every orderly step keeps the invariant, so every orderly run is atomic.
-/
namespace WowDb.System.TwoPhase
open WowDb.Lib WowDb.Lib.AtomicCommit WowDb.Query WowDb.Storage List

local instance lawfulBEqOfLinear {κ : Type} [LinearOrder κ] : LawfulBEq κ := inferInstance

section Invariant

variable {τ : Type} [LinearOrder τ]

/-- The transaction began and will not commit: it is undecided and its record is closed or gone. -/
def Closed (s : Cluster τ) (txId : τ) : Prop :=
  txId ∈ s.issued ∧ txId ∉ s.decided ∧
    ∀ t ∈ s.coordinator.transactions.get? txId, t.state.isOpen = false

instance (s : Cluster τ) (txId : τ) : Decidable (Closed s txId) := by
  unfold Closed
  infer_instance

/-- What the coordinator has decided, or can no longer decide otherwise. -/
def decision (s : Cluster τ) (txId : τ) : Option Decision :=
  if txId ∈ s.decided then some .commit
  else if Closed s txId then some .abort
  else none

/-- The transaction as a run of atomic commitment. -/
def view (s : Cluster τ) (txId : τ) : State String :=
  ⟨fun nodeId => (s.nodes nodeId).phase txId, decision s txId⟩

def Participates (s : Cluster τ) (txId : τ) (nodeId : String) : Prop :=
  ∃ t ∈ s.coordinator.transactions.get? txId, ∃ p ∈ t.participants, p.nodeId = nodeId

/-- Commits have all votes, and no node forgets a vote. -/
def Orderly (s : Cluster τ) : Action τ → Prop
  | .prepareCommit txId => ∀ t ∈ s.coordinator.transactions.get? txId,
      t.state = .active → t.isTimedOut s.clock s.coordinator.timeout = true
  | .rollback txId => txId ∉ s.decided
  | .firstRows nodeId txId =>
      ((s.nodes nodeId).manager.transactions.get? txId).isSome = true ∨
        (∀ e ∈ (s.nodes nodeId).seen, e.1 ≠ txId) ∧ Participates s txId nodeId
  | .cleanupNode nodeId => ∀ e ∈ (s.nodes nodeId).manager.transactions.entries,
      e.2.state = .prepared →
        (s.nodes nodeId).manager.timedOut (s.nodes nodeId).clock e.2 = true → Closed s e.1
  | _ => True

/-- Every message on the way and every vote of a record is backed by the phase of its node and by the
decision. -/
structure Inv (s : Cluster τ) : Prop where
  sound : ∀ a, (s.nodes a).Sound
  acked : ∀ a k, .prepareAck a k ∈ s.messages →
    (s.nodes a).phase k = .ready ∨ (s.nodes a).phase k = .committed ∨
      (s.nodes a).phase k = .aborted ∧ decision s k = some .abort
  commits : ∀ a k, .commit a k ∈ s.messages → decision s k = some .commit
  rollbacks : ∀ a k, .rollback a k ∈ s.messages → decision s k = some .abort
  votes : ∀ k t, s.coordinator.transactions.get? k = some t → ∀ p ∈ t.participants,
    p.prepared = true → .prepareAck p.nodeId k ∈ s.messages
  joined : ∀ k t, s.coordinator.transactions.get? k = some t → ∀ a,
    (s.nodes a).phase k ≠ .idle → ∃ p ∈ t.participants, p.nodeId = a
  voted : ∀ k t, s.coordinator.transactions.get? k = some t →
    t.state = .prepared ∨ k ∈ s.decided → ∀ p ∈ t.participants, p.prepared = true
  asked : ∀ k t, s.coordinator.transactions.get? k = some t → k ∈ s.decided → t.state ≠ .active
  unissued : ∀ k, k ∉ s.issued → s.coordinator.transactions.get? k = none ∧ k ∉ s.decided ∧
    ∀ a, (s.nodes a).phase k = .idle
  safe : ∀ k, Safe (view s k)

variable {s : Cluster τ} {k : τ}

theorem decision_of_decided (decided : k ∈ s.decided) :
    decision s k = some .commit := if_pos decided

theorem decision_eq_abort_iff : decision s k = some .abort ↔ Closed s k := by
  unfold decision
  constructor
  · intro aborted
    split at aborted
    · cases aborted
    · split at aborted
      · next closed => exact closed
      · cases aborted
  · intro closed
    rw [if_neg closed.2.1, if_pos closed]

theorem decision_eq_commit_iff : decision s k = some .commit ↔ k ∈ s.decided := by
  unfold decision
  constructor
  · intro committed
    split at committed
    · next decided => exact decided
    · split at committed <;> cases committed
  · intro decided
    rw [if_pos decided]

theorem Inv.atomic (inv : Inv s) : Atomic s := by
  intro txId a b committed rolledBack
  have first : (view s txId).phase a = .committed := by simp [view, Node.phase, committed]
  have notCommitted : (txId, SnTxState.committed) ∉ (s.nodes b).seen := fun both =>
    (inv.sound b).ended txId both rolledBack
  have second : (view s txId).phase b = .aborted := by
    simp [view, Node.phase, rolledBack, notCommitted]
  exact (inv.safe txId).agreement first second

theorem acked_of_move {d : Option Decision} {p q : Phase}
    (before : p = .ready ∨ p = .committed ∨ p = .aborted ∧ d = some .abort)
    (moved : q = p ∨ Move d p q) :
    q = .ready ∨ q = .committed ∨ q = .aborted ∧ d = some .abort := by
  rcases moved with rfl | move
  · exact before
  · cases move with
    | join _ => simp at before
    | vote => simp at before
    | giveUp => simp at before
    | commit _ => exact Or.inr (Or.inl rfl)
    | rollback decided _ => exact Or.inr (Or.inr ⟨rfl, decided⟩)

inductive Evolves (messages : List (Message τ)) (k : τ) :
    Option (Transaction τ) → Option (Transaction τ) → Prop where
  | same (r : Option (Transaction τ)) : Evolves messages k r r
  | participant (t : Transaction τ) (p : TxParticipant) (active : t.state = .active)
    (new : p.prepared = false) :
    Evolves messages k (some t) (some { t with participants := t.participants ++ [p] })
  | ack (t : Transaction τ) (nodeId : String) (sent : .prepareAck nodeId k ∈ messages) :
    Evolves messages k (some t) (some (t.receiveAck nodeId).1)
  | close (t : Transaction τ) (state : TxState) (ended : state.isOpen = false) :
    Evolves messages k (some t) (some { t with state })
  | forget (t : Transaction τ) : Evolves messages k (some t) none

theorem mem_or_prepared_of_mem_votes {nodeId : String} {ps : List TxParticipant} {p : TxParticipant}
    (member : p ∈ Transaction.votes nodeId ps) :
    p ∈ ps ∨ p.nodeId = nodeId ∧ p.prepared = true := by
  induction ps with
  | nil => cases member
  | cons first rest ih =>
    simp only [Transaction.votes] at member
    split at member
    · next here =>
      rcases mem_cons.mp member with rfl | later
      · exact Or.inr ⟨here, rfl⟩
      · exact Or.inl (mem_cons_of_mem first later)
    · rcases mem_cons.mp member with rfl | later
      · exact Or.inl (by simp)
      · rcases ih later with old | new
        · exact Or.inl (mem_cons_of_mem first old)
        · exact Or.inr new

theorem nodeIds_votes (nodeId : String) (ps : List TxParticipant) :
    (Transaction.votes nodeId ps).map (·.nodeId) = ps.map (·.nodeId) := by
  induction ps with
  | nil => rfl
  | cons first rest ih =>
    simp only [Transaction.votes]
    split
    · rfl
    · simp [ih]

variable {messages : List (Message τ)}

omit [LinearOrder τ] in
theorem Evolves.known {r : Option (Transaction τ)} {t : Transaction τ}
    (evolves : Evolves messages k r (some t)) : ∃ old, r = some old := by
  cases evolves with
  | same => exact ⟨t, rfl⟩
  | participant old => exact ⟨old, rfl⟩
  | ack old => exact ⟨old, rfl⟩
  | close old => exact ⟨old, rfl⟩

omit [LinearOrder τ] in
theorem Evolves.participants {t t' : Transaction τ}
    (evolves : Evolves messages k (some t) (some t')) :
    (∀ p ∈ t'.participants, p ∈ t.participants ∨ p.prepared = false ∧ t.state = .active ∨
      .prepareAck p.nodeId k ∈ messages ∧ p.prepared = true) ∧
    ∀ a, (∃ p ∈ t.participants, p.nodeId = a) → ∃ p ∈ t'.participants, p.nodeId = a := by
  cases evolves with
  | same => exact ⟨fun p member => Or.inl member, fun a there => there⟩
  | participant _ p active new =>
    constructor
    · intro q member
      rcases mem_append.mp member with old | added
      · exact Or.inl old
      · rw [mem_singleton.mp added]
        exact Or.inr (Or.inl ⟨new, active⟩)
    · rintro a ⟨q, member, name⟩
      exact ⟨q, mem_append_left _ member, name⟩
  | ack _ nodeId sent =>
    constructor
    · intro q member
      rcases mem_or_prepared_of_mem_votes member with old | ⟨rfl, prepared⟩
      · exact Or.inl old
      · exact Or.inr (Or.inr ⟨sent, prepared⟩)
    · intro a there
      have names := nodeIds_votes nodeId t.participants
      have listed : a ∈ t.participants.map (·.nodeId) := by simpa using there
      rw [← names] at listed
      simpa [Transaction.receiveAck] using listed
  | close _ state ended => exact ⟨fun p member => Or.inl member, fun a there => there⟩

omit [LinearOrder τ] in
theorem Evolves.state {t t' : Transaction τ} (evolves : Evolves messages k (some t) (some t')) :
    t'.state = t.state ∨ t'.state.isOpen = false ∨
      t.state = .active ∧ t'.state = .prepared ∧ ∀ p ∈ t'.participants, p.prepared = true := by
  cases evolves with
  | same => exact Or.inl rfl
  | participant _ p active new => exact Or.inl rfl
  | ack _ nodeId sent =>
    by_cases turns : ((Transaction.votes nodeId t.participants).all (·.prepared) &&
        decide (t.state = .active)) = true
    · refine Or.inr (Or.inr ?_)
      simp only [Bool.and_eq_true, all_eq_true, decide_eq_true_eq] at turns
      refine ⟨turns.2, ?_, turns.1⟩
      simp [Transaction.receiveAck, turns.2, all_eq_true.mpr turns.1]
    · exact Or.inl (if_neg turns)
  | close _ state ended => exact Or.inr (Or.inl ended)

variable {t : Cluster τ} {nodeId : String}

theorem Inv.issued_of_record (inv : Inv s) {tx : Transaction τ}
    (found : s.coordinator.transactions.get? k = some tx) : k ∈ s.issued := by
  by_contra fresh
  cases (inv.unissued k fresh).1.symm.trans found

inductive Sent (t : Cluster τ) : Message τ → Prop where
  | prepare (a : String) (k : τ) (lsn : UInt64) : Sent t (.prepare a k lsn)
  | prepareAck {a : String} {k : τ} (ready : (t.nodes a).phase k = .ready) : Sent t (.prepareAck a k)
  | commit {a : String} {k : τ} (decided : k ∈ t.decided) : Sent t (.commit a k)
  | rollback {a : String} {k : τ} (closed : Closed t k) : Sent t (.rollback a k)

structure Change (s t : Cluster τ) : Prop where
  follows : ∀ a, Node.Follows (decision s) (s.nodes a) (t.nodes a)
  joins : ∀ a k, (s.nodes a).phase k = .idle → (t.nodes a).phase k ≠ .idle → Participates s k a
  records : ∀ k, Evolves s.messages k (s.coordinator.transactions.get? k)
      (t.coordinator.transactions.get? k) ∨
    k ∉ s.issued ∧ k ∈ t.issued ∧ ∃ tx, t.coordinator.transactions.get? k = some tx ∧
      tx.participants = [] ∧ tx.state = .active
  issued : s.issued ⊆ t.issued
  decides : ∀ k ∈ t.decided, k ∈ s.decided ∨ ∃ tx, tx.state = .prepared ∧
    s.coordinator.transactions.get? k = some tx ∧ t.coordinator.transactions.get? k = some tx
  decided : s.decided ⊆ t.decided
  kept : s.messages ⊆ t.messages
  sent : ∀ m ∈ t.messages, m ∈ s.messages ∨ Sent t m
  quiet : t.nodes = s.nodes ∨ ∀ k, decision t k = decision s k

namespace Change

variable (change : Change s t) (inv : Inv s)
include change

theorem past {tx : Transaction τ} (stored : t.coordinator.transactions.get? k = some tx) :
    (∃ old, s.coordinator.transactions.get? k = some old ∧
      Evolves s.messages k (some old) (some tx)) ∨
    k ∉ s.issued ∧ k ∈ t.issued ∧ tx.participants = [] ∧ tx.state = .active := by
  rcases change.records k with evolved | ⟨fresh, issued, new, found, empty⟩
  · rw [stored] at evolved
    obtain ⟨old, found⟩ := evolved.known
    rw [found] at evolved
    exact .inl ⟨old, found, evolved⟩
  · cases stored.symm.trans found
    exact .inr ⟨fresh, issued, empty⟩

theorem closed (before : Closed s k) : Closed t k := by
  refine ⟨change.issued before.1, fun now => ?_, fun tx stored => ?_⟩
  · rcases change.decides k now with was | ⟨tx, prepared, found, -⟩
    · exact before.2.1 was
    · have ended := before.2.2 tx found
      rw [prepared] at ended
      cases ended
  · rcases change.past stored with ⟨old, found, evolved⟩ | ⟨fresh, -⟩
    · have ended := before.2.2 old found
      rcases evolved.state with same | closedNow | ⟨active, -⟩
      · rw [same]
        exact ended
      · exact closedNow
      · rw [active] at ended
        cases ended
    · exact absurd before.1 fresh

theorem keeps {d : Decision} (before : decision s k = some d) : decision t k = some d := by
  cases d with
  | commit => exact decision_of_decided (change.decided (decision_eq_commit_iff.mp before))
  | abort => exact decision_eq_abort_iff.mpr (change.closed (decision_eq_abort_iff.mp before))

theorem joined {a : String} (started : (t.nodes a).phase k ≠ .idle) :
    (s.nodes a).phase k ≠ .idle ∨ Participates s k a := by
  by_cases idle : (s.nodes a).phase k = .idle
  · exact .inr (change.joins a k idle started)
  · exact .inl idle

include inv

theorem voted (before : decision s k = none) (after : decision t k = some .commit) (a : String) :
    (s.nodes a).phase k = .idle ∨ (s.nodes a).phase k = .ready := by
  rcases change.decides k (decision_eq_commit_iff.mp after) with was | ⟨tx, prepared, found, -⟩
  · rw [decision_of_decided was] at before
    cases before
  · by_cases idle : (s.nodes a).phase k = .idle
    · exact .inl idle
    · obtain ⟨p, member, rfl⟩ := inv.joined k tx found a idle
      have vote := inv.votes k tx found p member (inv.voted k tx found (.inl prepared) p member)
      rcases inv.acked p.nodeId k vote with ready | committed | ⟨-, aborted⟩
      · exact .inr ready
      · have done := (inv.safe k).decided p.nodeId committed
        cases before.symm.trans done
      · cases before.symm.trans aborted

theorem step : Step (view s k) (view t k) := by
  have moved := fun a => (change.follows a).moved k
  rcases change.quiet with nodes | same
  · have phases : ∀ a, (view t k).phase a = (view s k).phase a := fun a => by simp only [view, nodes]
    cases before : decision s k with
    | some d => exact .nodes ((change.keeps before).trans before.symm) moved
    | none =>
      cases after : decision t k with
      | none => exact .nodes (after.trans before.symm) moved
      | some d =>
        cases d with
        | commit => exact .decideCommit before after (change.voted inv before after) phases
        | abort => exact .decideAbort before after phases
  · exact .nodes (same k) moved

end Change

theorem Inv.change (inv : Inv s) (change : Change s t) : Inv t := by
  constructor
  · exact fun a => (change.follows a).sound
  · intro a k ack
    rcases change.sent _ ack with before | new
    · rcases acked_of_move (inv.acked a k before) ((change.follows a).moved k) with
        ready | committed | ⟨aborted, decided⟩
      · exact .inl ready
      · exact .inr (.inl committed)
      · exact .inr (.inr ⟨aborted, change.keeps decided⟩)
    · cases new with
      | prepareAck ready => exact .inl ready
  · intro a k message
    rcases change.sent _ message with before | new
    · exact change.keeps (inv.commits a k before)
    · cases new with
      | commit decided => exact decision_of_decided decided
  · intro a k message
    rcases change.sent _ message with before | new
    · exact change.keeps (inv.rollbacks a k before)
    · cases new with
      | rollback closed => exact decision_eq_abort_iff.mpr closed
  · intro k tx stored p member prepared
    rcases change.past stored with ⟨old, found, evolved⟩ | ⟨-, -, empty, -⟩
    · rcases evolved.participants.1 p member with was | ⟨new, -⟩ | ⟨ack, -⟩
      · exact change.kept (inv.votes k old found p was prepared)
      · rw [new] at prepared
        cases prepared
      · exact change.kept ack
    · rw [empty] at member
      cases member
  · intro k tx stored a started
    rcases change.past stored with ⟨old, found, evolved⟩ | ⟨fresh, -⟩
    · refine evolved.participants.2 a ?_
      rcases change.joined started with before | ⟨other, known, participant⟩
      · exact inv.joined k old found a before
      · cases found.symm.trans known
        exact participant
    · rcases change.joined started with before | ⟨other, known, -⟩
      · exact absurd ((inv.unissued k fresh).2.2 a) before
      · exact absurd (inv.issued_of_record known) fresh
  · intro k tx stored reason p member
    rcases change.past stored with ⟨old, found, evolved⟩ | ⟨-, -, empty, -⟩
    · have before : (old.state = .prepared ∨ k ∈ s.decided) → p.prepared = true := by
        intro past
        rcases evolved.participants.1 p member with was | ⟨-, active⟩ | ⟨-, prepared⟩
        · exact inv.voted k old found past p was
        · rcases past with prepared | done
          · rw [active] at prepared
            cases prepared
          · exact absurd active (inv.asked k old found done)
        · exact prepared
      rcases reason with prepared | now
      · rcases evolved.state with same | closedNow | ⟨-, -, all⟩
        · exact before (.inl (same ▸ prepared))
        · rw [prepared] at closedNow
          cases closedNow
        · exact all p member
      · rcases change.decides k now with was | ⟨_, prepared, known, -⟩
        · exact before (.inr was)
        · cases found.symm.trans known
          exact before (.inl prepared)
    · rw [empty] at member
      cases member
  · intro k tx stored now active
    rcases change.decides k now with was | ⟨_, prepared, -, known⟩
    · rcases change.past stored with ⟨old, found, evolved⟩ | ⟨fresh, -⟩
      · rcases evolved.state with same | closedNow | ⟨-, prepared, -⟩
        · exact inv.asked k old found was (same ▸ active)
        · rw [active] at closedNow
          cases closedNow
        · cases active.symm.trans prepared
      · exact absurd was (inv.unissued k fresh).2.1
    · cases stored.symm.trans known
      cases active.symm.trans prepared
  · intro k later
    have fresh : k ∉ s.issued := fun was => later (change.issued was)
    obtain ⟨missing, undecided, idle⟩ := inv.unissued k fresh
    refine ⟨?_, fun now => ?_, fun a => ?_⟩
    · by_contra some
      obtain ⟨tx, stored⟩ := Option.ne_none_iff_exists'.mp some
      rcases change.past stored with ⟨old, found, -⟩ | ⟨-, issued, -⟩
      · cases missing.symm.trans found
      · exact later issued
    · rcases change.decides k now with was | ⟨_, -, known, -⟩
      · exact undecided was
      · cases missing.symm.trans known
    · by_contra started
      obtain ⟨_, known, -⟩ := change.joins a k (idle a) started
      cases missing.symm.trans known
  · exact fun k => safe_step (inv.safe k) (change.step inv)

theorem Inv.still (inv : Inv s) (a : String) : Node.Follows (decision s) (s.nodes a) (s.nodes a) :=
  ⟨inv.sound a, fun _ => .inl rfl⟩

variable {n : Node τ}

theorem Inv.node_step (inv : Inv s) (sent : List (Message τ))
    (follows : Node.Follows (decision s) (s.nodes nodeId) n)
    (joins : ∀ k, (s.nodes nodeId).phase k = .idle → n.phase k ≠ .idle → Participates s k nodeId)
    (votes : ∀ m ∈ sent, ∃ k, m = .prepareAck nodeId k ∧ n.phase k = .ready) :
    Inv { s.setNode nodeId n with messages := s.messages ++ sent } := by
  have here : Function.update s.nodes nodeId n nodeId = n := Function.update_self ..
  refine inv.change ⟨fun a => ?_, fun a k idle started => ?_, fun k => .inl (.same _),
    fun _ member => member, fun k now => .inl now, fun _ member => member,
    fun _ member => mem_append_left _ member, fun m member => ?_, .inr fun k => rfl⟩
  · dsimp only [Cluster.setNode]
    by_cases same : a = nodeId
    · subst same
      rw [here]
      exact follows
    · rw [Function.update_of_ne same]
      exact ⟨inv.sound a, fun k => .inl rfl⟩
  · dsimp only [Cluster.setNode] at started
    by_cases same : a = nodeId
    · subst same
      rw [here] at started
      exact joins k idle started
    · rw [Function.update_of_ne same] at started
      exact absurd idle started
  · refine (mem_append.mp member).imp_right fun new => ?_
    obtain ⟨k, rfl, ready⟩ := votes m new
    refine .prepareAck ?_
    dsimp only [Cluster.setNode]
    rw [here]
    exact ready

variable {txId : τ}

variable {coordinator : TransactionManager τ}

theorem Inv.send (inv : Inv s) {clock : Nat} (sent : List (Message τ))
    (evolves : ∀ k, Evolves s.messages k (s.coordinator.transactions.get? k)
      (coordinator.transactions.get? k))
    (legal : ∀ m ∈ sent, Sent { s with coordinator, clock, messages := s.messages ++ sent } m) :
    Inv { s with coordinator, clock, messages := s.messages ++ sent } :=
  inv.change ⟨inv.still, fun _ _ idle started => absurd idle started, fun k => .inl (evolves k),
    fun _ member => member, fun _ now => .inl now, fun _ member => member,
    fun _ => mem_append_left _, fun m member => (mem_append.mp member).imp_right (legal m),
    .inl rfl⟩

theorem Inv.call (inv : Inv s) {clock : Nat}
    (evolves : ∀ k, Evolves s.messages k (s.coordinator.transactions.get? k)
      (coordinator.transactions.get? k)) : Inv { s with coordinator, clock } := by
  have stepped : Inv { s with coordinator, clock, messages := s.messages ++ [] } :=
    inv.send [] evolves nofun
  rwa [append_nil] at stepped

theorem Inv.callNode (inv : Inv s) (follows : Node.Follows (decision s) (s.nodes nodeId) n)
    (joins : ∀ k, (s.nodes nodeId).phase k = .idle → n.phase k ≠ .idle → Participates s k nodeId) :
    Inv (s.setNode nodeId n) := by
  have stepped := inv.node_step [] follows joins nofun
  rwa [append_nil] at stepped

theorem undecided_of_idle (inv : Inv s) (participates : Participates s txId nodeId)
    (idle : (s.nodes nodeId).phase txId = .idle) : decision s txId ≠ some .commit := by
  intro commit
  obtain ⟨t, found, p, member, rfl⟩ := participates
  have vote := inv.voted txId t found (Or.inr (decision_eq_commit_iff.mp commit)) p member
  have ack := inv.votes txId t found p member vote
  rcases inv.acked p.nodeId txId ack with ready | committed | ⟨aborted, -⟩
  · exact absurd (idle.symm.trans ready) nofun
  · exact absurd (idle.symm.trans committed) nofun
  · exact absurd (idle.symm.trans aborted) nofun

theorem phase_idle_of_unseen (missing : n.manager.transactions.get? txId = none)
    (unseen : ∀ e ∈ n.seen, e.1 ≠ txId) : n.phase txId = .idle := by
  have none : ∀ state, (txId, state) ∉ n.seen := fun state member => unseen _ member rfl
  simp [Node.phase, none, SnTransactionManager.getState, missing]

end Invariant

section Steps

variable {τ : Type} [LinearOrder τ] [ToString τ] {txId : τ} (m : TransactionManager τ)

theorem evolves_onTx {messages : List (Message τ)} {α : Type}
    {f : Transaction τ → Transaction τ × Except String α}
    (each : ∀ tx, m.transactions.get? txId = some tx → Evolves messages txId (some tx) (some (f tx).1))
    (k : τ) :
    Evolves messages k (m.transactions.get? k) ((m.onTx txId f).1.transactions.get? k) := by
  rw [TransactionManager.get?_onTx]
  split
  · next here =>
    subst here
    cases found : m.transactions.get? k with
    | none => exact Evolves.same none
    | some tx => exact each tx found
  · exact Evolves.same _

variable {s t : Cluster τ}

theorem inv_begin {cubeName : String} (inv : Inv s) (ok : step s (.begin txId cubeName) = some t) :
    Inv t := by
  simp only [step] at ok
  split at ok
  · cases ok
  · next fresh =>
    cases ok
    refine inv.change ⟨inv.still, fun _ _ idle started => absurd idle started, fun k => ?_,
      fun _ => mem_cons_of_mem txId, fun _ now => .inl now, fun _ member => member,
      fun _ member => member, fun _ member => .inl member, .inl rfl⟩
    dsimp only [TransactionManager.begin]
    rw [OrdMap.get?_insert]
    split
    · next new =>
      subst new
      exact .inr ⟨fresh, mem_cons_self, _, rfl, rfl, rfl⟩
    · exact .inl (.same _)

variable {nodeId : String}

theorem inv_registerParticipant {endpoint : String} (inv : Inv s)
    (ok : step s (.registerParticipant txId nodeId endpoint) = some t) : Inv t := by
  cases ok
  refine inv.call (evolves_onTx s.coordinator fun tx found => ?_)
  split
  · exact Evolves.same _
  · next active => exact Evolves.participant tx _ (not_not.mp active) rfl

theorem inv_firstRows (inv : Inv s) (orderly : Orderly s (.firstRows nodeId txId))
    (ok : step s (.firstRows nodeId txId) = some t) : Inv t := by
  cases ok
  have allowed : ((s.nodes nodeId).manager.transactions.get? txId).isSome = true ∨
      (s.nodes nodeId).phase txId = .idle ∧ Participates s txId nodeId := by
    cases found : (s.nodes nodeId).manager.transactions.get? txId with
    | some tx => exact Or.inl rfl
    | none =>
      simp only [Orderly, found, Option.isSome_none, Bool.false_eq_true, false_or] at orderly
      exact Or.inr ⟨phase_idle_of_unseen found orderly.1, orderly.2⟩
  obtain ⟨follows, others⟩ := Node.register_follows (inv.sound nodeId) txId
    (s.nodes nodeId).clock (decision s)
    (allowed.imp_right fun free => ⟨free.1, undecided_of_idle inv free.2 free.1⟩)
  refine inv.callNode follows fun k idle started => ?_
  by_cases here : k = txId
  · subst here
    rcases allowed with known | free
    · obtain ⟨tx, found⟩ := Option.isSome_iff_exists.mp known
      rw [(inv.sound nodeId).phase_of_record found] at idle
      exact absurd idle (phaseOf_ne_idle tx.state)
    · exact free.2
  · exact absurd ((others k here).trans idle) started

theorem Inv.onTx (inv : Inv s) (nodeId : String) (txId : τ) {α : Type}
    (f : SnTransaction τ → SnTransaction τ × Except String α)
    (keyed : ∀ tx, (f tx).1.txId = tx.txId)
    (legal : ∀ tx, (f tx).1.state = tx.state ∨ Move (decision s txId) (phaseOf tx.state)
      (phaseOf (f tx).1.state)) :
    Inv (s.setNode nodeId
      ((s.nodes nodeId).call txId ((s.nodes nodeId).manager.onTx txId f).1)) := by
  obtain ⟨follows, idle⟩ := Node.onTx_follows (inv.sound nodeId) keyed legal
  exact inv.callNode follows fun k before started => absurd (idle k before) started

theorem inv_addTablet {tabletId : String} (inv : Inv s)
    (ok : step s (.addTablet nodeId txId tabletId) = some t) : Inv t := by
  cases ok
  unfold SnTransactionManager.addTablet
  apply inv.onTx
  · intro tx
    split <;> rfl
  · intro tx
    refine Or.inl ?_
    split <;> rfl

theorem inv_commit (inv : Inv s) (sent : .commit nodeId txId ∈ s.messages) :
    Inv (receive s (.commit nodeId txId)) := by
  simp only [receive, SnTransactionManager.commit]
  apply inv.onTx
  · intro tx
    split <;> rfl
  · intro tx
    split
    · next prepared =>
      refine Or.inr ?_
      rw [prepared]
      exact Move.commit (inv.commits nodeId txId sent)
    · exact Or.inl rfl
    · exact Or.inl rfl

theorem inv_rollback (inv : Inv s) (sent : .rollback nodeId txId ∈ s.messages) :
    Inv (receive s (.rollback nodeId txId)) := by
  simp only [receive, SnTransactionManager.rollback]
  apply inv.onTx
  · intro tx
    split <;> rfl
  · intro tx
    split
    · exact Or.inl rfl
    · next notCommitted =>
      have abort := inv.rollbacks nodeId txId sent
      cases state : tx.state with
      | active => exact Or.inr (Move.rollback abort (Or.inl rfl))
      | prepared => exact Or.inr (Move.rollback abort (Or.inr rfl))
      | committed => exact absurd state notCommitted
      | rolledBack => exact Or.inl rfl

theorem prepare_legal (m : SnTransactionManager τ) (now : Nat) (txId : τ) (lsn : UInt64)
    (d : Option Decision) : ∃ f : SnTransaction τ → SnTransaction τ × Except String Unit,
    m.prepare now txId lsn = m.onTx txId f ∧ (∀ tx, (f tx).1.txId = tx.txId) ∧
      (∀ tx, (f tx).1.state = tx.state ∨ Move d (phaseOf tx.state) (phaseOf (f tx).1.state)) ∧
      ∀ tx, (f tx).2 = .ok () → (f tx).1.state = .prepared := by
  refine ⟨_, rfl, fun tx => ?_, fun tx => ?_, fun tx ok => ?_⟩
  · simp only
    split
    · rfl
    · split <;> rfl
  · simp only
    split
    · exact Or.inl rfl
    · next active =>
      rw [not_not.mp active]
      split
      · exact Or.inr Move.giveUp
      · exact Or.inr Move.vote
  · revert ok
    simp only
    split
    · exact nofun
    · split
      · exact nofun
      · exact fun _ => rfl

theorem inv_prepare {lsn : UInt64} (inv : Inv s) : Inv (receive s (.prepare nodeId txId lsn)) := by
  obtain ⟨f, prepare, keyed, legal, ready⟩ := prepare_legal (s.nodes nodeId).manager
    (s.nodes nodeId).clock txId lsn (decision s txId)
  obtain ⟨follows, idle⟩ := Node.onTx_follows (inv.sound nodeId) keyed legal
  simp only [receive, prepare]
  split
  · next ok =>
    refine inv.node_step _ follows (fun k before started => absurd (idle k before) started)
      fun m added => ⟨txId, mem_singleton.mp added, ?_⟩
    cases found : (s.nodes nodeId).manager.transactions.get? txId with
    | none =>
      rw [SnTransactionManager.onTx_missing found] at ok
      cases ok
    | some tx =>
      rw [SnTransactionManager.onTx_result found] at ok
      rw [Node.phase_call found follows.sound, ready tx ok]
      rfl
  · exact inv.callNode follows fun k before started => absurd (idle k before) started

theorem inv_deliver {message : Message τ} (inv : Inv s) (ok : step s (.deliver message) = some t) :
    Inv t := by
  simp only [step] at ok
  split at ok
  · next sent =>
    cases ok
    cases message with
    | prepare nodeId txId lsn => exact inv_prepare inv
    | prepareAck nodeId txId =>
      refine inv.call (evolves_onTx s.coordinator fun tx found => ?_)
      exact Evolves.ack tx nodeId sent
    | commit nodeId txId => exact inv_commit inv sent
    | rollback nodeId txId => exact inv_rollback inv sent
  · cases ok

theorem prepareCommit_ok {m : TransactionManager τ} {now : Nat}
    {participants : List TxParticipant} (ok : (m.prepareCommit now txId).2 = .ok participants) :
    (∃ tx, m.transactions.get? txId = some tx ∧ tx.state.isOpen = true ∧
      tx.isTimedOut now m.timeout = false) ∧
    ∀ k, (m.prepareCommit now txId).1.transactions.get? k = m.transactions.get? k := by
  obtain ⟨tx, found, result⟩ := TransactionManager.onTx_ok ok
  have isOpen : tx.state.isOpen = true := by
    cases ended : tx.state.isOpen with
    | true => rfl
    | false => simp [ended] at result
  have inTime : tx.isTimedOut now m.timeout = false := by
    cases late : tx.isTimedOut now m.timeout with
    | true => simp [isOpen, late] at result
    | false => rfl
  refine ⟨⟨tx, found, isOpen, inTime⟩, fun k => ?_⟩
  unfold TransactionManager.prepareCommit
  rw [TransactionManager.get?_onTx]
  split
  · next here => simp [here, found, isOpen, inTime]
  · rfl

theorem inv_prepareCommit (inv : Inv s) (orderly : Orderly s (.prepareCommit txId))
    (ok : step s (.prepareCommit txId) = some t) : Inv t := by
  simp only [step] at ok
  split at ok
  · next participants accepted =>
    cases ok
    obtain ⟨⟨tx, found, isOpen, inTime⟩, records⟩ := prepareCommit_ok accepted
    have prepared : tx.state = .prepared := by
      cases state : tx.state with
      | prepared => rfl
      | active =>
        have late := orderly tx found state
        rw [inTime] at late
        cases late
      | committed => simp [state, TxState.isOpen] at isOpen
      | rolledBack => simp [state, TxState.isOpen] at isOpen
      | aborted => simp [state, TxState.isOpen] at isOpen
    refine inv.change ⟨inv.still, fun _ _ idle started => absurd idle started,
      fun k => .inl ?_, fun _ member => member, fun k now => ?_, fun _ => mem_cons_of_mem txId,
      fun _ => mem_append_left _, fun m member => (mem_append.mp member).imp_right ?_,
      .inl rfl⟩
    · rw [records]
      exact .same _
    · rcases mem_cons.mp now with rfl | was
      · exact .inr ⟨tx, prepared, found, (records k).trans found⟩
      · exact .inl was
    · intro added
      obtain ⟨p, -, rfl⟩ := mem_map.mp added
      exact .commit mem_cons_self
  · cases ok
    refine inv.call (evolves_onTx s.coordinator fun tx found => ?_)
    split
    · exact Evolves.same _
    · split
      · exact Evolves.close tx .aborted rfl
      · exact Evolves.same _

theorem inv_markCommitted (inv : Inv s) (ok : step s (.markCommitted txId) = some t) : Inv t := by
  cases ok
  refine inv.call (evolves_onTx s.coordinator fun tx found => ?_)
  exact Evolves.close tx .committed rfl

theorem inv_rollbackCall (inv : Inv s) (orderly : Orderly s (.rollback txId))
    (ok : step s (.rollback txId) = some t) : Inv t := by
  have evolves : ∀ k, Evolves s.messages k (s.coordinator.transactions.get? k)
      ((s.coordinator.rollback txId).1.transactions.get? k) :=
    evolves_onTx s.coordinator fun tx _ => Evolves.close tx .rolledBack rfl
  simp only [step] at ok
  split at ok
  · next participants accepted =>
    cases ok
    obtain ⟨tx, found, -⟩ := TransactionManager.onTx_ok accepted
    refine inv.send _ evolves fun m added => ?_
    obtain ⟨p, -, rfl⟩ := mem_map.mp added
    refine .rollback ⟨inv.issued_of_record found, orderly, fun t' stored => ?_⟩
    simp only [TransactionManager.rollback, TransactionManager.get?_onTx, found, if_true,
      Option.map_some, Option.mem_def, Option.some.injEq] at stored
    rw [← stored]
    rfl
  · cases ok
    exact inv.call evolves

omit [ToString τ] in
theorem evolves_cleanup {messages : List (Message τ)} (now : Nat) (k : τ) :
    Evolves messages k (m.transactions.get? k) ((m.cleanupTimedOut now).1.transactions.get? k) := by
  rw [TransactionManager.get?_cleanupTimedOut]
  cases m.transactions.get? k with
  | none => exact Evolves.same none
  | some tx =>
    rw [Option.filter_some]
    split
    · exact Evolves.same _
    · exact Evolves.forget tx

theorem inv_cleanupNode (inv : Inv s) (orderly : Orderly s (.cleanupNode nodeId))
    (ok : step s (.cleanupNode nodeId) = some t) : Inv t := by
  cases ok
  obtain ⟨follows, idle⟩ := Node.cleanup_follows (inv.sound nodeId) (decision s)
    fun k tx found prepared late => decision_eq_abort_iff.mpr
      (orderly (k, tx) ((OrdMap.mem_entries_iff _ _ _).mpr found) prepared late)
  exact inv.callNode follows fun k before started => absurd (idle k before) started

theorem inv_step (s : Cluster τ) (a : Action τ) (t : Cluster τ) (inv : Inv s) (orderly : Orderly s a)
    (ok : step s a = some t) : Inv t := by
  cases a with
  | begin txId cubeName => exact inv_begin inv ok
  | registerParticipant txId nodeId endpoint => exact inv_registerParticipant inv ok
  | firstRows nodeId txId => exact inv_firstRows inv orderly ok
  | addTablet nodeId txId tabletId => exact inv_addTablet inv ok
  | sendPrepare nodeId txId lsn =>
    cases ok
    refine inv.send _ (fun k => .same _) fun m added => ?_
    obtain rfl := mem_singleton.mp added
    exact .prepare nodeId txId lsn
  | deliver message => exact inv_deliver inv ok
  | prepareCommit txId => exact inv_prepareCommit inv orderly ok
  | markCommitted txId => exact inv_markCommitted inv ok
  | rollback txId => exact inv_rollbackCall inv orderly ok
  | cleanup =>
    cases ok
    exact inv.call (evolves_cleanup s.coordinator s.clock)
  | cleanupNode nodeId => exact inv_cleanupNode inv orderly ok
  | tick elapsed =>
    cases ok
    exact inv.call fun k => .same _
  | tickNode nodeId elapsed =>
    cases ok
    obtain ⟨follows, phases⟩ := Node.same_follows
      { s.nodes nodeId with clock := (s.nodes nodeId).clock + elapsed } (inv.sound nodeId)
      (decision s) (fun _ => rfl) rfl
    exact inv.callNode follows fun k idle started => absurd ((phases k).trans idle) started

omit [ToString τ] in
theorem inv_start (timeout : Nat) (nodeTimeout : String → Nat) :
    Inv (start timeout nodeTimeout : Cluster τ) := by
  have idle : ∀ a (k : τ), ((start timeout nodeTimeout : Cluster τ).nodes a).phase k = .idle := by
    intro a k
    rfl
  constructor
  · intro a
    constructor <;> nofun
  · nofun
  · nofun
  · nofun
  · nofun
  · nofun
  · nofun
  · nofun
  · intro k _
    exact ⟨rfl, nofun, fun a => idle a k⟩
  · intro k
    exact safe_initial

/-- Every run of orderly steps is atomic in every state. -/
theorem atomic_of_orderly (timeout : Nat) (nodeTimeout : String → Nat) (actions : List (Action τ))
    (orderly : Run.EveryStep step Orderly (start timeout nodeTimeout) actions) :
    Run.EveryState step Atomic (start timeout nodeTimeout : Cluster τ) actions := by
  have invariant : Run.EveryState step Inv (start timeout nodeTimeout : Cluster τ) actions :=
    Run.everyState_of_everyStep inv_step actions _ (inv_start timeout nodeTimeout) orderly
  intro done t isPrefix ran
  exact (invariant done t isPrefix ran).atomic

instance (s : Cluster τ) (txId : τ) (nodeId : String) : Decidable (Participates s txId nodeId) := by
  unfold Participates
  infer_instance

instance decidableOrderly (s : Cluster τ) (a : Action τ) : Decidable (Orderly s a) := by
  cases a <;> unfold Orderly <;> infer_instance

def voting : List (Action String) :=
  [.begin "t1" "events", .registerParticipant "t1" "sn-1" ":9060",
    .registerParticipant "t1" "sn-2" ":9061", .firstRows "sn-1" "t1", .firstRows "sn-2" "t1",
    .sendPrepare "sn-1" "t1" 1, .sendPrepare "sn-2" "t1" 1,
    .deliver (.prepare "sn-1" "t1" 1), .deliver (.prepare "sn-2" "t1" 1),
    .deliver (.prepareAck "sn-2" "t1"), .deliver (.prepareAck "sn-1" "t1"), .prepareCommit "t1"]

theorem atomic_after_late_cleanups : Run.EveryState step Atomic (start 60000 fun _ => 120000)
      (voting ++ [.deliver (.commit "sn-1" "t1"), .deliver (.commit "sn-2" "t1"),
        .markCommitted "t1", .tickNode "sn-2" 120001, .cleanupNode "sn-2", .tick 60001, .cleanup]) :=
  atomic_of_orderly 60000 (fun _ => 120000) _ (by decide +kernel)

theorem cleanup_breaks_atomicity : ∃ s, Run.exec step (start 60000 fun _ => 120000)
        (voting ++ [.deliver (.commit "sn-1" "t1"), .tickNode "sn-2" 120001,
          .cleanupNode "sn-2"]) = some s ∧
      ("t1", .committed) ∈ (s.nodes "sn-1").seen ∧ ("t1", .rolledBack) ∈ (s.nodes "sn-2").seen :=
  ⟨_, rfl, by decide +kernel, by decide +kernel⟩

end Steps

end WowDb.System.TwoPhase
