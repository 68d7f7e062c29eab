import WowDb.Lib.OrdMap
import WowDb.Lib.Run

/-!
# Transactions on the query node

`query-node/src/transaction.rs`, the coordinator of two-phase commit.
-/
namespace WowDb.Query
open WowDb.Lib

inductive TxState where
  | active | prepared | committed | rolledBack | aborted
  deriving DecidableEq

def TxState.debug : TxState → String
  | .active => "Active"
  | .prepared => "Prepared"
  | .committed => "Committed"
  | .rolledBack => "RolledBack"
  | .aborted => "Aborted"

def TxState.isOpen : TxState → Bool
  | .active | .prepared => true
  | .committed | .rolledBack | .aborted => false

theorem isOpen_aborted : TxState.isOpen .aborted = false := rfl

structure TxParticipant where
  nodeId : String
  endpoint : String
  prepared : Bool
  deriving DecidableEq

structure Transaction (τ : Type) where
  txId : τ
  state : TxState
  participants : List TxParticipant
  startedAt : Nat
  cubeName : String

namespace Transaction

variable {τ : Type}

def new (txId : τ) (now : Nat) (cubeName : String) : Transaction τ :=
  ⟨txId, .active, [], now, cubeName⟩

def isTimedOut (tx : Transaction τ) (now timeout : Nat) : Bool :=
  decide (timeout < now - tx.startedAt)

def votes (nodeId : String) : List TxParticipant → List TxParticipant
  | [] => []
  | p :: rest => if p.nodeId = nodeId then { p with prepared := true } :: rest
    else p :: votes nodeId rest

def receiveAck (tx : Transaction τ) (nodeId : String) : Transaction τ × Bool :=
  let participants := votes nodeId tx.participants
  let allPrepared := participants.all (·.prepared)
  ({ tx with
      participants
      state := if allPrepared && decide (tx.state = .active) then .prepared else tx.state },
    allPrepared)

end Transaction

structure TransactionManager (τ : Type) [LinearOrder τ] where
  transactions : OrdMap τ (Transaction τ)
  timeout : Nat

namespace TransactionManager

variable {τ : Type} [LinearOrder τ] [ToString τ]

def withTimeout (timeout : Nat) : TransactionManager τ := ⟨.empty, timeout⟩

def new : TransactionManager τ := withTimeout 60000

def begin (m : TransactionManager τ) (now : Nat) (txId : τ) (cubeName : String) :
    TransactionManager τ :=
  { m with transactions := m.transactions.insert txId (.new txId now cubeName) }

def onTx {α : Type} (m : TransactionManager τ) (txId : τ)
    (f : Transaction τ → Transaction τ × Except String α) :
    TransactionManager τ × Except String α :=
  let (transactions, result) :=
    m.transactions.update txId (.error s!"Transaction '{txId}' not found") f
  ({ m with transactions }, result)

def registerParticipant (m : TransactionManager τ) (txId : τ) (nodeId endpoint : String) :
    TransactionManager τ × Except String Unit :=
  m.onTx txId fun tx =>
    if tx.state ≠ .active then (tx, .error s!"Transaction '{txId}' is not active")
    else ({ tx with participants := tx.participants ++ [⟨nodeId, endpoint, false⟩] }, .ok ())

def receivePrepareAck (m : TransactionManager τ) (txId : τ) (nodeId : String) :
    TransactionManager τ × Except String Bool :=
  m.onTx txId fun tx => ((tx.receiveAck nodeId).1, .ok (tx.receiveAck nodeId).2)

def prepareCommit (m : TransactionManager τ) (now : Nat) (txId : τ) :
    TransactionManager τ × Except String (List TxParticipant) :=
  m.onTx txId fun tx =>
    let state := tx.state.debug
    if !tx.state.isOpen then (tx, .error s!"Cannot commit tx '{txId}' in state {state}")
    else if tx.isTimedOut now m.timeout then
      ({ tx with state := .aborted }, .error s!"Transaction '{txId}' timed out")
    else (tx, .ok tx.participants)

def markCommitted (m : TransactionManager τ) (txId : τ) :
    TransactionManager τ × Except String Unit :=
  m.onTx txId fun tx => ({ tx with state := .committed }, .ok ())

def rollback (m : TransactionManager τ) (txId : τ) :
    TransactionManager τ × Except String (List TxParticipant) :=
  m.onTx txId fun tx => ({ tx with state := .rolledBack }, .ok tx.participants)

def getState (m : TransactionManager τ) (txId : τ) : Option TxState :=
  (m.transactions.get? txId).map (·.state)

def expires (m : TransactionManager τ) (now : Nat) (tx : Transaction τ) : Bool :=
  tx.state.isOpen && tx.isTimedOut now m.timeout

def cleanupTimedOut (m : TransactionManager τ) (now : Nat) : TransactionManager τ × Nat :=
  let aged := m.transactions.filterMap fun _ tx =>
    some (if m.expires now tx then { tx with state := .aborted } else tx)
  ({ m with transactions := aged.retain fun _ tx => tx.state.isOpen },
    (m.transactions.entries.filter fun e => m.expires now e.2).length)

def activeCount (m : TransactionManager τ) : Nat :=
  (m.transactions.entries.filter fun e => e.2.state.isOpen).length

theorem get?_onTx {α : Type} (m : TransactionManager τ) (txId k : τ)
    (f : Transaction τ → Transaction τ × Except String α) :
    (m.onTx txId f).1.transactions.get? k =
      if k = txId then (m.transactions.get? txId).map fun tx => (f tx).1
      else m.transactions.get? k :=
  OrdMap.get?_update m.transactions txId k _ f

omit [ToString τ] in
theorem get?_cleanupTimedOut (m : TransactionManager τ) (now : Nat) (k : τ) :
    (m.cleanupTimedOut now).1.transactions.get? k =
      (m.transactions.get? k).filter fun tx => tx.state.isOpen && !tx.isTimedOut now m.timeout := by
  unfold cleanupTimedOut expires
  exact OrdMap.get?_sweep (fun tx => tx.state.isOpen) (fun tx => tx.isTimedOut now m.timeout)
    (fun tx => { tx with state := .aborted }) (fun _ => isOpen_aborted) m.transactions k

theorem onTx_ok {α : Type} {m : TransactionManager τ} {txId : τ} {value : α}
    {f : Transaction τ → Transaction τ × Except String α} (ok : (m.onTx txId f).2 = .ok value) :
    ∃ tx, m.transactions.get? txId = some tx ∧ (f tx).2 = .ok value := by
  cases found : m.transactions.get? txId with
  | none =>
    simp only [onTx, OrdMap.update_of_none found] at ok
    cases ok
  | some tx =>
    simp only [onTx, OrdMap.update_of_some found] at ok
    exact ⟨tx, rfl, ok⟩

end TransactionManager
end WowDb.Query

namespace WowDb.Query.TxStates
open WowDb.Lib List

variable {τ : Type}

inductive Event (τ : Type) where
  | registered (txId : τ) (nodeId : String)
  | acked (txId : τ) (nodeId : String)
  deriving DecidableEq

def AllAcked (history : List (Event τ)) (txId : τ) : Prop :=
  ∀ before nodeId after, history = before ++ .registered txId nodeId :: after →
    .acked txId nodeId ∈ after

inductive Moves (txId : τ) (tx : Transaction τ) : Transaction τ → List (Event τ) → Prop
  | same : Moves txId tx tx []
  | settles (state : TxState) (isOpen : tx.state.isOpen = true)
      (voted : state = .committed → tx.participants.all (·.prepared) = true) :
      Moves txId tx { tx with state } []
  | registers (nodeId endpoint : String) (active : tx.state = .active) :
      Moves txId tx { tx with participants := tx.participants ++ [⟨nodeId, endpoint, false⟩] }
        [.registered txId nodeId]
  | acks (nodeId : String) : Moves txId tx (tx.receiveAck nodeId).1 [.acked txId nodeId]

theorem mem_votes {nodeId : String} {p : TxParticipant} {ps : List TxParticipant}
    (member : p ∈ ps) (other : p.nodeId ≠ nodeId) : p ∈ Transaction.votes nodeId ps := by
  induction ps with
  | nil => cases member
  | cons q rest ih =>
    unfold Transaction.votes
    rcases mem_cons.mp member with rfl | later
    · rw [if_neg other]
      exact mem_cons_self
    · split
      · exact mem_cons_of_mem _ later
      · exact mem_cons_of_mem _ (ih later)

theorem receiveAck_state (tx : Transaction τ) (nodeId : String) :
    (tx.receiveAck nodeId).1.state = tx.state ∨
      (tx.state = .active ∧ (tx.receiveAck nodeId).1.state = .prepared) := by
  simp only [Transaction.receiveAck]
  split
  · next voted =>
    rw [Bool.and_eq_true, decide_eq_true_eq] at voted
    exact Or.inr ⟨voted.2, rfl⟩
  · exact Or.inl rfl

variable {history : List (Event τ)}

theorem split_append {events before after : List (Event τ)} {e : Event τ}
    (split : history ++ events = before ++ e :: after) :
    (∃ middle, history = before ++ e :: middle ∧ after = middle ++ events) ∨ e ∈ events := by
  rcases append_eq_append_iff.mp split with ⟨extra, rfl, rfl⟩ | ⟨extra, rfl, rest⟩
  · exact Or.inr (by simp)
  · cases extra with
    | nil =>
      right
      rw [nil_append] at rest
      rw [← rest]
      exact mem_cons_self
    | cons f middle =>
      rw [cons_append, cons.injEq] at rest
      obtain ⟨rfl, rfl⟩ := rest
      exact Or.inl ⟨middle, rfl, rfl⟩

theorem allAcked_append {events : List (Event τ)} {txId : τ} (acked : AllAcked history txId)
    (none : ∀ nodeId, .registered txId nodeId ∉ events) : AllAcked (history ++ events) txId := by
  intro before nodeId after split
  rcases split_append split with ⟨middle, old, rfl⟩ | new
  · exact mem_append_left _ (acked before nodeId middle old)
  · exact absurd new (none nodeId)

namespace Moves

variable {txId : τ} {tx next : Transaction τ} {events : List (Event τ)}

variable (moves : Moves txId tx next events)

include moves

theorem state_of_closed (closed : tx.state.isOpen = false) : next.state = tx.state := by
  cases moves with
  | same => rfl
  | settles state isOpen voted =>
    rw [closed] at isOpen
    cases isOpen
  | registers nodeId endpoint active => rfl
  | acks nodeId =>
    rcases receiveAck_state tx nodeId with same | ⟨active, -⟩
    · exact same
    · rw [active] at closed
      cases closed

theorem waits {before after : List (Event τ)}
    {nodeId : String} (split : history ++ events = before ++ .registered txId nodeId :: after)
    (votes : ∀ before after, history = before ++ .registered txId nodeId :: after →
      .acked txId nodeId ∈ after ∨ ∃ p ∈ tx.participants, p.nodeId = nodeId ∧ p.prepared = false) :
    .acked txId nodeId ∈ after ∨ ∃ p ∈ next.participants, p.nodeId = nodeId ∧ p.prepared = false := by
  rcases split_append split with ⟨middle, old, rfl⟩ | new
  · rcases votes before middle old with acked | ⟨p, member, own, unprepared⟩
    · exact Or.inl (mem_append_left _ acked)
    · cases moves with
      | same => exact Or.inr ⟨p, member, own, unprepared⟩
      | settles state isOpen voted => exact Or.inr ⟨p, member, own, unprepared⟩
      | registers nodeId endpoint active =>
        exact Or.inr ⟨p, mem_append_left _ member, own, unprepared⟩
      | acks voter =>
        by_cases same : nodeId = voter
        · rw [same]
          exact Or.inl (by simp)
        · refine Or.inr ⟨p, mem_votes member ?_, own, unprepared⟩
          rw [own]
          exact same
  · cases moves with
    | same => cases new
    | settles state isOpen voted => cases new
    | registers node endpoint active =>
      simp only [mem_singleton, Event.registered.injEq, true_and] at new
      subst new
      exact Or.inr ⟨_, mem_append_right _ (mem_singleton.mpr rfl), rfl, rfl⟩
    | acks voter => simp at new

theorem voted (committed : next.state = .committed)
    (before : tx.state = .committed → AllAcked history txId)
    (votes : ∀ before nodeId after, history = before ++ .registered txId nodeId :: after →
      .acked txId nodeId ∈ after ∨ ∃ p ∈ tx.participants, p.nodeId = nodeId ∧ p.prepared = false) :
    AllAcked (history ++ events) txId := by
  cases moves with
  | same =>
    rw [append_nil]
    exact before committed
  | settles state isOpen allPrepared =>
    rw [append_nil]
    intro left nodeId right split
    rcases votes left nodeId right split with acked | ⟨p, member, -, unprepared⟩
    · exact acked
    · have prepared := all_eq_true.mp (allPrepared committed) p member
      rw [unprepared] at prepared
      cases prepared
  | registers nodeId endpoint active =>
    rw [active] at committed
    cases committed
  | acks voter =>
    refine allAcked_append (before ?_) (by simp)
    rcases receiveAck_state tx voter with same | ⟨-, prepared⟩
    · rw [← same]
      exact committed
    · rw [committed] at prepared
      cases prepared

end Moves

/-- A manager with the history of its transactions. -/
structure Traced (τ : Type) [LinearOrder τ] where
  manager : TransactionManager τ
  issued : List τ
  history : List (Event τ)
  ended : List (τ × TxState)

inductive Call (τ : Type) where
  | begin (now : Nat) (txId : τ) (cubeName : String)
  | registerParticipant (txId : τ) (nodeId endpoint : String)
  | receivePrepareAck (txId : τ) (nodeId : String)
  | prepareCommit (now : Nat) (txId : τ)
  | markCommitted (txId : τ)
  | rollback (txId : τ)
  | cleanupTimedOut (now : Nat)

variable [LinearOrder τ]

def finals (m : TransactionManager τ) : List (τ × TxState) :=
  m.transactions.entries.filterMap fun e =>
    if e.2.state.isOpen then none else some (e.1, e.2.state)

section Performing

variable [ToString τ]

def onOk {α : Type} (event : Event τ) : Except String α → List (Event τ)
  | .ok _ => [event]
  | .error _ => []

def perform (m : TransactionManager τ) : Call τ → TransactionManager τ × List (Event τ)
  | .begin now txId cubeName => (m.begin now txId cubeName, [])
  | .registerParticipant txId nodeId endpoint =>
    let (m, result) := m.registerParticipant txId nodeId endpoint
    (m, onOk (.registered txId nodeId) result)
  | .receivePrepareAck txId nodeId =>
    let (m, result) := m.receivePrepareAck txId nodeId
    (m, onOk (.acked txId nodeId) result)
  | .prepareCommit now txId => ((m.prepareCommit now txId).1, [])
  | .markCommitted txId => ((m.markCommitted txId).1, [])
  | .rollback txId => ((m.rollback txId).1, [])
  | .cleanupTimedOut now => ((m.cleanupTimedOut now).1, [])

def issues (issued : List τ) : Call τ → Option (List τ)
  | .begin _ txId _ => if txId ∈ issued then none else some (issued ++ [txId])
  | _ => some issued

def step (s : Traced τ) (c : Call τ) : Option (Traced τ) :=
  (issues s.issued c).map fun issued =>
    let (manager, events) := perform s.manager c
    ⟨manager, issued, s.history ++ events, s.ended ++ finals manager⟩

end Performing

def start (timeout : Nat) : Traced τ := ⟨.withTimeout timeout, [], [], []⟩

/-- Final states are final, and commits have every vote. -/
structure Orderly (s : Traced τ) : Prop where
  final : ∀ txId state, (txId, state) ∈ s.ended →
    ∀ now, s.manager.getState txId = some now → now = state
  voted : ∀ txId, s.manager.getState txId = some .committed → AllAcked s.history txId

/-- Commits find every vote, and ended ones stay ended. -/
def Checked (s : Traced τ) : Call τ → Prop
  | .markCommitted txId => ∀ tx ∈ s.manager.transactions.get? txId,
      tx.state = .committed ∨ (tx.state.isOpen = true ∧ tx.participants.all (·.prepared) = true)
  | .rollback txId => ∀ tx ∈ s.manager.transactions.get? txId,
      tx.state = .rolledBack ∨ tx.state.isOpen = true
  | _ => True

structure Inv (s : Traced τ) : Prop where
  known : ∀ txId tx, s.manager.transactions.get? txId = some tx → txId ∈ s.issued
  recorded : ∀ txId nodeId, .registered txId nodeId ∈ s.history → txId ∈ s.issued
  /-- A registration without a later vote has a participant that is not prepared. -/
  votes : ∀ txId tx, s.manager.transactions.get? txId = some tx →
    ∀ before nodeId after, s.history = before ++ .registered txId nodeId :: after →
      .acked txId nodeId ∈ after ∨ ∃ p ∈ tx.participants, p.nodeId = nodeId ∧ p.prepared = false
  voted : ∀ txId tx, s.manager.transactions.get? txId = some tx → tx.state = .committed →
    AllAcked s.history txId
  endedKnown : ∀ txId state, (txId, state) ∈ s.ended → txId ∈ s.issued ∧ state.isOpen = false
  final : ∀ txId state, (txId, state) ∈ s.ended →
    ∀ tx, s.manager.transactions.get? txId = some tx → tx.state = state

variable {s : Traced τ}

theorem Inv.orderly (inv : Inv s) : Orderly s := by
  refine ⟨?_, ?_⟩
  · intro txId state member now current
    obtain ⟨tx, found, rfl⟩ := Option.map_eq_some_iff.mp current
    exact inv.final txId state member tx found
  · intro txId current
    obtain ⟨tx, found, committed⟩ := Option.map_eq_some_iff.mp current
    exact inv.voted txId tx found committed

variable {m : TransactionManager τ}

theorem mem_finals {txId : τ} {state : TxState} : (txId, state) ∈ finals m ↔
      ∃ tx, m.transactions.get? txId = some tx ∧ tx.state = state ∧ state.isOpen = false := by
  simp only [finals, mem_filterMap, Prod.exists]
  constructor
  · rintro ⟨k, tx, member, found⟩
    split at found
    · cases found
    · next closed =>
      cases found
      exact ⟨tx, (m.transactions.mem_entries_iff txId tx).mp member, rfl, by simpa using closed⟩
  · rintro ⟨tx, found, rfl, closed⟩
    refine ⟨txId, tx, (m.transactions.mem_entries_iff txId tx).mpr found, ?_⟩
    simp [closed]

def Since (s : Traced τ) (issued : List τ) (events : List (Event τ)) (k : τ)
    (next : Transaction τ) : Prop :=
  (k ∉ s.issued ∧ k ∈ issued ∧ next.state = .active) ∨
    ∃ tx, s.manager.transactions.get? k = some tx ∧
      ((next = tx ∧ ∀ nodeId, .registered k nodeId ∉ events) ∨ Moves k tx next events)

theorem inv_since (inv : Inv s) {manager : TransactionManager τ} {events : List (Event τ)}
    {issued : List τ} (more : ∀ k ∈ s.issued, k ∈ issued)
    (since : ∀ k next, manager.transactions.get? k = some next → Since s issued events k next)
    (recorded : ∀ k nodeId, .registered k nodeId ∈ events → k ∈ s.issued) :
    Inv ⟨manager, issued, s.history ++ events, s.ended ++ finals manager⟩ := by
  have known : ∀ k next, manager.transactions.get? k = some next → k ∈ issued := by
    intro k next found
    obtain ⟨-, new, -⟩ | ⟨tx, before, -⟩ := since k next found
    · exact new
    · exact more k (inv.known k tx before)
  have inHistory : ∀ k nodeId, .registered k nodeId ∈ s.history ++ events → k ∈ s.issued := by
    intro k nodeId member
    exact (mem_append.mp member).elim (inv.recorded k nodeId) (recorded k nodeId)
  refine ⟨known, fun k nodeId member => more k (inHistory k nodeId member), ?_, ?_, ?_, ?_⟩
  · intro k next found before nodeId after split
    obtain ⟨fresh, -⟩ | ⟨tx, earlier, ⟨rfl, none⟩ | moves⟩ := since k next found
    · dsimp only at split
      exact absurd (inHistory k nodeId (by simp [split])) fresh
    · rcases split_append split with ⟨middle, old, rfl⟩ | new
      · exact (inv.votes k next earlier before nodeId middle old).imp_left (mem_append_left _)
      · exact absurd new (none nodeId)
    · exact moves.waits split fun left right => inv.votes k tx earlier left nodeId right
  · intro k next found committed
    obtain ⟨-, -, active⟩ | ⟨tx, earlier, ⟨rfl, none⟩ | moves⟩ := since k next found
    · cases active.symm.trans committed
    · exact allAcked_append (inv.voted k next earlier committed) none
    · exact moves.voted committed (inv.voted k tx earlier) (inv.votes k tx earlier)
  · intro k state member
    rcases mem_append.mp member with old | new
    · exact (inv.endedKnown k state old).imp_left (more k)
    · obtain ⟨next, found, -, closed⟩ := mem_finals.mp new
      exact ⟨known k next found, closed⟩
  · intro k state member next found
    rcases mem_append.mp member with old | new
    · obtain ⟨issuedBefore, closed⟩ := inv.endedKnown k state old
      obtain ⟨fresh, -⟩ | ⟨tx, earlier, ⟨rfl, -⟩ | moves⟩ := since k next found
      · exact absurd issuedBefore fresh
      · exact inv.final k state old next earlier
      · have final := inv.final k state old tx earlier
        rw [moves.state_of_closed (by rw [final]; exact closed), final]
    · obtain ⟨same, found', rfl, -⟩ := mem_finals.mp new
      cases found.symm.trans found'
      rfl

variable [ToString τ]

variable {α : Type}

theorem inv_onTx (inv : Inv s) (txId : τ)
    (f : Transaction τ → Transaction τ × Except String α) (events : List (Event τ))
    (moves : ∀ tx, s.manager.transactions.get? txId = some tx → Moves txId tx (f tx).1 events)
    (recorded : ∀ k nodeId, .registered k nodeId ∈ events → k = txId ∧ ∃ tx,
      s.manager.transactions.get? txId = some tx) :
    Inv ⟨(s.manager.onTx txId f).1, s.issued, s.history ++ events,
      s.ended ++ finals (s.manager.onTx txId f).1⟩ := by
  refine inv_since inv (fun _ member => member) (fun k next found => .inr ?_) ?_
  · rw [TransactionManager.get?_onTx] at found
    split at found
    · next same =>
      subst same
      obtain ⟨tx, before, rfl⟩ := Option.map_eq_some_iff.mp found
      exact ⟨tx, before, .inr (moves tx before)⟩
    · next other =>
      exact ⟨next, found, .inl ⟨rfl, fun nodeId member => other (recorded k nodeId member).1⟩⟩
  · intro k nodeId member
    obtain ⟨rfl, tx, found⟩ := recorded k nodeId member
    exact inv.known k tx found

theorem onTx_result {txId : τ} {tx : Transaction τ} (found : m.transactions.get? txId = some tx)
    (f : Transaction τ → Transaction τ × Except String α) : (m.onTx txId f).2 = (f tx).2 := by
  simp only [TransactionManager.onTx, OrdMap.update_of_some found]

theorem onOk_onTx {txId : τ} {f : Transaction τ → Transaction τ × Except String α}
    {event e : Event τ} (member : e ∈ onOk event (m.onTx txId f).2) :
    e = event ∧ ∃ tx, m.transactions.get? txId = some tx := by
  cases result : (m.onTx txId f).2 with
  | error message =>
    rw [result] at member
    cases member
  | ok value =>
    rw [result] at member
    obtain ⟨tx, found, -⟩ := TransactionManager.onTx_ok result
    exact ⟨mem_singleton.mp member, tx, found⟩

theorem inv_registerParticipant (inv : Inv s) (txId : τ) (nodeId endpoint : String) :
    Inv ⟨(s.manager.registerParticipant txId nodeId endpoint).1, s.issued,
      s.history ++ onOk (.registered txId nodeId)
        (s.manager.registerParticipant txId nodeId endpoint).2,
      s.ended ++ finals (s.manager.registerParticipant txId nodeId endpoint).1⟩ := by
  unfold TransactionManager.registerParticipant
  refine inv_onTx inv txId _ _ ?_ ?_
  · intro tx found
    rw [onTx_result found]
    by_cases active : tx.state = .active
    · rw [if_neg (not_not_intro active)]
      exact .registers nodeId endpoint active
    · rw [if_pos active]
      exact .same
  · intro k node member
    obtain ⟨same, found⟩ := onOk_onTx member
    cases same
    exact ⟨rfl, found⟩

theorem inv_receivePrepareAck (inv : Inv s) (txId : τ) (nodeId : String) :
    Inv ⟨(s.manager.receivePrepareAck txId nodeId).1, s.issued,
      s.history ++ onOk (.acked txId nodeId) (s.manager.receivePrepareAck txId nodeId).2,
      s.ended ++ finals (s.manager.receivePrepareAck txId nodeId).1⟩ := by
  unfold TransactionManager.receivePrepareAck
  refine inv_onTx inv txId _ _ ?_ ?_
  · intro tx found
    rw [onTx_result found]
    exact .acks nodeId
  · intro k node member
    cases (onOk_onTx member).1

theorem inv_prepareCommit (inv : Inv s) (now : Nat) (txId : τ) :
    Inv ⟨(s.manager.prepareCommit now txId).1, s.issued, s.history ++ [],
      s.ended ++ finals (s.manager.prepareCommit now txId).1⟩ := by
  refine inv_onTx inv txId _ _ ?_ nofun
  intro tx found
  simp only
  split
  · exact .same
  · next isOpen =>
    split
    · exact .settles .aborted (by simpa using isOpen) nofun
    · exact .same

omit [ToString τ] in
theorem inv_begin (inv : Inv s) (now : Nat) {txId : τ} (cubeName : String)
    (fresh : txId ∉ s.issued) :
    Inv ⟨s.manager.begin now txId cubeName, s.issued ++ [txId], s.history ++ [],
      s.ended ++ finals (s.manager.begin now txId cubeName)⟩ := by
  refine inv_since inv (fun _ member => mem_append_left _ member) (fun k next found => ?_) nofun
  dsimp only [TransactionManager.begin] at found
  rw [OrdMap.get?_insert] at found
  split at found
  · next same =>
    subst same
    cases found
    exact .inl ⟨fresh, mem_append_right _ mem_cons_self, rfl⟩
  · exact .inr ⟨next, found, .inl ⟨rfl, nofun⟩⟩

omit [ToString τ] in
theorem inv_cleanupTimedOut (inv : Inv s) (now : Nat) :
    Inv ⟨(s.manager.cleanupTimedOut now).1, s.issued, s.history ++ [],
      s.ended ++ finals (s.manager.cleanupTimedOut now).1⟩ := by
  refine inv_since inv (fun _ member => member) (fun k next found => ?_) nofun
  rw [TransactionManager.get?_cleanupTimedOut, Option.filter_eq_some_iff] at found
  exact .inr ⟨next, found.1, .inl ⟨rfl, nofun⟩⟩

theorem inv_step (s : Traced τ) (c : Call τ) (t : Traced τ) (inv : Inv s) (checked : Checked s c)
    (ok : step s c = some t) : Inv t := by
  unfold step at ok
  obtain ⟨issued, issues, rfl⟩ := Option.map_eq_some_iff.mp ok
  cases c with
  | begin now txId cubeName =>
    simp only [TxStates.issues] at issues
    split at issues
    · cases issues
    · next fresh =>
      cases issues
      exact inv_begin inv now cubeName fresh
  | registerParticipant txId nodeId endpoint =>
    cases issues
    exact inv_registerParticipant inv txId nodeId endpoint
  | receivePrepareAck txId nodeId =>
    cases issues
    exact inv_receivePrepareAck inv txId nodeId
  | prepareCommit now txId =>
    cases issues
    exact inv_prepareCommit inv now txId
  | markCommitted txId =>
    cases issues
    refine inv_onTx inv txId _ [] ?_ nofun
    intro tx found
    rcases checked tx found with committed | ⟨isOpen, voted⟩
    · have same : { tx with state := .committed } = tx := by rw [← committed]
      rw [same]
      exact .same
    · exact .settles .committed isOpen fun _ => voted
  | rollback txId =>
    cases issues
    refine inv_onTx inv txId _ [] ?_ nofun
    intro tx found
    rcases checked tx found with rolledBack | isOpen
    · have same : { tx with state := .rolledBack } = tx := by rw [← rolledBack]
      rw [same]
      exact .same
    · exact .settles .rolledBack isOpen nofun
  | cleanupTimedOut now =>
    cases issues
    exact inv_cleanupTimedOut inv now

/-- Checked runs are orderly. -/
theorem states_orderly (timeout : Nat) (calls : List (Call τ))
    (checked : Run.EveryStep step Checked (start timeout : Traced τ) calls) :
    Run.EveryState step Orderly (start timeout : Traced τ) calls := by
  have inv : Inv (start timeout : Traced τ) := by
    refine ⟨nofun, nofun, ?_, nofun, nofun, nofun⟩
    intro txId tx found
    cases found
  exact (Run.everyState_of_everyStep inv_step calls _ inv checked).imp fun _ => Inv.orderly

instance decidableChecked (s : Traced τ) (c : Call τ) : Decidable (Checked s c) := by
  cases c <;> unfold Checked <;> infer_instance

theorem states_orderly_two_votes : Run.EveryState step Orderly (start 60000 : Traced Nat)
      [.begin 0 1 "events", .registerParticipant 1 "sn-1" "a:1", .registerParticipant 1 "sn-2" "b:1",
        .receivePrepareAck 1 "sn-2", .receivePrepareAck 1 "sn-1", .prepareCommit 10 1,
        .markCommitted 1, .receivePrepareAck 1 "sn-1", .markCommitted 1, .cleanupTimedOut 20] :=
  states_orderly 60000 _ (by decide +kernel)

theorem committed_without_vote_and_rolledBack : ∃ s t : Traced Nat,
      Run.exec step (start 60000) [.begin 0 1 "events", .registerParticipant 1 "sn-1" "a:1",
        .markCommitted 1] = some s ∧
      step s (.rollback 1) = some t ∧
      s.manager.getState 1 = some .committed ∧ ¬ AllAcked s.history 1 ∧
      t.manager.getState 1 = some .rolledBack ∧ ¬ Orderly s ∧ ¬ Orderly t := by
  have unvoted : ¬ AllAcked [Event.registered 1 "sn-1"] 1 := by
    intro acked
    have vote := acked [] "sn-1" [] rfl
    cases vote
  refine ⟨_, _, rfl, rfl, by decide +kernel, unvoted, by decide +kernel, ?_, ?_⟩
  · intro orderly
    exact unvoted (orderly.voted 1 (by decide +kernel))
  · intro orderly
    have same := orderly.final 1 .committed (by decide +kernel) .rolledBack (by decide +kernel)
    cases same

end WowDb.Query.TxStates
