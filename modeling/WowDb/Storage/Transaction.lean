import WowDb.Lib.OrdMap
import WowDb.Lib.Run

/-!
# Transactions on a storage node

`storage-node/src/transaction.rs`.
-/
namespace WowDb.Storage
open WowDb.Lib

inductive SnTxState where
  | active | prepared | committed | rolledBack
  deriving DecidableEq

def SnTxState.debug : SnTxState → String
  | .active => "Active"
  | .prepared => "Prepared"
  | .committed => "Committed"
  | .rolledBack => "RolledBack"

def SnTxState.isOpen : SnTxState → Bool
  | .active | .prepared => true
  | .committed | .rolledBack => false

theorem isOpen_rolledBack : SnTxState.isOpen .rolledBack = false := rfl

structure SnTransaction (τ : Type) where
  txId : τ
  state : SnTxState
  tabletIds : List String
  prepareLsn : Option UInt64
  startedAt : Nat

def SnTransaction.new {τ : Type} (txId : τ) (now : Nat) : SnTransaction τ :=
  ⟨txId, .active, [], none, now⟩

structure SnTransactionManager (τ : Type) [LinearOrder τ] where
  transactions : OrdMap τ (SnTransaction τ)
  timeout : Nat

namespace SnTransactionManager

variable {τ : Type} [LinearOrder τ] [ToString τ]

def withTimeout (timeout : Nat) : SnTransactionManager τ := ⟨.empty, timeout⟩

def new : SnTransactionManager τ := withTimeout 120000

def timedOut (m : SnTransactionManager τ) (now : Nat) (tx : SnTransaction τ) : Bool :=
  decide (m.timeout < now - tx.startedAt)

def onTx {α : Type} (m : SnTransactionManager τ) (txId : τ)
    (f : SnTransaction τ → SnTransaction τ × Except String α) :
    SnTransactionManager τ × Except String α :=
  let (transactions, result) := m.transactions.update txId (.error s!"TX {txId} not found") f
  ({ m with transactions }, result)

def register (m : SnTransactionManager τ) (now : Nat) (txId : τ) : SnTransactionManager τ :=
  match m.transactions.get? txId with
  | some _ => m
  | none => { m with transactions := m.transactions.insert txId (.new txId now) }

def addTablet (m : SnTransactionManager τ) (txId : τ) (tabletId : String) :
    SnTransactionManager τ × Except String Unit :=
  m.onTx txId fun tx =>
    if tabletId ∈ tx.tabletIds then (tx, .ok ())
    else ({ tx with tabletIds := tx.tabletIds ++ [tabletId] }, .ok ())

def prepare (m : SnTransactionManager τ) (now : Nat) (txId : τ) (lsn : UInt64) :
    SnTransactionManager τ × Except String Unit :=
  m.onTx txId fun tx =>
    let state := tx.state.debug
    if tx.state ≠ .active then (tx, .error s!"TX {txId} already in state {state}")
    else if m.timedOut now tx then
      ({ tx with state := .rolledBack }, .error s!"TX {txId} timed out during prepare")
    else ({ tx with state := .prepared, prepareLsn := some lsn }, .ok ())

def commit (m : SnTransactionManager τ) (txId : τ) :
    SnTransactionManager τ × Except String (List String) :=
  m.onTx txId fun tx =>
    let state := tx.state.debug
    match tx.state with
    | .prepared => ({ tx with state := .committed }, .ok tx.tabletIds)
    | .committed => (tx, .ok tx.tabletIds)
    | _ => (tx, .error s!"Cannot commit TX {txId} in state {state}")

def rollback (m : SnTransactionManager τ) (txId : τ) :
    SnTransactionManager τ × Except String (List String) :=
  m.onTx txId fun tx =>
    if tx.state = .committed then
      (tx, .error s!"Cannot rollback already committed TX {txId}")
    else ({ tx with state := .rolledBack }, .ok tx.tabletIds)

def expires (m : SnTransactionManager τ) (now : Nat) (tx : SnTransaction τ) : Bool :=
  tx.state.isOpen && m.timedOut now tx

def cleanupTimedOut (m : SnTransactionManager τ) (now : Nat) : SnTransactionManager τ × List τ :=
  let aged := m.transactions.filterMap fun _ tx =>
    some (if m.expires now tx then { tx with state := .rolledBack } else tx)
  ({ m with transactions := aged.retain fun _ tx => tx.state.isOpen },
    (m.transactions.entries.filter fun e => m.expires now e.2).map fun e => e.2.txId)

def getState (m : SnTransactionManager τ) (txId : τ) : Option SnTxState :=
  (m.transactions.get? txId).map (·.state)

def activeCount (m : SnTransactionManager τ) : Nat :=
  (m.transactions.entries.filter fun e => e.2.state.isOpen).length

theorem get?_onTx {α : Type} (m : SnTransactionManager τ) (txId k : τ)
    (f : SnTransaction τ → SnTransaction τ × Except String α) :
    (m.onTx txId f).1.transactions.get? k =
      if k = txId then (m.transactions.get? txId).map fun tx => (f tx).1
      else m.transactions.get? k :=
  OrdMap.get?_update m.transactions txId k _ f

omit [ToString τ] in
theorem get?_register (m : SnTransactionManager τ) (now : Nat) (txId k : τ) :
    (m.register now txId).transactions.get? k =
      if k = txId then some ((m.transactions.get? txId).getD (.new txId now))
      else m.transactions.get? k := by
  unfold register
  cases found : m.transactions.get? txId with
  | none =>
    rw [OrdMap.get?_insert]
    rfl
  | some tx =>
    by_cases same : k = txId
    · simp [same, found]
    · simp [same]

omit [ToString τ] in
theorem get?_cleanupTimedOut (m : SnTransactionManager τ) (now : Nat) (k : τ) :
    (m.cleanupTimedOut now).1.transactions.get? k =
      (m.transactions.get? k).filter fun tx => tx.state.isOpen && !m.timedOut now tx := by
  unfold cleanupTimedOut expires
  exact OrdMap.get?_sweep (fun tx => tx.state.isOpen) (m.timedOut now)
    (fun tx => { tx with state := .rolledBack }) (fun _ => isOpen_rolledBack) m.transactions k

theorem onTx_result {α : Type} {m : SnTransactionManager τ} {txId : τ} {tx : SnTransaction τ}
    (found : m.transactions.get? txId = some tx)
    (f : SnTransaction τ → SnTransaction τ × Except String α) : (m.onTx txId f).2 = (f tx).2 := by
  simp only [onTx, OrdMap.update_of_some found]

theorem onTx_missing {α : Type} {m : SnTransactionManager τ} {txId : τ}
    (missing : m.transactions.get? txId = none)
    (f : SnTransaction τ → SnTransaction τ × Except String α) :
    (m.onTx txId f).2 = .error s!"TX {txId} not found" := by
  simp only [onTx, OrdMap.update_of_none missing]

variable (m : SnTransactionManager τ) (txId : τ)

omit [ToString τ] in
theorem getState_register (now : Nat) :
    (m.register now txId).getState txId = some ((m.getState txId).getD .active) := by
  rw [getState, get?_register, if_pos rfl, getState]
  cases m.transactions.get? txId <;> rfl

theorem getState_onTx {α : Type} (f : SnTransaction τ → SnTransaction τ × Except String α) :
    (m.onTx txId f).1.getState txId = (m.transactions.get? txId).map fun tx => (f tx).1.state := by
  rw [getState, get?_onTx, if_pos rfl, Option.map_map]
  rfl

theorem getState_addTablet (tabletId : String) :
    (m.addTablet txId tabletId).1.getState txId = m.getState txId := by
  rw [addTablet, getState_onTx, getState]
  congr 1
  funext tx
  split <;> rfl

theorem getState_commit : (m.commit txId).1.getState txId = (m.getState txId).map fun state =>
      if state = .prepared then .committed else state := by
  rw [commit, getState_onTx, getState, Option.map_map]
  congr 1
  funext tx
  cases state : tx.state <;> simp [state]

theorem getState_rollback : (m.rollback txId).1.getState txId = (m.getState txId).map fun state =>
      if state = .committed then .committed else .rolledBack := by
  rw [rollback, getState_onTx, getState, Option.map_map]
  congr 1
  funext tx
  cases state : tx.state <;> simp [state]

theorem getState_prepare (now : Nat) (lsn : UInt64) :
    (m.prepare now txId lsn).1.getState txId = (m.transactions.get? txId).map fun tx =>
      if tx.state ≠ .active then tx.state
      else if m.timedOut now tx then .rolledBack else .prepared := by
  rw [prepare, getState_onTx]
  congr 1
  funext tx
  split
  · rfl
  · split <;> rfl

omit [ToString τ] in
theorem getState_cleanupTimedOut (now : Nat) : (m.cleanupTimedOut now).1.getState txId =
      ((m.transactions.get? txId).filter fun tx => tx.state.isOpen && !m.timedOut now tx).map
        (·.state) := by
  rw [getState, get?_cleanupTimedOut]

theorem commit_isOk : (m.commit txId).2.isOk = true ↔
      m.getState txId = some .prepared ∨ m.getState txId = some .committed := by
  cases found : m.transactions.get? txId with
  | none => simp [commit, onTx_missing found, getState, found, Except.isOk, Except.toBool]
  | some tx =>
    rw [commit, onTx_result found, getState, found]
    cases state : tx.state <;> simp [state, Except.isOk, Except.toBool]

end SnTransactionManager

structure Participant (τ : Type) [LinearOrder τ] where
  manager : SnTransactionManager τ
  rolledBack : Bool
  committed : Bool

namespace Participant
open SnTransactionManager

local instance lawfulBEq {κ : Type} [LinearOrder κ] : LawfulBEq κ := inferInstance

variable {τ : Type} [LinearOrder τ] [ToString τ]

inductive Call where
  | register (now : Nat)
  | addTablet (tabletId : String)
  | prepare (now : Nat) (lsn : UInt64)
  | commit
  | rollback
  | cleanupTimedOut (now : Nat)

def fresh (timeout : Nat) : Participant τ := ⟨.withTimeout timeout, false, false⟩

def perform (txId : τ) (m : SnTransactionManager τ) : Call → SnTransactionManager τ
  | .register now => m.register now txId
  | .addTablet tabletId => (m.addTablet txId tabletId).1
  | .prepare now lsn => (m.prepare now txId lsn).1
  | .commit => (m.commit txId).1
  | .rollback => (m.rollback txId).1
  | .cleanupTimedOut now => (m.cleanupTimedOut now).1

def aborts (txId : τ) (m : SnTransactionManager τ) : Call → Bool
  | .cleanupTimedOut now => decide (txId ∈ (m.cleanupTimedOut now).2)
  | _ => false

def commits (txId : τ) (m : SnTransactionManager τ) : Call → Bool
  | .commit => (m.commit txId).2.isOk
  | _ => false

def step (txId : τ) (s : Participant τ) (c : Call) : Option (Participant τ) :=
  let manager := perform txId s.manager c
  some
    { manager
      rolledBack := s.rolledBack || aborts txId s.manager c ||
        decide (manager.getState txId = some .rolledBack)
      committed := s.committed || commits txId s.manager c }

structure Irrevocable (txId : τ) (s : Participant τ) : Prop where
  rolledBack : s.rolledBack = true → (s.manager.commit txId).2.isOk = false
  committed : s.committed = true → (s.manager.commit txId).2.isOk = true

/-- No cleanup after a commit, no prepare after a rollback. -/
def Remembers (txId : τ) (s : Participant τ) : Call → Prop
  | .cleanupTimedOut _ => s.committed = false
  | .prepare now _ => s.rolledBack = true → ∀ tx, s.manager.transactions.get? txId = some tx →
      tx.state = .active → s.manager.timedOut now tx = true
  | _ => True

theorem irrevocable_iff (txId : τ) (s : Participant τ) : Irrevocable txId s ↔
      (s.rolledBack = true → s.manager.getState txId ≠ some .prepared ∧
        s.manager.getState txId ≠ some .committed) ∧
      (s.committed = true → s.manager.getState txId = some .prepared ∨
        s.manager.getState txId = some .committed) := by
  have ok := s.manager.commit_isOk txId
  constructor
  · intro irrevocable
    refine ⟨fun decided => ?_, fun decided => ok.mp (irrevocable.committed decided)⟩
    have fails := irrevocable.rolledBack decided
    refine ⟨fun state => ?_, fun state => ?_⟩
    · rw [ok.mpr (Or.inl state)] at fails
      cases fails
    · rw [ok.mpr (Or.inr state)] at fails
      cases fails
  · rintro ⟨rolledBack, committed⟩
    refine ⟨fun decided => ?_, fun decided => ok.mpr (committed decided)⟩
    rw [Bool.eq_false_iff]
    intro succeeds
    exact (ok.mp succeeds).elim (rolledBack decided).1 (rolledBack decided).2

structure OnRecord (txId : τ) (s : Participant τ) : Prop where
  keyed : ∀ k tx, s.manager.transactions.get? k = some tx → tx.txId = k
  committed : s.committed = true → s.manager.getState txId = some .committed

omit [ToString τ] in
theorem onRecord_fresh (txId : τ) (timeout : Nat) : OnRecord txId (fresh timeout) where
  keyed _ _ found := by cases found
  committed decided := by cases decided

theorem keyed_onTx {m : SnTransactionManager τ}
    (keyed : ∀ k tx, m.transactions.get? k = some tx → tx.txId = k) {α : Type} (txId : τ)
    {f : SnTransaction τ → SnTransaction τ × Except String α} (same : ∀ tx, (f tx).1.txId = tx.txId) :
    ∀ k tx, (m.onTx txId f).1.transactions.get? k = some tx → tx.txId = k := by
  intro k tx found
  rw [get?_onTx] at found
  split at found
  · next here =>
    obtain ⟨old, before, rfl⟩ := Option.map_eq_some_iff.mp found
    rw [same, here]
    exact keyed txId old before
  · exact keyed k tx found

theorem keyed_perform {m : SnTransactionManager τ}
    (keyed : ∀ k tx, m.transactions.get? k = some tx → tx.txId = k) (txId : τ) (c : Call) :
    ∀ k tx, (perform txId m c).transactions.get? k = some tx → tx.txId = k := by
  cases c with
  | register now =>
    intro k tx found
    rw [perform, get?_register] at found
    split at found
    · next here =>
      rw [here]
      cases before : m.transactions.get? txId with
      | none =>
        rw [before] at found
        cases found
        rfl
      | some old =>
        rw [before] at found
        cases found
        exact keyed txId old before
    · exact keyed k tx found
  | addTablet tabletId =>
    refine keyed_onTx keyed txId fun tx => ?_
    split <;> rfl
  | prepare now lsn =>
    refine keyed_onTx keyed txId fun tx => ?_
    dsimp only
    split
    · rfl
    · split <;> rfl
  | commit =>
    refine keyed_onTx keyed txId fun tx => ?_
    cases tx.state <;> rfl
  | rollback =>
    refine keyed_onTx keyed txId fun tx => ?_
    split <;> rfl
  | cleanupTimedOut now =>
    intro k tx found
    rw [perform, get?_cleanupTimedOut, Option.filter_eq_some_iff] at found
    exact keyed k tx found.1

omit [ToString τ] in
theorem getState_of_aborted {m : SnTransactionManager τ}
    (keyed : ∀ k tx, m.transactions.get? k = some tx → tx.txId = k) {txId : τ} {now : Nat}
    (aborted : txId ∈ (m.cleanupTimedOut now).2) :
    (m.cleanupTimedOut now).1.getState txId = none := by
  obtain ⟨⟨k, tx⟩, listed, rfl⟩ := List.mem_map.mp aborted
  obtain ⟨member, expired⟩ := List.mem_filter.mp listed
  have found := (OrdMap.mem_entries_iff _ _ _).mp member
  have late := (Bool.and_eq_true _ _ ▸ expired : tx.state.isOpen = true ∧ m.timedOut now tx = true).2
  rw [getState_cleanupTimedOut, keyed k tx found, found]
  simp [Option.filter, late]

variable {s t : Participant τ}

theorem irrevocable_of_plain_call {txId : τ} (record : OnRecord txId s)
    (irrevocable : Irrevocable txId s) {c : Call} (ok : step txId s c = some t)
    (plain : (∃ now, c = .register now) ∨ (∃ tabletId, c = .addTablet tabletId) ∨ c = .commit ∨ c =
      .rollback) : Irrevocable txId t := by
  obtain rfl := Option.some.inj ok
  have onRecord := record.committed
  rw [irrevocable_iff] at irrevocable ⊢
  have succeeds := s.manager.commit_isOk txId
  rcases plain with ⟨now, rfl⟩ | ⟨tabletId, rfl⟩ | rfl | rfl
  all_goals
    simp only [perform, aborts, commits, getState_register, getState_addTablet, getState_commit,
      getState_rollback]
    cases found : s.manager.getState txId with
    | none => simp_all
    | some state => cases state <;> simp_all

theorem irrevocable_prepare_iff {txId : τ} (record : OnRecord txId s)
    (irrevocable : Irrevocable txId s) {now : Nat} {lsn : UInt64}
    (ok : step txId s (.prepare now lsn) = some t) :
    Irrevocable txId t ↔ Remembers txId s (.prepare now lsn) := by
  obtain rfl := Option.some.inj ok
  have onRecord := record.committed
  rw [irrevocable_iff] at irrevocable ⊢
  simp only [perform, aborts, commits, getState_prepare, Remembers]
  rw [getState] at onRecord irrevocable
  cases found : s.manager.transactions.get? txId with
  | none => simp_all
  | some tx =>
    cases state : tx.state with
    | active => cases late : s.manager.timedOut now tx <;> simp_all
    | prepared => simp_all
    | committed => simp_all
    | rolledBack => simp_all

theorem irrevocable_cleanup_iff {txId : τ} (record : OnRecord txId s)
    (irrevocable : Irrevocable txId s) {now : Nat}
    (ok : step txId s (.cleanupTimedOut now) = some t) :
    Irrevocable txId t ↔ Remembers txId s (.cleanupTimedOut now) := by
  obtain rfl := Option.some.inj ok
  have onRecord := record.committed
  rw [irrevocable_iff] at irrevocable ⊢
  simp only [perform, aborts, commits, Remembers]
  by_cases aborted : txId ∈ (s.manager.cleanupTimedOut now).2
  · simp [getState_of_aborted record.keyed aborted]
  · have kept := getState_cleanupTimedOut s.manager txId now
    rw [getState] at onRecord irrevocable
    cases found : s.manager.transactions.get? txId with
    | none => simp_all
    | some tx =>
      cases state : tx.state with
      | active => cases late : s.manager.timedOut now tx <;> simp_all [Option.filter, SnTxState.isOpen]
      | prepared => cases late : s.manager.timedOut now tx <;> simp_all [Option.filter, SnTxState.isOpen]
      | committed => simp_all [Option.filter, SnTxState.isOpen]
      | rolledBack => simp_all [Option.filter, SnTxState.isOpen]

theorem irrevocable_step_iff {txId : τ} (record : OnRecord txId s)
    (irrevocable : Irrevocable txId s) {c : Call} (ok : step txId s c = some t) :
    Irrevocable txId t ↔ Remembers txId s c := by
  cases c with
  | prepare now lsn => exact irrevocable_prepare_iff record irrevocable ok
  | cleanupTimedOut now => exact irrevocable_cleanup_iff record irrevocable ok
  | register now =>
    exact iff_of_true (irrevocable_of_plain_call record irrevocable ok (Or.inl ⟨now, rfl⟩)) trivial
  | addTablet tabletId =>
    exact iff_of_true
      (irrevocable_of_plain_call record irrevocable ok (Or.inr (Or.inl ⟨tabletId, rfl⟩))) trivial
  | commit =>
    exact iff_of_true
      (irrevocable_of_plain_call record irrevocable ok (Or.inr (Or.inr (Or.inl rfl)))) trivial
  | rollback =>
    exact iff_of_true
      (irrevocable_of_plain_call record irrevocable ok (Or.inr (Or.inr (Or.inr rfl)))) trivial

theorem getState_perform_of_committed {txId : τ} {m : SnTransactionManager τ}
    (committed : m.getState txId = some .committed) (c : Call) :
    (perform txId m c).getState txId = some .committed ∨ (perform txId m c).getState txId = none := by
  cases c with
  | register now => simp [perform, getState_register, committed]
  | addTablet tabletId => simp [perform, getState_addTablet, committed]
  | commit => simp [perform, getState_commit, committed]
  | rollback => simp [perform, getState_rollback, committed]
  | prepare now lsn =>
    obtain ⟨tx, found, state⟩ := Option.map_eq_some_iff.mp committed
    simp [perform, getState_prepare, found, state]
  | cleanupTimedOut now =>
    obtain ⟨tx, found, state⟩ := Option.map_eq_some_iff.mp committed
    simp [perform, getState_cleanupTimedOut, found, state, Option.filter, SnTxState.isOpen]

theorem onRecord_step {txId : τ} (record : OnRecord txId s) {c : Call}
    (irrevocable : Irrevocable txId t) (ok : step txId s c = some t) : OnRecord txId t := by
  have after := ((irrevocable_iff txId t).mp irrevocable).2
  obtain rfl := Option.some.inj ok
  refine ⟨keyed_perform record.keyed txId c, fun decided => ?_⟩
  rcases Bool.or_eq_true_iff.mp decided with before | now
  · rcases getState_perform_of_committed (record.committed before) c with still | forgotten
    · exact still
    · rcases after decided with prepared | committed
      · rw [forgotten] at prepared
        cases prepared
      · exact committed
  · cases c with
    | commit =>
      rcases (s.manager.commit_isOk txId).mp now with prepared | committed
      · simp [perform, getState_commit, prepared]
      · simp [perform, getState_commit, committed]
    | _ => cases now

/-- Exactly when decisions are remembered. -/
theorem decisions_irrevocable_iff (txId : τ) (timeout : Nat) (calls : List Call) :
    Run.EveryState (step txId) (Irrevocable txId) (fresh timeout) calls ↔
      Run.EveryStep (step txId) (Remembers txId) (fresh timeout) calls := by
  refine Run.everyState_iff_everyStep_between (G := fun _ _ => True) (OnRecord txId) ?_ ?_ calls _
    (onRecord_fresh txId timeout) ⟨nofun, nofun⟩ (Run.everyStep_of_forall (fun _ _ => trivial) _ calls)
  · intro s c t record _ _ irrevocable ok
    exact onRecord_step record irrevocable ok
  · intro s c t record _ irrevocable ok
    exact irrevocable_step_iff record irrevocable ok

theorem decisions_forgotten :
    (∃ s, Run.exec (step 7) (fresh 10) [.register 0, .rollback, .cleanupTimedOut 1, .register 2,
        .prepare 3 1] = some s ∧ s.rolledBack = true ∧ (s.manager.commit 7).2 = .ok []) ∧
      ∃ s, Run.exec (step 7) (fresh 10) [.register 0, .prepare 1 1, .commit, .cleanupTimedOut 2] =
        some s ∧ s.committed = true ∧ (s.manager.commit 7).2 = .error "TX 7 not found" :=
  ⟨⟨_, rfl, by decide +kernel, by decide +kernel⟩, ⟨_, rfl, by decide +kernel, by decide +kernel⟩⟩

end Participant
end WowDb.Storage
