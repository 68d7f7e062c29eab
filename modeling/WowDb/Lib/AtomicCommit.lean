import Mathlib

/-!
# Atomic commitment

One transaction over any set of nodes, seen from outside: the phase that each node is in and the
decision, if there is one.
-/
namespace WowDb.Lib.AtomicCommit

inductive Phase where
  | idle | working | ready | committed | aborted
  deriving DecidableEq

inductive Decision where
  | commit | abort
  deriving DecidableEq

structure State (ν : Type) where
  phase : ν → Phase
  decision : Option Decision

variable {ν : Type}

def initial : State ν := ⟨fun _ => .idle, none⟩

inductive Move (decision : Option Decision) : Phase → Phase → Prop where
  | join (undecided : decision ≠ some .commit) : Move decision .idle .working
  | vote : Move decision .working .ready
  | giveUp : Move decision .working .aborted
  | commit (decided : decision = some .commit) : Move decision .ready .committed
  | rollback {p : Phase} (decided : decision = some .abort) (started : p = .working ∨ p = .ready) :
    Move decision p .aborted

inductive Step : State ν → State ν → Prop where
  | nodes {s t : State ν} (same : t.decision = s.decision)
    (moved : ∀ n, t.phase n = s.phase n ∨ Move s.decision (s.phase n) (t.phase n)) : Step s t
  | decideCommit {s t : State ν} (undecided : s.decision = none) (decided : t.decision = some .commit)
    (voted : ∀ n, s.phase n = .idle ∨ s.phase n = .ready) (same : ∀ n, t.phase n = s.phase n) :
    Step s t
  | decideAbort {s t : State ν} (undecided : s.decision = none) (decided : t.decision = some .abort)
    (same : ∀ n, t.phase n = s.phase n) : Step s t

/-- Commits are decided, and only with every node ready. -/
structure Safe (s : State ν) : Prop where
  decided : ∀ n, s.phase n = .committed → s.decision = some .commit
  voted : s.decision = some .commit → ∀ n,
    s.phase n = .idle ∨ s.phase n = .ready ∨ s.phase n = .committed

theorem safe_initial : Safe (initial : State ν) := by
  constructor
  · intro n committed
    cases committed
  · intro decided
    cases decided

theorem Move.committed {decision : Option Decision} {p : Phase}
    (move : Move decision p .committed) : decision = some .commit := by
  cases move with
  | commit decided => exact decided

theorem Move.voted {p q : Phase} (move : Move (some .commit) p q)
    (before : p = .idle ∨ p = .ready ∨ p = .committed) : q = .committed := by
  cases move with
  | join undecided => exact absurd rfl undecided
  | vote => simp at before
  | giveUp => simp at before
  | commit _ => rfl
  | rollback decided _ => cases decided

theorem safe_step {s t : State ν} (safe : Safe s) (step : Step s t) : Safe t := by
  cases step with
  | nodes same moved =>
    constructor
    · intro n committed
      rw [same]
      rcases moved n with stayed | move
      · exact safe.decided n (stayed ▸ committed)
      · exact Move.committed (committed ▸ move)
    · intro decided n
      rw [same] at decided
      have before := safe.voted decided n
      rcases moved n with stayed | move
      · rw [stayed]
        exact before
      · rw [decided] at move
        exact Or.inr (Or.inr (move.voted before))
  | decideCommit undecided decided voted same =>
    constructor
    · intro _ _
      exact decided
    · intro _ n
      rw [same n]
      rcases voted n with idle | ready
      · exact Or.inl idle
      · exact Or.inr (Or.inl ready)
  | decideAbort undecided decided same =>
    constructor
    · intro n committed
      rw [same n] at committed
      have impossible := safe.decided n committed
      rw [undecided] at impossible
      cases impossible
    · intro commit
      rw [decided] at commit
      cases commit

theorem Safe.agreement {s : State ν} (safe : Safe s) {n m : ν} (committed : s.phase n = .committed) :
    s.phase m ≠ .aborted := by
  intro aborted
  rcases safe.voted (safe.decided n committed) m with other | other | other <;>
    rw [aborted] at other <;> cases other

end WowDb.Lib.AtomicCommit
