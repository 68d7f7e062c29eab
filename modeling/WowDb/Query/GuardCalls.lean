import WowDb.Query.ClusterGuard

/-!
# Setting and clearing the read-only state by hand

The calls of `cluster_guard.rs` in any order, and what `clear_manual_read_only` leaves.
-/
namespace WowDb.Query.ClusterGuard
open WowDb.Lib

inductive Call where
  | addReason (reason : ReadOnlyReason) (enteredAt updatedAt : Int)
  | removeReason (reason : ReadOnlyReason) (updatedAt : Int)
  | setManualReadOnly (admin : String) (comment : Option String) (enteredAt updatedAt : Int)
  | clearManualReadOnly (admin : String) (force : Bool) (updatedAt : Int)

variable (codec : GuardCodec) (percent : F64 → String)

def step (g : ClusterGuard) : Call → Option ClusterGuard
  | .addReason reason enteredAt updatedAt => some (g.addReason codec reason enteredAt updatedAt)
  | .removeReason reason updatedAt => some (g.removeReason codec reason updatedAt)
  | .setManualReadOnly admin comment enteredAt updatedAt =>
    some (g.setManualReadOnly codec admin comment enteredAt updatedAt)
  | .clearManualReadOnly admin force updatedAt =>
    some (g.clearManualReadOnly codec admin force updatedAt).1

/-- Read-only exactly with a reason, one for each source. -/
def WellFormed (state : ClusterReadOnlyState) : Prop :=
  state.Consistent ∧ state.reasons.Pairwise fun a b => a.sameSource b = false

/-- What an admin expects of a call that returns `Ok`. -/
def ClearWorks (g : ClusterGuard) (admin : String) (force : Bool) (updatedAt : Int) : Prop :=
  ∀ message, (g.clearManualReadOnly codec admin force updatedAt).2 = .ok message →
    (∀ comment, .manualOverride admin comment ∉
      (g.clearManualReadOnly codec admin force updatedAt).1.state.reasons) ∧
    (force = true → checkWriteAllowed percent
      (g.clearManualReadOnly codec admin force updatedAt).1.state = .ok ())

def IsDiskFull : ReadOnlyReason → Prop
  | .diskFull _ _ _ => True
  | .manualOverride _ _ => False

/-- Refused, or nothing is left that clearing would keep. -/
def Clearable (state : ClusterReadOnlyState) (admin : String) (force : Bool) : Prop :=
  (force = false ∧ ∃ r ∈ state.reasons, IsDiskFull r) ∨
    (∀ comment, .manualOverride admin comment ∈ state.reasons → comment = none) ∧
      (force = true → ∀ r ∈ state.reasons, r = .manualOverride admin none)

theorem sameSource_manual (r : ReadOnlyReason) (admin : String) :
    r.sameSource (.manualOverride admin none) = true ↔ r = .manualOverride admin none := by
  cases r <;> simp [ReadOnlyReason.sameSource]

theorem wellFormed_addReason {state : ClusterReadOnlyState} (formed : WellFormed state)
    (reason : ReadOnlyReason) (enteredAt updatedAt : Int) :
    WellFormed (state.addReason reason enteredAt updatedAt) := by
  refine ⟨state.consistent_addReason reason enteredAt updatedAt, ?_⟩
  refine List.pairwise_append.mpr ⟨formed.2.sublist List.filter_sublist, by simp, ?_⟩
  intro a mem b last
  obtain rfl := List.mem_singleton.mp last
  simpa using (List.mem_filter.mp mem).2

theorem wellFormed_removeReason {state : ClusterReadOnlyState} (formed : WellFormed state)
    (reason : ReadOnlyReason) (updatedAt : Int) :
    WellFormed (state.removeReason reason updatedAt) := by
  refine ⟨ClusterReadOnlyState.consistent_removeReason formed.1 reason updatedAt, ?_⟩
  have kept : (state.removeReason reason updatedAt).reasons =
      state.reasons.filter fun r => !r.sameSource reason := by
    simp only [ClusterReadOnlyState.removeReason]
    split <;> rfl
  rw [kept]
  exact formed.2.sublist List.filter_sublist

theorem wellFormed_step (g : ClusterGuard) (call : Call) (h : ClusterGuard)
    (formed : WellFormed g.state) (taken : step codec g call = some h) : WellFormed h.state := by
  cases call with
  | addReason reason enteredAt updatedAt =>
    cases taken
    exact wellFormed_addReason formed reason enteredAt updatedAt
  | removeReason reason updatedAt =>
    cases taken
    exact wellFormed_removeReason formed reason updatedAt
  | setManualReadOnly admin comment enteredAt updatedAt =>
    cases taken
    exact wellFormed_addReason formed _ enteredAt updatedAt
  | clearManualReadOnly admin force updatedAt =>
    cases taken
    simp only [clearManualReadOnly]
    split
    · exact formed
    · exact wellFormed_removeReason formed _ updatedAt

theorem mem_cleared (state : ClusterReadOnlyState) (admin : String) (updatedAt : Int)
    (r : ReadOnlyReason) :
    r ∈ (state.removeReason (.manualOverride admin none) updatedAt).reasons ↔
      r ∈ state.reasons ∧ r ≠ .manualOverride admin none := by
  rw [ClusterReadOnlyState.mem_removeReason, ← Bool.not_eq_true, sameSource_manual]

theorem checkWriteAllowed_ok {state : ClusterReadOnlyState} (formed : WellFormed state) :
    checkWriteAllowed percent state = .ok () ↔ ∀ r, r ∉ state.reasons := by
  rw [checkWriteAllowed, formed.1, ← List.eq_nil_iff_forall_not_mem]
  cases state.reasons <;> simp

theorem clearWorks_iff {g : ClusterGuard} (formed : WellFormed g.state) (admin : String)
    (force : Bool) (updatedAt : Int) :
    ClearWorks codec percent g admin force updatedAt ↔ Clearable g.state admin force := by
  unfold ClearWorks Clearable clearManualReadOnly
  generalize named : g.state.reasons.any _ = hasDiskFull
  have full : hasDiskFull = true ↔ ∃ r ∈ g.state.reasons, IsDiskFull r := by
    rw [← named, List.any_eq_true]
    refine exists_congr fun r => and_congr_right fun _ => ?_
    cases r <;> simp [IsDiskFull]
  rw [← full]
  dsimp only
  split
  · next refused =>
    rw [Bool.and_eq_true, Bool.not_eq_true'] at refused
    exact iff_of_true nofun (.inl ⟨refused.2, refused.1⟩)
  · next accepted =>
    rw [Bool.and_eq_true, Bool.not_eq_true', and_comm] at accepted
    rw [or_iff_right accepted]
    have after := wellFormed_removeReason formed (.manualOverride admin none) updatedAt
    simp only [removeReason, replicate, checkWriteAllowed_ok percent after, mem_cleared, not_and,
      not_not, Except.ok.injEq, forall_eq', ReadOnlyReason.manualOverride.injEq, true_and]

/-- Clearing works exactly where nothing would be left. -/
theorem clearing_iff (raft : MetaStateMachine) (calls : List Call) :
    Run.EveryState (step codec) (fun g => WellFormed g.state ∧ ∀ admin force updatedAt,
        ClearWorks codec percent g admin force updatedAt ↔ Clearable g.state admin force)
      (.new raft) calls := by
  have start : WellFormed (new raft).state := ⟨rfl, List.Pairwise.nil⟩
  refine (Run.everyState_of_step (wellFormed_step codec) calls _ start).imp fun g formed => ?_
  exact ⟨formed, clearWorks_iff codec percent formed⟩

theorem commented_override_stays :
    ∃ g, Run.exec (step jsonGuard) (.new .default)
        [.setManualReadOnly "root" (some "backup") 1 1] = some g ∧
      (g.clearManualReadOnly jsonGuard "root" true 2).2.isOk = true ∧
      (g.clearManualReadOnly jsonGuard "root" true 2).1.state.reasons =
        [.manualOverride "root" (some "backup")] ∧
      (checkWriteAllowed (fun _ => "")
        (g.clearManualReadOnly jsonGuard "root" true 2).1.state).isOk = false := by
  exact ⟨_, rfl, rfl, by decide, by decide⟩

end WowDb.Query.ClusterGuard
