import Mathlib

/-!
# Runs of a guarded step function

A step function takes a state and an action and returns the next state, or `none` when the action is
refused.
-/
namespace WowDb.Lib.Run

variable {σ α : Type}

def exec (step : σ → α → Option σ) : σ → List α → Option σ
  | s, [] => some s
  | s, a :: rest => (step s a).bind fun t => exec step t rest

def EveryState (step : σ → α → Option σ) (Q : σ → Prop) (s : σ) (acts : List α) : Prop :=
  ∀ done t, done <+: acts → exec step s done = some t → Q t

def EveryStep (step : σ → α → Option σ) (P : σ → α → Prop) : σ → List α → Prop
  | _, [] => True
  | s, a :: rest => ∀ t, step s a = some t → P s a ∧ EveryStep step P t rest

variable {step : σ → α → Option σ}

variable {P : σ → α → Prop}

theorem everyStep_cons {s t : σ} {a : α} (h : step s a = some t) (rest : List α) :
    EveryStep step P s (a :: rest) ↔ P s a ∧ EveryStep step P t rest := by
  simp only [EveryStep, h, Option.some.injEq, forall_eq']

instance decidableEveryStep {P : σ → α → Prop} [∀ s a, Decidable (P s a)] :
    ∀ (s : σ) (acts : List α), Decidable (EveryStep step P s acts)
  | _, [] => isTrue trivial
  | s, a :: rest =>
    match h : step s a with
    | none => isTrue fun t executed => by simp [h] at executed
    | some t =>
      have := decidableEveryStep (P := P) t rest
      decidable_of_iff _ (everyStep_cons h rest).symm

theorem exec_cons_some {s t : σ} {a : α} {rest : List α} (h : exec step s (a :: rest) = some t) :
    ∃ u, step s a = some u ∧ exec step u rest = some t := by
  simpa only [exec, Option.bind_eq_some_iff] using h

theorem exec_append (s : σ) (acts more : List α) :
    exec step s (acts ++ more) = (exec step s acts).bind fun t => exec step t more := by
  induction acts generalizing s with
  | nil => rfl
  | cons a rest ih =>
    rw [List.cons_append, exec, exec, Option.bind_assoc]
    congr 1
    funext t
    exact ih t

variable {Inv : σ → Prop}

theorem exec_total (total : ∀ s a, Inv s → ∃ t, step s a = some t ∧ Inv t) (acts : List α) (s : σ)
    (start : Inv s) : ∃ t, exec step s acts = some t ∧ Inv t := by
  induction acts generalizing s with
  | nil => exact ⟨s, rfl, start⟩
  | cons a rest ih =>
    obtain ⟨next, ok, kept⟩ := total s a start
    rw [exec, ok]
    exact ih next kept

theorem everyState_nil (Q : σ → Prop) (s : σ) : EveryState step Q s [] ↔ Q s := by
  constructor
  · intro h
    exact h [] s (List.prefix_refl []) rfl
  · intro h done t hp he
    rw [List.prefix_nil.mp hp] at he
    cases he
    exact h

theorem everyState_cons (Q : σ → Prop) (s : σ) (a : α) (rest : List α) :
    EveryState step Q s (a :: rest) ↔ Q s ∧ ∀ t, step s a = some t → EveryState step Q t rest := by
  constructor
  · intro h
    refine ⟨h [] s (List.nil_prefix) rfl, ?_⟩
    intro t ht done u hp he
    refine h (a :: done) u (List.cons_prefix_cons.mpr ⟨rfl, hp⟩) ?_
    simpa only [exec, ht, Option.bind_some] using he
  · rintro ⟨hs, hrest⟩ done t hp he
    cases done with
    | nil =>
      cases he
      exact hs
    | cons b done =>
      obtain ⟨rfl, htail⟩ := List.cons_prefix_cons.mp hp
      obtain ⟨u, hu, hexec⟩ := exec_cons_some he
      exact hrest u hu done t htail hexec

theorem everyState_of_everyStep (keep : ∀ s a t, Inv s → P s a → step s a = some t → Inv t)
    (acts : List α) (s : σ) (start : Inv s) (steps : EveryStep step P s acts) :
    EveryState step Inv s acts := by
  induction acts generalizing s with
  | nil => exact (everyState_nil Inv s).mpr start
  | cons a rest ih =>
    refine (everyState_cons Inv s a rest).mpr ⟨start, fun t ht => ?_⟩
    obtain ⟨admissible, later⟩ := steps t ht
    exact ih t (keep s a t start admissible ht) later

variable {Q : σ → Prop}

theorem EveryState.imp {R : σ → Prop} {s : σ} {acts : List α} (h : EveryState step Q s acts)
    (weaken : ∀ t, Q t → R t) : EveryState step R s acts :=
  fun done t reached executed => weaken t (h done t reached executed)

theorem everyStep_of_forall (h : ∀ s a, P s a) (s : σ) (acts : List α) :
    EveryStep step P s acts := by
  induction acts generalizing s with
  | nil => trivial
  | cons a rest ih => exact fun t _ => ⟨h s a, ih t⟩

theorem everyState_of_step (keep : ∀ s a t, Inv s → step s a = some t → Inv t) (acts : List α)
    (s : σ) (start : Inv s) : EveryState step Inv s acts :=
  everyState_of_everyStep (fun s a t inv _ => keep s a t inv) acts s start
    (everyStep_of_forall (P := fun _ _ => True) (fun _ _ => trivial) s acts)

theorem EveryStep.imp_of_inv {R : σ → α → Prop}
    (keep : ∀ s a t, Inv s → step s a = some t → Inv t) (imp : ∀ s a, Inv s → P s a → R s a)
    (acts : List α) (s : σ) (start : Inv s) (steps : EveryStep step P s acts) :
    EveryStep step R s acts := by
  induction acts generalizing s with
  | nil => trivial
  | cons a rest ih =>
    intro t stepped
    obtain ⟨now, later⟩ := steps t stepped
    exact ⟨imp s a start now, ih t (keep s a t start stepped) later⟩

variable {G : σ → α → Prop}

theorem everyState_iff_everyStep_between (Inv : σ → Prop)
    (keep : ∀ s a t, Inv s → G s a → Q s → Q t → step s a = some t → Inv t)
    (exact_step : ∀ s a t, Inv s → G s a → Q s → step s a = some t → (Q t ↔ P s a))
    (acts : List α) (s : σ) (inv : Inv s) (start : Q s) (guarded : EveryStep step G s acts) :
    EveryState step Q s acts ↔ EveryStep step P s acts := by
  induction acts generalizing s with
  | nil => simp [everyState_nil, EveryStep, start]
  | cons a rest ih =>
    rw [everyState_cons, EveryStep]
    constructor
    · rintro ⟨-, later⟩ t ht
      obtain ⟨hg, guardedRest⟩ := guarded t ht
      have hq : Q t := later t ht [] t List.nil_prefix rfl
      have hp := (exact_step s a t inv hg start ht).mp hq
      exact ⟨hp, (ih t (keep s a t inv hg start hq ht) hq guardedRest).mp (later t ht)⟩
    · intro steps
      refine ⟨start, fun t ht => ?_⟩
      obtain ⟨hg, guardedRest⟩ := guarded t ht
      obtain ⟨hp, later⟩ := steps t ht
      have hq := (exact_step s a t inv hg start ht).mpr hp
      exact (ih t (keep s a t inv hg start hq ht) hq guardedRest).mpr later

theorem everyState_iff_everyStep (Inv : σ → Prop)
    (keep : ∀ s a t, Inv s → G s a → step s a = some t → Inv t)
    (exact_step : ∀ s a t, Inv s → G s a → Q s → step s a = some t → (Q t ↔ P s a))
    (acts : List α) (s : σ) (inv : Inv s) (start : Q s) (guarded : EveryStep step G s acts) :
    EveryState step Q s acts ↔ EveryStep step P s acts :=
  everyState_iff_everyStep_between Inv (fun s a t kept guard _ _ => keep s a t kept guard) exact_step
    acts s inv start guarded

end WowDb.Lib.Run
