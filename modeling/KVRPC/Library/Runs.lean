import Mathlib.Tactic

/-!
# Runs of a system

A run takes steps from an initial state and records every step with the state it was
taken in. A fatal event is the last one of its run.
-/
namespace KVRPC.Library

variable {σ α : Type*}

inductive Run (step : σ → α → σ → Prop) (fatal : α → Prop) (init : σ) : List (σ × α) → σ → Prop
  | nil : Run step fatal init [] init
  | snoc {trace : List (σ × α)} {s s' : σ} {a : α} (run : Run step fatal init trace s)
      (alive : ∀ e ∈ trace, ¬ fatal e.2) (next : step s a s') :
      Run step fatal init (trace ++ [(s, a)]) s'

variable {step : σ → α → σ → Prop} {fatal : α → Prop} {init : σ}

/-- **Invariant rule.** `Live` carries the induction as long as nothing fatal happens;
`Safe` holds at every point of the run, also right after a fatal event. The steps of the
run may be known to satisfy `Cond`. -/
theorem Run.safe {trace : List (σ × α)} {s : σ} (run : Run step fatal init trace s)
    (Live Safe : List (σ × α) → σ → Prop) (Cond : σ → α → Prop)
    (base : Live [] init) (weaken : ∀ {trace s}, Live trace s → Safe trace s)
    (next : ∀ {trace s a s'}, Live trace s → Cond s a → step s a s' →
      Safe (trace ++ [(s, a)]) s' ∧ (¬ fatal a → Live (trace ++ [(s, a)]) s'))
    (cond : ∀ e ∈ trace, Cond e.1 e.2) : Safe trace s := by
  suffices Safe trace s ∧ ((∀ e ∈ trace, ¬ fatal e.2) → Live trace s) from this.1
  induction run with
  | nil => exact ⟨weaken base, fun _ => base⟩
  | @snoc trace s s' a run alive taken ih =>
    have live := (ih fun e he => cond e (by simp [he])).2 alive
    obtain ⟨safe, carry⟩ := next live (cond (s, a) (by simp)) taken
    exact ⟨safe, fun none_fatal => carry (none_fatal (s, a) (by simp))⟩

/-- The rule without a difference between the two. -/
theorem Run.invariant {trace : List (σ × α)} {s : σ} (run : Run step fatal init trace s)
    (Inv : List (σ × α) → σ → Prop) (Cond : σ → α → Prop) (base : Inv [] init)
    (next : ∀ {trace s a s'}, Inv trace s → Cond s a → step s a s' → Inv (trace ++ [(s, a)]) s')
    (cond : ∀ e ∈ trace, Cond e.1 e.2) : Inv trace s :=
  run.safe Inv Inv Cond base id (fun h hc taken => ⟨next h hc taken, fun _ => next h hc taken⟩) cond

/-- Executes the events one after another, each of them enabled when its turn comes. -/
def replay (step : σ → α → Option σ) : σ → List α → Option (List (σ × α) × σ)
  | s, [] => some ([], s)
  | s, a :: as =>
    match step s a with
    | none => none
    | some s' => (replay step s' as).map fun r => ((s, a) :: r.1, r.2)

theorem Run.append_replay {step : σ → α → Option σ} {init s : σ} {before : List (σ × α)}
    (run : Run (fun s a s' => step s a = some s') (fun _ => False) init before s) {as : List α}
    {trace : List (σ × α)} {s' : σ} (h : replay step s as = some (trace, s')) :
    Run (fun s a s' => step s a = some s') (fun _ => False) init (before ++ trace) s' := by
  induction as generalizing s before trace with
  | nil =>
    cases h
    simpa using run
  | cons a as ih =>
    simp only [replay] at h
    split at h
    case h_1 => cases h
    case h_2 next taken =>
      obtain ⟨⟨rest, last⟩, later, same⟩ := Option.map_eq_some_iff.mp h
      cases same
      have longer := ih (run.snoc (fun _ _ => not_false) taken) later
      rwa [List.append_assoc] at longer

theorem Run.of_replay (step : σ → α → Option σ) (init : σ) (as : List α)
    {trace : List (σ × α)} {s : σ} (h : replay step init as = some (trace, s)) :
    Run (fun s a s' => step s a = some s') (fun _ => False) init trace s := by
  simpa using Run.nil.append_replay h

/-- A run whose states are left to be computed. -/
theorem Run.replays (step : σ → α → Option σ) (init : σ) (as : List α)
    (h : (replay step init as).isSome) :
    Run (fun s a s' => step s a = some s') (fun _ => False) init
      ((replay step init as).get h).1 ((replay step init as).get h).2 :=
  Run.of_replay step init as (Option.some_get h).symm

/-- The events can happen, and the state they lead to has the property. -/
def After (step : σ → α → Option σ) (s : σ) (as : List α) (P : σ → Prop) : Prop :=
  match replay step s as with
  | some (_, s') => P s'
  | none => False

instance (step : σ → α → Option σ) (s : σ) (as : List α) (P : σ → Prop) [DecidablePred P] :
    Decidable (After step s as P) := by
  unfold After
  split <;> infer_instance

theorem After.exists_replay {step : σ → α → Option σ} {s : σ} {as : List α} {P : σ → Prop}
    (h : After step s as P) : ∃ trace s', replay step s as = some (trace, s') ∧ P s' := by
  unfold After at h
  split at h
  case h_1 trace s' replayed => exact ⟨trace, s', replayed, h⟩
  case h_2 => cases h

theorem Run.after {step : σ → α → Option σ} {init s : σ} {trace : List (σ × α)} {as : List α}
    {P : σ → Prop} (run : Run (fun s a s' => step s a = some s') (fun _ => False) init trace s)
    (h : After step s as P) :
    ∃ s' later, Run (fun s a s' => step s a = some s') (fun _ => False) init (trace ++ later) s' ∧
      P s' := by
  obtain ⟨later, s', replayed, holds⟩ := h.exists_replay
  exact ⟨s', later, run.append_replay replayed, holds⟩

end KVRPC.Library
