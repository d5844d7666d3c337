import KVRPC.Library.Runs

/-!
# Runs seen from outside

A system is looked at through a function on its states, and some of its steps are steps of
the system that shows there while the others do not show. Then so is every run.
-/
namespace KVRPC.Library

variable {σ α τ β : Type*}

/-- What happens on one side of two lists of related events happens on the other. -/
theorem exists_related {R : α → β → Prop} {l : List α} {l' : List β} (h : List.Forall₂ R l l')
    {a : α} (mem : a ∈ l) : ∃ b ∈ l', R a b := by
  induction h with
  | nil => cases mem
  | cons related _ ih =>
    obtain rfl | later := List.mem_cons.mp mem
    · exact ⟨_, List.mem_cons_self, related⟩
    · obtain ⟨b, member, related⟩ := ih later
      exact ⟨b, List.mem_cons_of_mem _ member, related⟩

/-- What shows of a trace. -/
def shown (abs : σ → τ) (event : σ → α → Option β) (trace : List (σ × α)) : List (τ × β) :=
  trace.filterMap fun e => (event e.1 e.2).map fun b => (abs e.1, b)

theorem shown_append (abs : σ → τ) (event : σ → α → Option β) (xs ys : List (σ × α)) :
    shown abs event (xs ++ ys) = shown abs event xs ++ shown abs event ys := List.filterMap_append

variable {step : σ → α → σ → Prop} {fatal : α → Prop} {init : σ} {step' : τ → β → τ → Prop}
  {abs : σ → τ} {event : σ → α → Option β}

/-- What a step shows: a step of the other system, or nothing. -/
def Shows (step' : τ → β → τ → Prop) (abs : σ → τ) (event : σ → α → Option β) (s : σ) (a : α)
    (s' : σ) : Prop :=
  match event s a with
  | some b => step' (abs s) b (abs s')
  | none => abs s' = abs s

/-- **Simulation rule.** The steps need to show only in states that satisfy an invariant. -/
theorem Run.shown {trace : List (σ × α)} {s : σ} (run : Run step fatal init trace s)
    (Inv : σ → Prop) (base : Inv init) (keeps : ∀ {s a s'}, Inv s → step s a s' → Inv s')
    (shows : ∀ {s a s'}, Inv s → step s a s' → Shows step' abs event s a s') :
    Inv s ∧ Run step' (fun _ => False) (abs init) (shown abs event trace) (abs s) := by
  induction run with
  | nil => exact ⟨base, .nil⟩
  | @snoc trace s s' a run _ taken ih =>
    obtain ⟨inv, before⟩ := ih
    refine ⟨keeps inv taken, ?_⟩
    have now := shows inv taken
    rw [shown_append]
    unfold Shows at now
    cases happens : event s a with
    | none =>
      rw [happens] at now
      have nothing : Library.shown abs event [(s, a)] = [] := by simp [Library.shown, happens]
      rw [nothing, List.append_nil, now]
      exact before
    | some b =>
      rw [happens] at now
      have one : Library.shown abs event [(s, a)] = [(abs s, b)] := by
        simp [Library.shown, happens]
      rw [one]
      exact before.snoc (fun _ _ => not_false) now

end KVRPC.Library
