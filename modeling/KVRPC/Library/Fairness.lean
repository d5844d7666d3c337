import KVRPC.Library.Runs

/-!
# Fair executions

An execution of a system goes on for ever. A thread is given by the events that are its steps in a
state. It is treated fairly if it does not stand still for ever while it could take a step.

`Execution.eventually` is the rule for progress: as long as the goal is not reached some thread
helps, it goes on helping until its step is taken, and that step leaves less to be done.
-/
namespace KVRPC.Library

variable {σ α ι : Type*}

structure Execution (step : σ → α → Option σ) where
  state : Nat → σ
  event : Nat → α
  taken : ∀ n, step (state n) (event n) = some (state (n + 1))

/-- The thread could take a step. -/
def CanStep (step : σ → α → Option σ) (thread : σ → α → Prop) (s : σ) : Prop :=
  ∃ a s', thread s a ∧ step s a = some s'

theorem CanStep.of_isSome {step : σ → α → Option σ} {thread : σ → α → Prop} {s : σ} {a : α}
    (own : thread s a) (able : (step s a).isSome) : CanStep step thread s := by
  obtain ⟨s', taken⟩ := Option.isSome_iff_exists.mp able
  exact ⟨a, s', own, taken⟩

namespace Execution

variable {step : σ → α → Option σ} (x : Execution step)

/-- Weak fairness. -/
def Fair (thread : σ → α → Prop) : Prop :=
  ∀ n, (∀ m ≥ n, CanStep step thread (x.state m)) → ∃ m ≥ n, thread (x.state m) (x.event m)

/-- **Progress rule.** `left` bounds what there is to do before the goal is reached. -/
theorem eventually (threads : ι → σ → α → Prop) (fair : ∀ k, x.Fair (threads k))
    (Inv Goal : Nat → Prop) (left : Nat → Nat) (Helps : ι → Nat → Prop)
    (able : ∀ {k n}, Inv n → ¬ Goal n → Helps k n → CanStep step (threads k) (x.state n))
    (helper : ∀ {n}, Inv n → ¬ Goal n → ∃ k, Helps k n)
    (next : ∀ {n}, Inv n → ¬ Goal n → Goal (n + 1) ∨ Inv (n + 1) ∧ left (n + 1) ≤ left n ∧
      ∀ k, Helps k n → left (n + 1) < left n ∨
        ¬ threads k (x.state n) (x.event n) ∧ Helps k (n + 1))
    {n : Nat} (inv : Inv n) : ∃ m ≥ n, Goal m := by
  induction todo : left n using Nat.strong_induction_on generalizing n with
  | _ todo' ih =>
    by_contra never
    have not_yet : ∀ m ≥ n, ¬ Goal m := fun m late goal => never ⟨m, late, goal⟩
    obtain ⟨k, helps⟩ := helper inv (not_yet n le_rfl)
    -- Until the helper takes its step nothing becomes less, or the goal would be reached.
    have waits : ∀ d, Inv (n + d) ∧ left (n + d) = todo' ∧ Helps k (n + d) ∧
        ∀ m < n + d, n ≤ m → ¬ threads k (x.state m) (x.event m) := by
      intro d
      induction d with
      | zero =>
        exact ⟨inv, todo, helps, fun m early late => absurd (early.trans_le late) (lt_irrefl _)⟩
      | succ d ih' =>
        obtain ⟨inv', same, helps', idle⟩ := ih'
        obtain goal | ⟨kept, less, helped⟩ := next inv' (not_yet (n + d) (Nat.le_add_right n d))
        · exact absurd goal (not_yet _ (by omega))
        have stays : ¬ left (n + d + 1) < todo' := by
          intro smaller
          obtain ⟨m, late, goal⟩ := ih _ smaller kept rfl
          exact not_yet m (by omega) goal
        obtain smaller | ⟨elsewhere, still⟩ := helped k helps'
        · exact absurd (same ▸ smaller) stays
        refine ⟨kept, le_antisymm (same ▸ less) (Nat.le_of_not_lt stays), still,
          fun m early late => ?_⟩
        obtain before | rfl : m < n + d ∨ m = n + d := by omega
        · exact idle m before late
        · exact elsewhere
    obtain ⟨m, late, steps⟩ := fair k n fun m late => by
      obtain ⟨d, rfl⟩ := Nat.exists_eq_add_of_le late
      obtain ⟨inv', -, helps', -⟩ := waits d
      exact able inv' (not_yet _ late) helps'
    obtain ⟨-, -, -, idle⟩ := waits (m + 1 - n)
    exact idle m (by omega) late steps

/-- Puts a step in front of an execution. -/
def cons {s : σ} {a : α} (first : step s a = some (x.state 0)) : Execution step where
  state n := n.casesOn s x.state
  event n := n.casesOn a x.event
  taken
    | 0 => first
    | n + 1 => x.taken n

theorem Fair.cons {s : σ} {a : α} {thread : σ → α → Prop} (fair : x.Fair thread)
    (first : step s a = some (x.state 0)) : (x.cons first).Fair thread := by
  intro n can
  obtain ⟨m, late, own⟩ := fair n fun m late => can (m + 1) (by omega)
  exact ⟨m + 1, by omega, own⟩

/-- Events that lead to a state in which something may go on without a change and no thread has
anything to do. -/
theorem exists_of_replay (as : List α) {init last : σ} {trace : List (σ × α)} {a : α}
    (replayed : replay step init as = some (trace, last)) (idle : step last a = some last) :
    ∃ x : Execution step, x.state 0 = init ∧ x.state as.length = last ∧
      ∀ thread, ¬ CanStep step thread last → x.Fair thread := by
  induction as generalizing init trace with
  | nil =>
    cases replayed
    exact ⟨⟨fun _ => last, fun _ => a, fun _ => idle⟩, rfl, rfl,
      fun thread stuck n can => absurd (can n le_rfl) stuck⟩
  | cons b as ih =>
    simp only [replay] at replayed
    split at replayed
    case h_1 => cases replayed
    case h_2 next taken =>
      obtain ⟨⟨rest, end'⟩, later, same⟩ := Option.map_eq_some_iff.mp replayed
      cases same
      obtain ⟨x, rfl, reached, fair⟩ := ih later
      exact ⟨x.cons taken, rfl, reached, fun thread stuck => (fair thread stuck).cons x taken⟩

end Execution
end KVRPC.Library
