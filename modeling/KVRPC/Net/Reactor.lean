import KVRPC.Library.Assoc

/-!
# The reactor as its users see it

What `EventLoop` promises the transport and the server: watches and timers under
identifiers that are never used again, and a queue of posted tasks. Deadlines are left
out: any live timer may fire at any time.
-/
namespace KVRPC.Net

variable {ω τ α : Type*}

structure Reactor (ω τ α : Type*) where
  next : Nat := 1
  watches : List (Nat × ω) := []
  timers : List (Nat × τ) := []
  tasks : List α := []
  stopping : Bool := false

namespace Reactor

/-- `Add`: the token of the new watch, and the reactor with it. -/
def add (r : Reactor ω τ α) (watch : ω) : Nat × Reactor ω τ α :=
  (r.next, { r with next := r.next + 1, watches := r.watches ++ [(r.next, watch)] })

def modify (r : Reactor ω τ α) (token : Nat) (f : ω → ω) : Reactor ω τ α :=
  { r with watches := r.watches.map fun w => if w.1 = token then (w.1, f w.2) else w }

def remove (r : Reactor ω τ α) (token : Nat) : Reactor ω τ α :=
  { r with watches := r.watches.filter fun w => w.1 ≠ token }

/-- `At`: the identifier of the new timer, and the reactor with it. -/
def timerAt (r : Reactor ω τ α) (timer : τ) : Nat × Reactor ω τ α :=
  (r.next, { r with next := r.next + 1, timers := r.timers ++ [(r.next, timer)] })

def cancel (r : Reactor ω τ α) (timer : Nat) : Reactor ω τ α :=
  { r with timers := r.timers.filter fun t => t.1 ≠ timer }

def post (r : Reactor ω τ α) (task : α) : Reactor ω τ α := { r with tasks := r.tasks ++ [task] }

def stop (r : Reactor ω τ α) : Reactor ω τ α := { r with stopping := true }

/-- The watch registered under the token. -/
def watch (r : Reactor ω τ α) (token : Nat) : Option ω := r.watches.lookup token

variable {r : Reactor ω τ α} {token other : Nat}

theorem watch_modify (f : ω → ω) :
    (r.modify token f).watch other =
      if other = token then (r.watch other).map f else r.watch other := by
  unfold watch modify
  dsimp only
  induction r.watches with
  | nil => simp
  | cons w ws ih =>
    rw [List.map_cons, List.lookup_cons, List.lookup_cons, ih]
    by_cases here : other = w.1
    · subst here
      by_cases same : w.1 = token
      all_goals simp [same]
    · have missed : (other == w.1) = false := by simpa using here
      split_ifs <;> simp [missed]

theorem watch_remove (different : other ≠ token) :
    (r.remove token).watch other = r.watch other := by
  unfold watch remove
  dsimp only
  induction r.watches with
  | nil => rfl
  | cons w ws ih =>
    rw [List.lookup_cons, List.filter_cons]
    by_cases gone : w.1 = token
    · have missed : (other == w.1) = false := by
        rw [gone]
        simpa using different
      rw [if_neg (by simp [gone]), ih, missed]
    · rw [if_pos (by simp [gone]), List.lookup_cons, ih]

theorem mem_of_watch {w : ω} (h : r.watch token = some w) : (token, w) ∈ r.watches := by
  obtain ⟨before, after, split, -⟩ := List.lookup_eq_some_iff.mp h
  simp [split]

theorem watch_add (unused : ∀ w ∈ r.watches, w.1 < r.next) (w : ω) :
    (r.add w).2.watch other = if other = r.next then some w else r.watch other := by
  have absent : ∀ ws : List (Nat × ω), (∀ x ∈ ws, x.1 < r.next) →
      (ws ++ [(r.next, w)]).lookup other =
        if other = r.next then some w else ws.lookup other := by
    intro ws below
    induction ws with
    | nil =>
      by_cases here : other = r.next
      · simp [here]
      · have missed : (other == r.next) = false := by simpa using here
        simp [List.lookup_cons, here, missed]
    | cons x xs ih =>
      rw [List.cons_append, List.lookup_cons, List.lookup_cons,
        ih fun y hy => below y (List.mem_cons_of_mem _ hy)]
      by_cases here : other = x.1
      · have old := below x List.mem_cons_self
        have : other ≠ r.next := by omega
        simp [here]
        omega
      · have missed : (other == x.1) = false := by simpa using here
        simp [missed]
  exact absent r.watches unused

theorem cancel_cancel (r : Reactor ω τ α) (timer : Nat) :
    (r.cancel timer).cancel timer = r.cancel timer := by
  simp [cancel, List.filter_filter]

theorem lookup_cancel (r : Reactor ω τ α) (timer timer' : Nat) :
    (r.cancel timer).timers.lookup timer' =
      if timer' = timer then none else r.timers.lookup timer' :=
  Library.Assoc.lookup_filter _ _ _

theorem lookup_timerAt (unused : ∀ e ∈ r.timers, e.1 < r.next) (t : τ) (timer : Nat) :
    (r.timerAt t).2.timers.lookup timer =
      if timer = r.next then some t else r.timers.lookup timer := by
  refine (Library.Assoc.lookup_append_singleton _ _ _ _).trans ?_
  split_ifs with new
  · have absent : r.timers.lookup r.next = none :=
      Library.Assoc.lookup_eq_none.mpr fun e mem => (unused e mem).ne
    rw [new, absent, Option.none_or]
  · exact Option.or_none

end Reactor
end KVRPC.Net
