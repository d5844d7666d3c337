import KVRPC.Client.Transport
import KVRPC.Library.Threads

/-!
# The executor

`Executor` of `executor.h`: a bounded queue of tasks and a pool of workers that wait on a
condition variable. Each section under the mutex is one step, and so are the notifications made
after it, the end of a task and a spurious wakeup; steps of different threads interleave in any
order. A task is the number of its call of `Submit`; what it returns or throws is kept in its
future by `std::packaged_task`.
-/
namespace KVRPC.Client

open Library Relation
open scoped List

/-- The fields the executor reads. -/
structure ExecutorOptions extends ClientOptions where
  workers : Nat := 4

/-- The condition under which the constructor throws. -/
def ExecutorOptions.Invalid (o : ExecutorOptions) : Prop :=
  o.workers = 0 ∨ o.workers > 256 ∨ o.queueCapacity = 0 ∨ o.queueCapacity > 65536 ∨
    o.maxFrameBytes = 0 ∨ o.maxFrameBytes > 64 * 1024 * 1024

instance (o : ExecutorOptions) : Decidable o.Invalid := by
  unfold ExecutorOptions.Invalid; infer_instance

/-- An executor whose limits have been checked. -/
structure Executor where
  options : ExecutorOptions
  valid : ¬ options.Invalid

namespace Executor

def construct (options : ExecutorOptions) : Except Error Executor :=
  if h : options.Invalid then .error ⟨.invalidArgument, "Invalid client resource limits"⟩
  else .ok ⟨options, h⟩

/-- Where a worker is in `Run`. -/
inductive Worker where
  /-- About to take the mutex and look at the queue. -/
  | entering
  /-- Blocked in `wait`. -/
  | asleep
  | running (task : Nat)
  | exited
  deriving DecidableEq, Repr

/-- The task a worker runs. -/
def Worker.hand : Worker → List Nat
  | .running task => [task]
  | _ => []

/-- What a notification does to a worker. -/
def Worker.rouse : Worker → Worker
  | .asleep => .entering
  | worker => worker

/-- How much a worker still does before it sleeps or returns. -/
def Worker.weight : Worker → Nat
  | .entering => 1
  | .running _ => 2
  | _ => 0

/-- Where the thread in `Stop` is. -/
inductive Stopper where
  | outside
  | flagged
  | notified
  | joined
  deriving DecidableEq, Repr

variable {ε ρ : Type}

structure State (ε ρ : Type) where
  tasks : List Nat := []
  stopping : Bool := false
  workers : List Worker := []
  /-- Calls of `Submit` that have left the mutex and not yet called `notify_one`. -/
  notifying : Nat := 0
  stopper : Stopper := .outside
  /-- How often `Submit` has been called. -/
  submitted : Nat := 0
  -- what has happened so far, in order
  accepted : List Nat := []
  rejected : List (Nat × Error) := []
  started : List Nat := []
  finished : List (Nat × Except ε ρ) := []
  deriving DecidableEq

inductive Event (ε ρ : Type) where
  | spawn
  | submit
  | notify (w : Nat)
  | wake (w : Nat)
  | enter (w : Nat)
  | finish (w : Nat) (result : Except ε ρ)
  | stop
  | notifyAll
  | join

namespace State

variable {e : Executor} {s s' : State ε ρ} {w : Nat}

def setWorker (s : State ε ρ) (w : Nat) (worker : Worker) : State ε ρ :=
  { s with workers := s.workers.set w worker }

/-- The constructor starts its next worker; if that fails it calls `Stop`. -/
def spawn (e : Executor) (s : State ε ρ) : Option (State ε ρ) :=
  if s.workers.length < e.options.workers ∧ s.stopper = .outside then
    some { s with workers := s.workers ++ [.entering] }
  else none

/-- The condition under which `Submit` refuses. -/
def Full (e : Executor) (s : State ε ρ) : Prop :=
  s.stopping = true ∨ s.tasks.length ≥ e.options.queueCapacity

instance (e : Executor) (s : State ε ρ) : Decidable (s.Full e) := by
  unfold Full; infer_instance

/-- What the future of a rejected call holds. -/
def refusal (s : State ε ρ) : Error :=
  ⟨if s.stopping then .closed else .overloaded, "Client queue is closed or full"⟩

def reject (s : State ε ρ) : State ε ρ :=
  { s with
    submitted := s.submitted + 1
    rejected := s.rejected ++ [(s.submitted, s.refusal)] }

def accept (s : State ε ρ) : State ε ρ :=
  { s with
    submitted := s.submitted + 1
    tasks := s.tasks ++ [s.submitted]
    notifying := s.notifying + 1
    accepted := s.accepted ++ [s.submitted] }

/-- `Submit` up to its `notify_one`, on an executor that has been constructed. -/
def submit (e : Executor) (s : State ε ρ) : Option (State ε ρ) :=
  if s.workers.length < e.options.workers then none
  else some (if s.Full e then s.reject else s.accept)

/-- `notify_one` wakes a worker of its choice, if one is asleep. -/
def notify (s : State ε ρ) (w : Nat) : Option (State ε ρ) :=
  if s.notifying = 0 then none
  else if .asleep ∈ s.workers then
    if s.workers[w]? = some .asleep then
      some { s.setWorker w .entering with notifying := s.notifying - 1 }
    else none
  else some { s with notifying := s.notifying - 1 }

/-- A spurious wakeup. -/
def wake (s : State ε ρ) (w : Nat) : Option (State ε ρ) :=
  if s.workers[w]? = some .asleep then some (s.setWorker w .entering) else none

/-- The critical section of `Run`: the worker waits, returns or takes a task. -/
def enter (s : State ε ρ) (w : Nat) : Option (State ε ρ) :=
  if s.workers[w]? = some .entering then
    if s.stopping ∨ s.tasks ≠ [] then
      match s.tasks with
      | [] => some (s.setWorker w .exited)
      | task :: rest => some { s.setWorker w (.running task) with
          tasks := rest
          started := s.started ++ [task] }
    else some (s.setWorker w .asleep)
  else none

/-- A task returns or throws. -/
def finish (s : State ε ρ) (w : Nat) (result : Except ε ρ) : Option (State ε ρ) :=
  match s.workers[w]? with
  | some (.running task) =>
    some { s.setWorker w .entering with finished := s.finished ++ [(task, result)] }
  | _ => none

def stop (s : State ε ρ) : Option (State ε ρ) :=
  if s.stopper = .outside then some { s with stopping := true, stopper := .flagged } else none

def notifyAll (s : State ε ρ) : Option (State ε ρ) :=
  if s.stopper = .flagged then
    some { s with workers := s.workers.map Worker.rouse, stopper := .notified }
  else none

/-- All workers have been joined. -/
def join (s : State ε ρ) : Option (State ε ρ) :=
  if s.stopper = .notified ∧ ∀ worker ∈ s.workers, worker = .exited then
    some { s with stopper := .joined }
  else none

def step (e : Executor) (s : State ε ρ) : Event ε ρ → Option (State ε ρ)
  | .spawn => s.spawn e
  | .submit => s.submit e
  | .notify w => s.notify w
  | .wake w => s.wake w
  | .enter w => s.enter w
  | .finish w result => s.finish w result
  | .stop => s.stop
  | .notifyAll => s.notifyAll
  | .join => s.join

/-- A run from the start of the constructor. -/
abbrev Runs (e : Executor) (trace : List (State ε ρ × Event ε ρ)) (s : State ε ρ) : Prop :=
  Run (fun s ev s' => step e s ev = some s') (fun _ => False) {} trace s

/-! ## What a step can do -/

inductive Effect (e : Executor) (s : State ε ρ) : State ε ρ → Prop
  | spawned (missing : s.workers.length < e.options.workers) (running : s.stopper = .outside) :
      Effect e s { s with workers := s.workers ++ [.entering] }
  | rejected : Effect e s s.reject
  | accepted (built : e.options.workers ≤ s.workers.length) (running : s.stopping = false)
      (room : s.tasks.length < e.options.queueCapacity) : Effect e s s.accept
  /-- A sleeping worker is woken, by one notification or by none. -/
  | roused {w n : Nat} (slept : s.workers[w]? = some .asleep) (count : s.notifying ≤ n + 1)
      (le : n ≤ s.notifying) : Effect e s { s.setWorker w .entering with notifying := n }
  | unheard {n : Nat} (awake : .asleep ∉ s.workers) (count : s.notifying = n + 1) :
      Effect e s { s with notifying := n }
  | slept {w : Nat} (entered : s.workers[w]? = some .entering) (running : s.stopping = false)
      (empty : s.tasks = []) : Effect e s (s.setWorker w .asleep)
  | exited {w : Nat} (entered : s.workers[w]? = some .entering) (stopped : s.stopping = true)
      (empty : s.tasks = []) : Effect e s (s.setWorker w .exited)
  | took {w task : Nat} {rest : List Nat} (entered : s.workers[w]? = some .entering)
      (front : s.tasks = task :: rest) :
      Effect e s { s.setWorker w (.running task) with
        tasks := rest, started := s.started ++ [task] }
  | finished {w task : Nat} (ran : s.workers[w]? = some (.running task)) (result : Except ε ρ) :
      Effect e s { s.setWorker w .entering with finished := s.finished ++ [(task, result)] }
  | stopped (running : s.stopper = .outside) :
      Effect e s { s with stopping := true, stopper := .flagged }
  | notified (flagged : s.stopper = .flagged) :
      Effect e s { s with workers := s.workers.map Worker.rouse, stopper := .notified }
  | joined (notified : s.stopper = .notified) (exited : ∀ worker ∈ s.workers, worker = .exited) :
      Effect e s { s with stopper := .joined }

theorem notify_effect (e : Executor) (h : s.notify w = some s') : Effect e s s' := by
  unfold notify at h
  split_ifs at h with none sleeping here
  · cases h
    exact .roused here (by omega) (by omega)
  · cases h
    exact .unheard sleeping (by omega)

theorem enter_effect (e : Executor) (h : s.enter w = some s') : Effect e s s' := by
  unfold enter at h
  split_ifs at h with entered woken
  · split at h
    case h_1 empty =>
      cases h
      exact .exited entered (woken.resolve_right fun some_task => some_task empty) empty
    case h_2 front =>
      cases h
      exact .took entered front
  · cases h
    rw [not_or, not_not, Bool.not_eq_true] at woken
    exact .slept entered woken.1 woken.2

theorem finish_effect (e : Executor) {result : Except ε ρ} (h : s.finish w result = some s') :
    Effect e s s' := by
  unfold finish at h
  split at h
  case h_1 ran =>
    cases h
    exact .finished ran result
  case h_2 => cases h

theorem notifyAll_effect (e : Executor) (h : s.notifyAll = some s') : Effect e s s' := by
  obtain ⟨flagged, ⟨⟩⟩ := Option.ite_none_right_eq_some.mp h
  exact .notified flagged

theorem step_effect {ev : Event ε ρ} (h : step e s ev = some s') : Effect e s s' := by
  cases ev with
  | spawn =>
    obtain ⟨room, ⟨⟩⟩ := Option.ite_none_right_eq_some.mp h
    exact .spawned room.1 room.2
  | submit =>
    obtain ⟨built, ⟨⟩⟩ := Option.ite_none_left_eq_some.mp h
    split_ifs with full
    · exact .rejected
    · rw [Full, not_or, Bool.not_eq_true, not_le] at full
      exact .accepted (not_lt.mp built) full.1 full.2
  | notify w => exact notify_effect e h
  | wake w =>
    obtain ⟨slept, ⟨⟩⟩ := Option.ite_none_right_eq_some.mp h
    exact .roused slept (Nat.le_succ _) le_rfl
  | enter w => exact enter_effect e h
  | finish w result => exact finish_effect e h
  | stop =>
    obtain ⟨running, ⟨⟩⟩ := Option.ite_none_right_eq_some.mp h
    exact .stopped running
  | notifyAll => exact notifyAll_effect e h
  | join =>
    obtain ⟨done, ⟨⟩⟩ := Option.ite_none_right_eq_some.mp h
    exact .joined done.1 done.2

/-- Only `Submit` accepts and rejects, and only `Stop` sets the flag. -/
theorem step_kept {ev : Event ε ρ} (h : step e s ev = some s') (other : ev ≠ .submit) :
    s'.accepted = s.accepted ∧ s'.rejected = s.rejected ∧
      (ev ≠ .stop → s'.stopping = s.stopping) := by
  cases ev with
  | spawn | wake w | notifyAll | join =>
    obtain ⟨-, ⟨⟩⟩ := Option.ite_none_right_eq_some.mp h
    exact ⟨rfl, rfl, fun _ => rfl⟩
  | submit => exact absurd rfl other
  | notify w =>
    simp only [step, notify] at h
    split_ifs at h
    all_goals cases h; exact ⟨rfl, rfl, fun _ => rfl⟩
  | enter w =>
    simp only [step, enter] at h
    split_ifs at h
    · split at h
      all_goals cases h; exact ⟨rfl, rfl, fun _ => rfl⟩
    · cases h
      exact ⟨rfl, rfl, fun _ => rfl⟩
  | finish w result =>
    simp only [step, finish] at h
    split at h
    · cases h
      exact ⟨rfl, rfl, fun _ => rfl⟩
    · cases h
  | stop =>
    obtain ⟨-, ⟨⟩⟩ := Option.ite_none_right_eq_some.mp h
    exact ⟨rfl, rfl, fun stops => absurd rfl stops⟩

/-! ## Every call is judged by what it finds -/

/-- A call of `Submit` has been rejected exactly if it found the executor stopping or the queue
full. -/
structure Judged (e : Executor) (trace : List (State ε ρ × Event ε ρ)) (s : State ε ρ) :
    Prop where
  rejected : ∀ r, r ∈ s.rejected ↔
    ∃ t, (t, Event.submit) ∈ trace ∧ t.Full e ∧ r = (t.submitted, t.refusal)
  accepted : ∀ task, task ∈ s.accepted ↔
    ∃ t, (t, Event.submit) ∈ trace ∧ ¬ t.Full e ∧ task = t.submitted

theorem Judged.step {trace : List (State ε ρ × Event ε ρ)} {ev : Event ε ρ}
    (h : Judged e trace s) (taken : step e s ev = some s') :
    Judged e (trace ++ [(s, ev)]) s' := by
  by_cases submits : ev = .submit
  · subst submits
    obtain ⟨-, ⟨⟩⟩ := Option.ite_none_left_eq_some.mp taken
    split_ifs with full
    · constructor
      · intro r
        simp only [reject, List.mem_append, h.rejected, List.mem_singleton, Prod.mk.injEq]
        grind
      · intro task
        simp only [reject, h.accepted, List.mem_append, List.mem_singleton, Prod.mk.injEq]
        grind
    · constructor
      · intro r
        simp only [accept, List.mem_append, h.rejected, List.mem_singleton, Prod.mk.injEq]
        grind
      · intro task
        simp only [accept, h.accepted, List.mem_append, List.mem_singleton, Prod.mk.injEq]
        grind
  · obtain ⟨accepted, rejected, -⟩ := step_kept taken submits
    have same : ∀ t, (t, Event.submit) ∈ trace ++ [(s, ev)] ↔ (t, Event.submit) ∈ trace := by
      intro t
      simp [Ne.symm submits]
    exact ⟨by simpa only [rejected, same] using h.rejected,
      by simpa only [accepted, same] using h.accepted⟩

/-! ## Every task is run once -/

/-- The books of the executor. Every call of `Submit` is either accepted or rejected, the accepted
tasks are started in order and those started are running or finished. -/
structure Ledger (e : Executor) (s : State ε ρ) : Prop where
  calls : s.accepted ++ s.rejected.map Prod.fst ~ List.range s.submitted
  order : s.started ++ s.tasks = s.accepted
  ran : s.finished.map Prod.fst ++ s.workers.flatMap Worker.hand ~ s.started
  capacity : s.tasks.length ≤ e.options.queueCapacity

namespace Ledger

theorem initial (e : Executor) : Ledger e ({} : State ε ρ) :=
  ⟨.refl _, rfl, .refl _, Nat.zero_le _⟩

/-- A worker that holds no task goes to where it holds none. -/
theorem setWorker (h : Ledger e s) {old new : Worker} (at_w : s.workers[w]? = some old)
    (before : old.hand = []) (after : new.hand = []) (n : Nat) :
    Ledger e { s.setWorker w new with notifying := n } := by
  obtain ⟨others, had, left⟩ := flatMap_set Worker.hand at_w new
  rw [before] at had
  rw [after] at left
  exact ⟨h.calls, h.order, ((left.trans had.symm).append_left _).trans h.ran, h.capacity⟩

theorem effect (h : Ledger e s) (effect : Effect e s s') : Ledger e s' := by
  cases effect with
  | spawned _ _ =>
    refine ⟨h.calls, h.order, ?_, h.capacity⟩
    simpa [Worker.hand] using h.ran
  | rejected =>
    refine ⟨?_, h.order, h.ran, h.capacity⟩
    rw [reject, List.range_succ, List.map_append, ← List.append_assoc]
    exact h.calls.append_right _
  | accepted _ _ room =>
    refine ⟨?_, ?_, h.ran, ?_⟩
    · rw [accept, List.range_succ]
      refine List.Perm.trans ?_ (h.calls.append_right _)
      rw [List.append_assoc, List.append_assoc]
      exact List.perm_append_comm.append_left _
    · simp [accept, ← h.order]
    · simpa [accept] using room
  | roused slept _ _ => exact h.setWorker slept rfl rfl _
  | unheard _ _ => exact ⟨h.calls, h.order, h.ran, h.capacity⟩
  | slept entered _ _ => exact h.setWorker entered rfl rfl s.notifying
  | exited entered _ _ => exact h.setWorker entered rfl rfl s.notifying
  | @took w task rest entered front =>
    obtain ⟨others, had, left⟩ := flatMap_set Worker.hand entered (.running task)
    have order := h.order
    have capacity := h.capacity
    rw [front] at order capacity
    refine ⟨h.calls, by simpa [State.setWorker] using order, ?_, Nat.le_of_succ_le capacity⟩
    have grown : (s.workers.set w (.running task)).flatMap Worker.hand ~
        s.workers.flatMap Worker.hand ++ [task] :=
      left.trans (List.perm_append_comm.trans (had.symm.append_right _))
    refine (grown.append_left _).trans ?_
    rw [← List.append_assoc]
    exact h.ran.append_right _
  | @finished w task ran result =>
    obtain ⟨others, had, left⟩ := flatMap_set Worker.hand ran .entering
    refine ⟨h.calls, h.order, ?_, h.capacity⟩
    refine List.Perm.trans ?_ ((had.append_left _).symm.trans h.ran)
    rw [List.map_append, List.append_assoc]
    exact (left.append_left _).append_left _
  | stopped _ => exact ⟨h.calls, h.order, h.ran, h.capacity⟩
  | notified _ =>
    refine ⟨h.calls, h.order, ?_, h.capacity⟩
    have same : ∀ worker : Worker, worker.rouse.hand = worker.hand := by
      rintro (_ | _ | _ | _) <;> rfl
    simpa [List.flatMap_map, same] using h.ran
  | joined _ _ => exact ⟨h.calls, h.order, h.ran, h.capacity⟩

end Ledger

/-! ## No notification is lost -/

/-- How many workers are about to look at the queue. -/
def entering (s : State ε ρ) : Nat := (s.workers.map fun w => if w = .entering then 1 else 0).sum

theorem entering_setWorker {old : Worker} (at_w : s.workers[w]? = some old) (new : Worker) :
    (s.setWorker w new).entering + (if old = .entering then 1 else 0) =
      s.entering + if new = .entering then 1 else 0 :=
  sum_map_set _ at_w new

/-- The flags of the executor and where its workers are. A worker sleeps on a queue that is not
empty only while as many others are about to look at it or to be notified. -/
structure Signals (e : Executor) (s : State ε ρ) : Prop where
  built : s.tasks ≠ [] → s.workers ≠ []
  stopping : s.stopping = true ↔ s.stopper ≠ .outside
  exits : .exited ∈ s.workers → s.stopping = true ∧ s.tasks = []
  awake : .asleep ∈ s.workers → s.tasks.length ≤ s.entering + s.notifying
  roused : s.stopping = true → s.stopper ≠ .flagged → .asleep ∉ s.workers
  joined : s.stopper = .joined → ∀ worker ∈ s.workers, worker = .exited

namespace Signals

theorem initial (e : Executor) : Signals e ({} : State ε ρ) where
  built := by simp
  stopping := by simp
  exits := by simp
  awake := by simp
  roused := by simp
  joined := by simp

/-- A worker moves, and another one that is asleep was so before or has found nothing to do. -/
theorem setWorker (h : Signals e s) {old new : Worker} (at_w : s.workers[w]? = some old)
    (live : old ≠ .exited) (exits : new = .exited → s.stopping = true ∧ s.tasks = [])
    (sleeps : new = .asleep → s.stopping = false ∧ s.tasks = []) {n : Nat} {tasks : List Nat}
    (fewer : tasks ≠ [] → s.tasks ≠ [])
    (awake : s.tasks.length ≤ s.entering + s.notifying →
      tasks.length ≤ (s.setWorker w new).entering + n)
    {started : List Nat} {finished : List (Nat × Except ε ρ)} :
    Signals e { s.setWorker w new with
      notifying := n, tasks := tasks, started := started, finished := finished } := by
  have none_left : s.tasks = [] → tasks = [] := by
    intro empty
    by_contra some_task
    exact fewer some_task empty
  refine ⟨?_, h.stopping, ?_, ?_, ?_, ?_⟩
  · intro some_task empty
    exact h.built (fewer some_task) (by simpa [State.setWorker] using empty)
  · intro mem
    obtain before | now := List.mem_or_eq_of_mem_set mem
    · exact ⟨(h.exits before).1, none_left (h.exits before).2⟩
    · exact ⟨(exits now.symm).1, none_left (exits now.symm).2⟩
  · intro mem
    obtain before | now := List.mem_or_eq_of_mem_set mem
    · exact awake (h.awake before)
    · simp [none_left (sleeps now.symm).2]
  · intro stopped past mem
    obtain before | now := List.mem_or_eq_of_mem_set mem
    · exact h.roused stopped past before
    · have running := (sleeps now.symm).1
      change s.stopping = true at stopped
      simp [running] at stopped
  · intro done
    exact absurd (h.joined done old (List.mem_of_getElem? at_w)) live

theorem effect (h : Signals e s) (effect : Effect e s s') : Signals e s' := by
  cases effect with
  | spawned _ running =>
    refine ⟨by simp, h.stopping, ?_, ?_, ?_, ?_⟩
    · intro mem
      exact h.exits (by simpa using mem)
    · intro mem
      have bound := h.awake (by simpa using mem)
      simp only [entering, List.map_append, List.sum_append] at bound ⊢
      omega
    · intro stopped
      exact absurd running (h.stopping.mp stopped)
    · intro done
      rw [running] at done
      cases done
  | rejected => exact ⟨h.built, h.stopping, h.exits, h.awake, h.roused, h.joined⟩
  | accepted built running _ =>
    have stays : s.stopping ≠ true := by simp [running]
    refine ⟨?_, h.stopping, ?_, ?_, fun stopped => absurd stopped stays, h.joined⟩
    · intro _ none
      have positive := e.valid
      unfold ExecutorOptions.Invalid at positive
      rw [show s.workers = [] from none, List.length_nil] at built
      omega
    · intro mem
      exact absurd (h.exits mem).1 stays
    · intro mem
      have bound := h.awake mem
      change (s.tasks ++ [s.submitted]).length ≤ s.entering + (s.notifying + 1)
      rw [List.length_append, List.length_singleton]
      omega
  | roused slept count _ =>
    have moved := entering_setWorker slept .entering
    refine h.setWorker slept (by simp) (by simp) (by simp) id fun bound => ?_
    simp only [reduceCtorEq, if_false, if_true] at moved
    omega
  | unheard awake _ =>
    exact ⟨h.built, h.stopping, h.exits, fun mem => absurd mem awake, h.roused, h.joined⟩
  | slept entered running empty =>
    refine h.setWorker entered (by simp) (by simp) (fun _ => ⟨running, empty⟩) id fun _ => ?_
    simp [empty]
  | exited entered stopped empty =>
    refine h.setWorker entered (by simp) (fun _ => ⟨stopped, empty⟩) (by simp) id fun _ => ?_
    simp [empty]
  | @took w task rest entered front =>
    have moved := entering_setWorker entered (.running task)
    refine h.setWorker entered (by simp) (by simp) (by simp) (by simp [front]) fun bound => ?_
    simp only [reduceCtorEq, if_false, if_true] at moved
    rw [front, List.length_cons] at bound
    change rest.length ≤ _ + s.notifying
    omega
  | finished ran result =>
    have moved := entering_setWorker ran .entering
    refine h.setWorker ran (by simp) (by simp) (by simp) id fun bound => ?_
    simp only [reduceCtorEq, if_false, if_true] at moved
    change s.tasks.length ≤ _ + s.notifying
    omega
  | stopped running =>
    refine ⟨h.built, by simp, fun mem => ⟨rfl, (h.exits mem).2⟩, h.awake, ?_, by simp⟩
    intro _ past
    exact absurd rfl past
  | notified flagged =>
    have stopped : s.stopping = true := h.stopping.mpr (by simp [flagged])
    have none_asleep : .asleep ∉ s.workers.map Worker.rouse := by
      intro mem
      obtain ⟨worker, -, same⟩ := List.mem_map.mp mem
      cases worker <;> cases same
    refine ⟨?_, by simp [stopped], ?_, fun mem => absurd mem none_asleep,
      fun _ _ => none_asleep, by simp⟩
    · intro some_task empty
      exact h.built some_task (List.map_eq_nil_iff.mp empty)
    · intro mem
      obtain ⟨worker, member, same⟩ := List.mem_map.mp mem
      cases worker with
      | exited => exact h.exits member
      | _ => cases same
  | joined notified exited =>
    have stopped : s.stopping = true := h.stopping.mpr (by simp [notified])
    refine ⟨h.built, by simp [stopped], h.exits, h.awake, ?_, fun _ => exited⟩
    intro _ _
    exact h.roused stopped (by simp [notified])

end Signals

theorem Runs.invariant {trace : List (State ε ρ × Event ε ρ)} (run : Runs e trace s) :
    Judged e trace s ∧ Ledger e s ∧ Signals e s := by
  refine Run.invariant run (fun trace s => Judged e trace s ∧ Ledger e s ∧ Signals e s)
    (fun _ _ => True) ⟨⟨by simp, by simp⟩, .initial e, .initial e⟩ ?_ fun _ _ => trivial
  rintro trace s ev s' ⟨judged, ledger, signals⟩ - taken
  exact ⟨judged.step taken, ledger.effect (step_effect taken), signals.effect (step_effect taken)⟩

/-! ## The queue is drained -/

/-- A step of the executor's own: no new task, no call of `Stop`, no spurious wakeup. The tasks
return and throw as `outcome` says. -/
def Works (outcome : Nat → Except ε ρ) (s s' : State ε ρ) : Prop :=
  (∃ w, s.notify w = some s') ∨ (∃ w, s.enter w = some s') ∨
    (∃ w task, s.workers[w]? = some (.running task) ∧ s.finish w (outcome task) = some s') ∨
    s.notifyAll = some s'

/-- Bounds how many steps of its own the executor can take. -/
def work (s : State ε ρ) : Nat :=
  2 * s.tasks.length + 2 * s.notifying + (s.workers.map Worker.weight).sum +
    if s.stopper = .flagged then s.workers.length + 1 else 0

theorem work_setWorker {old : Worker} (at_w : s.workers[w]? = some old) (new : Worker) :
    (s.setWorker w new).work + old.weight = s.work + new.weight := by
  have moved := sum_map_set Worker.weight at_w new
  simp only [work, setWorker, List.length_set]
  omega

theorem sum_weight_rouse (workers : List Worker) :
    ((workers.map Worker.rouse).map Worker.weight).sum ≤
      (workers.map Worker.weight).sum + workers.length := by
  induction workers with
  | nil => exact le_rfl
  | cons worker workers ih =>
    have one : worker.rouse.weight ≤ worker.weight + 1 := by
      cases worker <;> simp [Worker.rouse, Worker.weight]
    simp only [List.map_cons, List.sum_cons, List.length_cons]
    omega

namespace Works

variable {outcome : Nat → Except ε ρ}

theorem exists_step (e : Executor) (h : Works outcome s s') :
    ∃ ev, step e s ev = some s' ∧ ev ≠ .submit ∧ ev ≠ .stop := by
  obtain ⟨w, h⟩ | ⟨w, h⟩ | ⟨w, task, -, h⟩ | h := h
  · exact ⟨.notify w, h, by simp, by simp⟩
  · exact ⟨.enter w, h, by simp, by simp⟩
  · exact ⟨.finish w (outcome task), h, by simp, by simp⟩
  · exact ⟨.notifyAll, h, by simp, by simp⟩

theorem work_lt (h : Works outcome s s') : s'.work < s.work := by
  obtain ⟨w, h⟩ | ⟨w, h⟩ | ⟨w, task, ran, h⟩ | h := h
  · unfold notify at h
    split_ifs at h with none sleeping here
    · cases h
      have moved := work_setWorker here .entering
      simp only [work, setWorker, Worker.weight] at moved ⊢
      omega
    · cases h
      simp only [work]
      omega
  · unfold enter at h
    split_ifs at h with entered woken
    · split at h
      case h_1 =>
        cases h
        have moved := work_setWorker entered .exited
        simp only [Worker.weight] at moved
        omega
      case h_2 task rest front =>
        cases h
        have moved := work_setWorker entered (.running task)
        simp only [work, setWorker, Worker.weight, front, List.length_cons] at moved ⊢
        omega
    · cases h
      have moved := work_setWorker entered .asleep
      simp only [Worker.weight] at moved
      omega
  · rw [finish, ran] at h
    cases h
    have moved := work_setWorker ran .entering
    simp only [work, setWorker, Worker.weight] at moved ⊢
    omega
  · obtain ⟨flagged, ⟨⟩⟩ := Option.ite_none_right_eq_some.mp h
    have roused := sum_weight_rouse s.workers
    simp only [work, flagged, reduceCtorEq, if_true, if_false]
    omega

end Works

/-- The executor has nothing left to do. -/
structure Drained (s : State ε ρ) : Prop where
  empty : s.tasks = []
  ran : s.finished.map Prod.fst ~ s.accepted
  exited : s.stopping = true → ∀ worker ∈ s.workers, worker = .exited

theorem drained_of_idle (ledger : Ledger e s) (empty : s.tasks = [])
    (idle : ∀ worker ∈ s.workers, worker = .asleep ∨ worker = .exited)
    (exited : s.stopping = true → ∀ worker ∈ s.workers, worker = .exited) : Drained s := by
  refine ⟨empty, ?_, exited⟩
  have none_held : s.workers.flatMap Worker.hand = [] := by
    rw [List.flatMap_eq_nil_iff]
    intro worker mem
    obtain rfl | rfl := idle worker mem
    · rfl
    · rfl
  have ran := ledger.ran
  have order := ledger.order
  rw [none_held, List.append_nil] at ran
  rw [empty, List.append_nil] at order
  rwa [order] at ran

theorem exists_enter (entered : s.workers[w]? = some .entering) : ∃ s', s.enter w = some s' := by
  unfold enter
  rw [if_pos entered]
  split
  · split <;> exact ⟨_, rfl⟩
  · exact ⟨_, rfl⟩

theorem exists_notify (some_left : s.notifying ≠ 0) : ∃ w s', s.notify w = some s' := by
  by_cases sleeping : .asleep ∈ s.workers
  · obtain ⟨w, here⟩ := List.getElem?_of_mem sleeping
    refine ⟨w, ?_⟩
    rw [notify, if_neg some_left, if_pos sleeping, if_pos here]
    exact ⟨_, rfl⟩
  · refine ⟨0, ?_⟩
    rw [notify, if_neg some_left, if_neg sleeping]
    exact ⟨_, rfl⟩

/-- The executor stops only when all is done. -/
theorem drained_of_quiet (ledger : Ledger e s) (signals : Signals e s)
    (outcome : Nat → Except ε ρ) (quiet : ∀ s', ¬ Works outcome s s') : Drained s := by
  have none_entering : ∀ w : Nat, s.workers[w]? ≠ some .entering := by
    intro w entered
    obtain ⟨s', taken⟩ := exists_enter entered
    exact quiet s' (.inr (.inl ⟨w, taken⟩))
  have none_running : ∀ w task : Nat, s.workers[w]? ≠ some (.running task) := by
    intro w task ran
    obtain ⟨s', taken⟩ : ∃ s', s.finish w (outcome task) = some s' := by
      rw [finish, ran]
      exact ⟨_, rfl⟩
    exact quiet s' (.inr (.inr (.inl ⟨w, task, ran, taken⟩)))
  have none_notifying : s.notifying = 0 := by
    by_contra some_left
    obtain ⟨w, s', taken⟩ := exists_notify some_left
    exact quiet s' (.inl ⟨w, taken⟩)
  have idle : ∀ worker ∈ s.workers, worker = .asleep ∨ worker = .exited := by
    intro worker mem
    obtain ⟨w, here⟩ := List.getElem?_of_mem mem
    cases worker with
    | entering => exact absurd here (none_entering w)
    | running task => exact absurd here (none_running w task)
    | asleep => exact .inl rfl
    | exited => exact .inr rfl
  have unflagged : s.stopper ≠ .flagged := fun flagged =>
    quiet _ (.inr (.inr (.inr (if_pos flagged))))
  have nobody : s.entering = 0 := by
    refine List.sum_eq_zero fun n mem => ?_
    obtain ⟨worker, member, rfl⟩ := List.mem_map.mp mem
    obtain rfl | rfl := idle worker member
    · rfl
    · rfl
  refine drained_of_idle ledger ?_ idle fun stopped worker mem => ?_
  · by_cases sleeping : .asleep ∈ s.workers
    · -- as many tasks as workers about to look, or to be notified: none
      have bound := signals.awake sleeping
      exact List.length_eq_zero_iff.mp (by omega)
    · by_contra some_task
      obtain ⟨worker, mem⟩ := List.exists_mem_of_ne_nil _ (signals.built some_task)
      obtain rfl | rfl := idle worker mem
      · exact sleeping mem
      · exact some_task (signals.exits mem).2
  · obtain rfl | done := idle worker mem
    · exact absurd mem (signals.roused stopped unflagged)
    · exact done

/-- Joined workers have left nothing behind. -/
theorem drained_of_joined (ledger : Ledger e s) (signals : Signals e s)
    (joined : s.stopper = .joined) : Drained s := by
  have exited := signals.joined joined
  refine drained_of_idle ledger ?_ (fun worker mem => .inr (exited worker mem)) fun _ => exited
  by_contra some_task
  obtain ⟨worker, mem⟩ := List.exists_mem_of_ne_nil _ (signals.built some_task)
  exact some_task (signals.exits (exited worker mem ▸ mem)).2

theorem works_acc (outcome : Nat → Except ε ρ) (s : State ε ρ) :
    Acc (fun s' s => Works outcome s s') s := by
  have smaller : ∀ {a b : State ε ρ}, Works outcome b a → a.work < b.work := Works.work_lt
  exact (Subrelation.wf smaller (measure work).wf).apply s

/-- The executor's own steps keep what holds of a run, and accept nothing. -/
theorem works_kept (ledger : Ledger e s) (signals : Signals e s) {outcome : Nat → Except ε ρ}
    (works : ReflTransGen (Works outcome) s s') :
    Ledger e s' ∧ Signals e s' ∧ s'.accepted = s.accepted ∧ s'.stopping = s.stopping := by
  induction works with
  | refl => exact ⟨ledger, signals, rfl, rfl⟩
  | tail _ last ih =>
    obtain ⟨ledger, signals, accepted, stopping⟩ := ih
    obtain ⟨ev, taken, noSubmit, noStop⟩ := last.exists_step e
    obtain ⟨accepted', -, stopping'⟩ := step_kept taken noSubmit
    exact ⟨ledger.effect (step_effect taken), signals.effect (step_effect taken),
      accepted'.trans accepted, (stopping' noStop).trans stopping⟩

/-- **The executor runs exactly the work it has accepted.** In every state of every run:
each call of `Submit` has been accepted or rejected, and not both, and it was rejected exactly if
it found the executor stopping or the queue full, with the error that says which; accepted tasks
are started in the order of their acceptance, and those started run or have finished, each once;
the queue is within its capacity; nothing is accepted once `stopping_` is set; when `Stop` has
joined the workers the queue is empty and every accepted task has finished. Whatever the tasks
do, the executor's own steps come to an end, and then all accepted tasks have finished, and the
workers have returned if `Stop` was called. -/
theorem runs_exactly_accepted (e : Executor) {trace : List (State ε ρ × Event ε ρ)}
    (run : Runs e trace s) :
    s.accepted ++ s.rejected.map Prod.fst ~ List.range s.submitted ∧
    (∀ task err, (task, err) ∈ s.rejected ↔ ∃ t, (t, Event.submit) ∈ trace ∧
      t.submitted = task ∧ (t.stopping = true ∨ t.tasks.length ≥ e.options.queueCapacity) ∧
      err = ⟨if t.stopping then .closed else .overloaded, "Client queue is closed or full"⟩) ∧
    (∀ task, task ∈ s.accepted ↔ ∃ t, (t, Event.submit) ∈ trace ∧
      t.submitted = task ∧ t.stopping = false ∧ t.tasks.length < e.options.queueCapacity) ∧
    s.started ++ s.tasks = s.accepted ∧
    s.finished.map Prod.fst ++ s.workers.flatMap Worker.hand ~ s.started ∧
    s.tasks.length ≤ e.options.queueCapacity ∧
    (s.stopping = true → ∀ {ev s'}, step e s ev = some s' →
      s'.stopping = true ∧ s'.accepted = s.accepted) ∧
    (s.stopper = .joined → s.tasks = [] ∧ s.finished.map Prod.fst ~ s.accepted) ∧
    (∀ outcome : Nat → Except ε ρ, Acc (fun s' s => Works outcome s s') s ∧
      ∀ s', ReflTransGen (Works outcome) s s' → (∀ s'', ¬ Works outcome s' s'') →
        s'.accepted = s.accepted ∧ s'.tasks = [] ∧ s'.finished.map Prod.fst ~ s.accepted ∧
        (s.stopping = true → ∀ worker ∈ s'.workers, worker = .exited)) := by
  obtain ⟨judged, ledger, signals⟩ := run.invariant
  refine ⟨ledger.calls, ?_, ?_, ledger.order, ledger.ran, ledger.capacity, ?_, ?_, ?_⟩
  · intro task err
    rw [judged.rejected]
    refine exists_congr fun t => and_congr_right' ?_
    rw [Prod.mk.injEq, eq_comm (a := task)]
    exact and_left_comm
  · intro task
    rw [judged.accepted]
    refine exists_congr fun t => and_congr_right' ?_
    rw [Full, not_or, Bool.not_eq_true, not_le, eq_comm (a := task), and_comm]
  · intro stopped ev s' taken
    cases step_effect taken with
    | accepted _ running _ => simp [running] at stopped
    | stopped _ => exact ⟨rfl, rfl⟩
    | _ => exact ⟨stopped, rfl⟩
  · intro joined
    have drained := drained_of_joined ledger signals joined
    exact ⟨drained.empty, drained.ran⟩
  · refine fun outcome => ⟨works_acc outcome s, fun s' works quiet => ?_⟩
    obtain ⟨ledger', signals', accepted, stopping⟩ := works_kept ledger signals works
    have drained := drained_of_quiet ledger' signals' outcome quiet
    exact ⟨accepted, drained.empty, accepted ▸ drained.ran, stopping ▸ drained.exited⟩

/-- One worker and room for one task. -/
def sole : Executor where
  options := { workers := 1, queueCapacity := 1, maxFrameBytes := 1024 }
  valid := by decide

/-- A task runs and another one waits when `Submit` is called again and `Stop` after it. The task
that was waiting throws. -/
theorem runs_exactly_accepted_sole :
    ∃ (trace : List (State String Nat × Event String Nat)) (s : State String Nat),
      Runs sole trace s ∧ s.stopper = .joined ∧
      s.rejected = [(2, ⟨.overloaded, "Client queue is closed or full"⟩)] ∧
      s.accepted = [0, 1] ∧ s.tasks = [] ∧ s.finished.map Prod.fst ~ s.accepted := by
  have run : Runs sole _ _ := Run.replays (step sole) ({} : State String Nat)
    [.spawn, .enter 0, .submit, .notify 0, .enter 0, .submit, .submit, .notify 0, .stop,
      .finish 0 (.ok 1), .enter 0, .notifyAll, .finish 0 (.error "worker failure"), .enter 0,
      .join] (by decide +kernel)
  obtain ⟨-, -, -, -, -, -, -, joined, -⟩ := runs_exactly_accepted sole run
  exact ⟨_, _, run, by decide +kernel, by decide +kernel, by decide +kernel,
    joined (by decide +kernel)⟩

end State
end Executor
end KVRPC.Client
