import KVRPC.Library.Runs
import KVRPC.Net.Reactor
import Mathlib.Logic.Relation

/-!
# Posting to an event loop

`Post`, `Stop` and `Run` of `event_loop.cpp` as far as tasks are concerned. Any thread may push a
task and then write to the eventfd; the loop's thread waits for events, empties the eventfd, takes
the tasks and runs them. None of these is atomic with another, and tasks and callbacks may post in
turn. They may also throw, and `epoll_wait` may fail: nothing in `Run` catches an exception, so it
ends the loop without a `Stop`, and the tasks that were taken and not started go with it.

1. What the users of a loop see of its tasks is the queue of a `Reactor`: every step posts to it,
   takes its head, leaves it alone or, with an exception, drops what was taken (`step_effect`).
2. The loop does not wait while there are tasks, unless it is about to be woken (`Inv.awake`).
-/
namespace KVRPC.Net

open Library Relation

variable {α : Type}

/-- An entry of the array `epoll_wait` fills: the eventfd, or some other descriptor. -/
inductive Ready where
  | wakeup
  | descriptor
  deriving DecidableEq, Repr

/-- The loops of `Run` that call user code: over the array, over the tasks that were taken and
over the timers. -/
inductive Stage (α : Type) where
  | scanning (events : List Ready)
  | running (batch : List α) (events : List Ready)
  | timers
  deriving DecidableEq

/-- Where the loop's thread is in `Run`. -/
inductive Phase (α : Type) where
  | testing
  | waiting
  /-- In the loop that empties the eventfd. -/
  | reading (events : List Ready)
  /-- Before the tasks are taken. -/
  | swapping (events : List Ready)
  | before (stage : Stage α)
  /-- In a task, a callback or a timer. -/
  | calling (stage : Stage α)
  | exited
  /-- An exception has left `Run` and destroyed these tasks. -/
  | unwound (lost : List α)
  deriving DecidableEq

/-- The tasks that were taken and have not been started. -/
def Stage.batch : Stage α → List α
  | .running batch _ => batch
  | _ => []

def Phase.batch : Phase α → List α
  | .before stage | .calling stage => stage.batch
  | _ => []

def Phase.lost : Phase α → List α
  | .unwound lost => lost
  | _ => []

/-- The eventfd is among the entries still to come. -/
def Stage.due : Stage α → Bool
  | .scanning events | .running _ events => .wakeup ∈ events
  | .timers => false

/-- The loop does not wait again before the tasks are taken. -/
def Phase.due : Phase α → Bool
  | .reading _ | .swapping _ | .unwound _ => true
  | .before stage | .calling stage => stage.due
  | _ => false

/-- Thread zero is the loop's own. -/
structure EventLoop (α : Type) where
  tasks : List α := []
  /-- The count of the eventfd. -/
  counter : Nat := 0
  /-- `epoll` has an event of the eventfd to report. -/
  edge : Bool := false
  stopping : Bool := false
  phase : Phase α := .testing
  /-- The thread is in `Post`, between the push and the write. -/
  posting : Nat → Bool := fun _ => false
  -- what has happened so far: the tasks in the order they were pushed, and as they were started
  pushed : List α := []
  executed : List α := []

/-- The steps of the loop's thread. -/
inductive Move where
  | test
  | wake (events : List Ready)
  | interrupted
  /-- `epoll_wait` fails for another reason than a signal. -/
  | fail
  | scan
  | dispatch (found : Bool)
  | read
  | swap
  | start
  | finish
  /-- A task, a callback or a timer throws. -/
  | throws
  | timer (due : Bool)
  deriving DecidableEq

inductive LoopEvent (α : Type) where
  | push (thread : Nat) (task : α)
  | write (thread : Nat)
  | stop
  /-- `epoll` notices that there is nothing to read. -/
  | settle
  | move (m : Move)
  deriving DecidableEq

/-- The event throws an exception out of `Run`. -/
def LoopEvent.Unwinds (e : LoopEvent α) : Prop := e = .move .fail ∨ e = .move .throws

instance [DecidableEq α] (e : LoopEvent α) : Decidable e.Unwinds :=
  inferInstanceAs (Decidable (_ ∨ _))

namespace EventLoop

/-- One step of `Run`. Each `read` of the eventfd takes the whole count and the last one finds
none; other descriptors, timeouts and full arrays are left to the environment. -/
def move (s : EventLoop α) : Move → Option (EventLoop α)
  | .test =>
    match s.phase with
    | .testing => some { s with phase := if s.stopping then .exited else .waiting }
    | _ => none
  | .wake events =>
    match s.phase with
    | .waiting =>
      if .wakeup ∈ events then
        if s.edge then some { s with phase := .before (.scanning events), edge := false } else none
      else some { s with phase := .before (.scanning events) }
    | _ => none
  | .interrupted =>
    match s.phase with
    | .waiting => some { s with phase := .testing }
    | _ => none
  | .fail =>
    match s.phase with
    | .waiting => some { s with phase := .unwound [] }
    | _ => none
  | .scan =>
    match s.phase with
    | .before (.scanning []) => some { s with phase := .before .timers }
    | .before (.scanning (.wakeup :: events)) => some { s with phase := .reading events }
    | _ => none
  | .dispatch found =>
    match s.phase with
    | .before (.scanning (.descriptor :: events)) =>
      some { s with
        phase := if found then .calling (.scanning events) else .before (.scanning events) }
    | _ => none
  | .read =>
    match s.phase with
    | .reading events =>
      if s.counter = 0 then some { s with phase := .swapping events }
      else some { s with counter := 0 }
    | _ => none
  | .swap =>
    match s.phase with
    | .swapping events => some { s with phase := .before (.running s.tasks events), tasks := [] }
    | _ => none
  | .start =>
    match s.phase with
    | .before (.running [] events) => some { s with phase := .before (.scanning events) }
    | .before (.running (task :: batch) events) =>
      some { s with phase := .calling (.running batch events), executed := s.executed ++ [task] }
    | _ => none
  | .finish =>
    match s.phase with
    | .calling stage => some { s with phase := .before stage }
    | _ => none
  | .throws =>
    match s.phase with
    -- the vector the tasks were swapped into is a local one
    | .calling stage => some { s with phase := .unwound stage.batch }
    | _ => none
  | .timer due =>
    match s.phase with
    | .before .timers => some { s with phase := if due then .calling .timers else .testing }
    | _ => none

/-- The loop's thread is in user code. -/
def Calling (s : EventLoop α) : Prop := ∃ stage, s.phase = .calling stage

instance (s : EventLoop α) : Decidable s.Calling :=
  match h : s.phase with
  | .calling stage => isTrue ⟨stage, h⟩
  | .testing | .waiting | .reading _ | .swapping _ | .before _ | .exited | .unwound _ =>
    isFalse fun ⟨_, called⟩ => by simp [h] at called

/-- `Post` is a push and a write, `Stop` a store and a `Post`. A thread is in one `Post` at a
time, and while the loop's thread is in it, `Run` does not go on. -/
def step (s : EventLoop α) : LoopEvent α → Option (EventLoop α)
  | .push thread task =>
    if s.posting thread = false ∧ (thread = 0 → s.Calling) then
      some { s with
        tasks := s.tasks ++ [task]
        posting := Function.update s.posting thread true
        pushed := s.pushed ++ [task] }
    else none
  | .write thread =>
    if s.posting thread then
      some { s with
        counter := s.counter + 1
        edge := true
        posting := Function.update s.posting thread false }
    else none
  | .stop => some { s with stopping := true }
  | .settle => if s.counter = 0 then some { s with edge := false } else none
  | .move m => if s.posting 0 then none else s.move m

abbrev Runs (trace : List (EventLoop α × LoopEvent α)) (s : EventLoop α) : Prop :=
  Run (fun s e s' => step s e = some s') (fun _ => False) {} trace s

/-! ## The queue -/

/-- The tasks that have been pushed and not started, as a reactor. -/
def reactor (s : EventLoop α) : Reactor Unit Unit α where
  tasks := s.phase.batch ++ s.tasks
  stopping := s.stopping

/-- What a step does to the queue and to the history. -/
inductive Effect (s s' : EventLoop α) : Prop where
  | posted (task : α) (queue : s'.reactor = s.reactor.post task)
      (pushed : s'.pushed = s.pushed ++ [task]) (executed : s'.executed = s.executed)
      (lost : s'.phase.lost = s.phase.lost)
  | started (task : α) (queue : s.reactor.tasks = task :: s'.reactor.tasks)
      (pushed : s'.pushed = s.pushed) (executed : s'.executed = s.executed ++ [task])
      (lost : s.phase.lost = [] ∧ s'.phase.lost = [])
  | dropped (queue : s.reactor.tasks = s'.phase.lost ++ s'.reactor.tasks)
      (pushed : s'.pushed = s.pushed) (executed : s'.executed = s.executed)
      (lost : s.phase.lost = [])
  | quiet (queue : s'.reactor.tasks = s.reactor.tasks) (pushed : s'.pushed = s.pushed)
      (executed : s'.executed = s.executed) (lost : s'.phase.lost = s.phase.lost)

theorem move_effect {s s' : EventLoop α} {m : Move} (h : s.move m = some s') : Effect s s' := by
  cases m
  case start =>
    simp only [move] at h
    split at h
    case h_1 events here =>
      cases h
      exact .quiet (by simp [reactor, Phase.batch, Stage.batch, here]) rfl rfl
        (by simp [Phase.lost, here])
    case h_2 task batch events here =>
      cases h
      exact .started task (by simp [reactor, Phase.batch, Stage.batch, here]) rfl rfl
        (by simp [Phase.lost, here])
    case h_3 => cases h
  case throws =>
    simp only [move] at h
    split at h
    case h_1 stage here =>
      cases h
      exact .dropped (by simp [reactor, Phase.batch, Phase.lost, here]) rfl rfl
        (by simp [Phase.lost, here])
    case h_2 => cases h
  all_goals
    -- no other step takes a task from the queue
    simp only [move] at h
    repeat' split at h
    all_goals cases h
    all_goals refine .quiet ?_ rfl rfl ?_
    all_goals simp [reactor, Phase.batch, Phase.lost, Stage.batch, *]

theorem step_effect {s s' : EventLoop α} {e : LoopEvent α} (h : step s e = some s') :
    Effect s s' := by
  cases e with
  | push thread task =>
    obtain ⟨-, ⟨⟩⟩ := Option.ite_none_right_eq_some.mp h
    exact .posted task (by simp [reactor, Reactor.post]) rfl rfl rfl
  | write thread =>
    obtain ⟨-, ⟨⟩⟩ := Option.ite_none_right_eq_some.mp h
    exact .quiet rfl rfl rfl rfl
  | stop =>
    cases h
    exact .quiet rfl rfl rfl rfl
  | settle =>
    obtain ⟨-, ⟨⟩⟩ := Option.ite_none_right_eq_some.mp h
    exact .quiet rfl rfl rfl rfl
  | move m =>
    obtain ⟨-, moved⟩ := Option.ite_none_left_eq_some.mp h
    exact move_effect moved

/-- The history and the queue together are what has been pushed. -/
def Conserved (s : EventLoop α) : Prop := s.executed ++ s.phase.lost ++ s.reactor.tasks = s.pushed

theorem Effect.conserved {s s' : EventLoop α} (h : Effect s s') (inv : s.Conserved) :
    s'.Conserved := by
  unfold Conserved at *
  cases h with
  | posted task queue pushed executed lost =>
    rw [queue, pushed, executed, lost, ← inv]
    simp [Reactor.post]
  | started task queue pushed executed lost =>
    rw [pushed, executed, lost.2, ← inv, lost.1, queue]
    simp
  | dropped queue pushed executed lost =>
    rw [pushed, executed, ← inv, lost, queue]
    simp
  | quiet queue pushed executed lost => rw [queue, pushed, executed, lost, inv]

/-! ## Exceptions -/

/-- An exception has ended the loop. -/
def Unwound (s : EventLoop α) : Prop := ∃ lost, s.phase = .unwound lost

theorem lost_eq_nil {s : EventLoop α} (h : ¬ s.Unwound) : s.phase.lost = [] := by
  unfold Phase.lost
  split
  case h_1 lost here => exact absurd ⟨lost, here⟩ h
  case h_2 => rfl

theorem move_unwound {s s' : EventLoop α} {m : Move} (h : s.move m = some s') :
    ¬ s.Unwound ∧ (s'.Unwound ↔ LoopEvent.Unwinds (.move m : LoopEvent α)) := by
  unfold Unwound
  cases m
  all_goals
    simp only [move] at h
    repeat' split at h
    all_goals cases h
    all_goals simp [LoopEvent.Unwinds, *]

/-- Only the steps of `Run` change the phase. -/
theorem step_elsewhere {s s' : EventLoop α} {e : LoopEvent α} (h : step s e = some s') :
    (∃ m, e = .move m ∧ s.move m = some s') ∨
      (s'.phase = s.phase ∧ s'.executed = s.executed ∧ ¬ e.Unwinds) := by
  cases e with
  | push thread task =>
    obtain ⟨-, ⟨⟩⟩ := Option.ite_none_right_eq_some.mp h
    exact .inr ⟨rfl, rfl, by simp [LoopEvent.Unwinds]⟩
  | write thread =>
    obtain ⟨-, ⟨⟩⟩ := Option.ite_none_right_eq_some.mp h
    exact .inr ⟨rfl, rfl, by simp [LoopEvent.Unwinds]⟩
  | stop =>
    cases h
    exact .inr ⟨rfl, rfl, by simp [LoopEvent.Unwinds]⟩
  | settle =>
    obtain ⟨-, ⟨⟩⟩ := Option.ite_none_right_eq_some.mp h
    exact .inr ⟨rfl, rfl, by simp [LoopEvent.Unwinds]⟩
  | move m => exact .inl ⟨m, rfl, (Option.ite_none_left_eq_some.mp h).2⟩

theorem step_unwound {s s' : EventLoop α} {e : LoopEvent α} (h : step s e = some s') :
    s'.Unwound ↔ s.Unwound ∨ e.Unwinds := by
  rcases step_elsewhere h with ⟨m, rfl, moved⟩ | ⟨phase, -, quiet⟩
  · obtain ⟨inside, ends⟩ := move_unwound moved
    rw [ends, or_iff_right inside]
  · simp [Unwound, phase, quiet]

/-- After an exception nothing is started, whatever is pushed or written. -/
theorem Unwound.step {s s' : EventLoop α} {e : LoopEvent α} (ended : s.Unwound)
    (h : step s e = some s') : s'.Unwound ∧ s'.executed = s.executed := by
  refine ⟨(step_unwound h).mpr (.inl ended), ?_⟩
  rcases step_elsewhere h with ⟨m, -, moved⟩ | ⟨-, executed, -⟩
  · exact absurd ended (move_unwound moved).1
  · exact executed

theorem Unwound.run {s s' : EventLoop α} {later : List (EventLoop α × LoopEvent α)}
    (ended : s.Unwound)
    (run : Run (fun s e s' => EventLoop.step s e = some s') (fun _ => False) s later s') :
    s'.executed = s.executed := by
  refine (run.invariant (fun _ t => t.Unwound ∧ t.executed = s.executed) (fun _ _ => True)
    ⟨ended, rfl⟩ ?_ (by simp)).2
  rintro trace t e t' ⟨still, same⟩ - taken
  obtain ⟨ended, executed⟩ := still.step taken
  exact ⟨ended, executed.trans same⟩

theorem Runs.unwound_iff {trace : List (EventLoop α × LoopEvent α)} {s : EventLoop α}
    (run : Runs trace s) : s.Unwound ↔ ∃ e ∈ trace, e.2.Unwinds := by
  refine run.invariant (fun trace s => s.Unwound ↔ ∃ e ∈ trace, e.2.Unwinds) (fun _ _ => True)
    (by simp [Unwound]) ?_ (by simp)
  intro trace s e s' ih _ taken
  rw [step_unwound taken, ih]
  simp [or_and_right, exists_or]

/-! ## Wakeups -/

/-- The eventfd is readable and `epoll` is going to say so. -/
def Pending (s : EventLoop α) : Prop := s.edge = true ∧ 0 < s.counter

structure Inv (s : EventLoop α) : Prop where
  conserved : s.Conserved
  /-- No wakeup is lost: the loop does not wait before it takes the tasks, or a wakeup is pending,
  or some thread has still to write. -/
  awake : s.tasks ≠ [] → s.phase.due = true ∨ s.Pending ∨ ∃ thread, s.posting thread = true
  exits : s.phase = .exited → s.stopping = true

theorem move_awake {s s' : EventLoop α} {m : Move} (h : s.move m = some s')
    (awake : s.tasks ≠ [] → s.phase.due = true ∨ s.Pending ∨ ∃ t, s.posting t = true) :
    s'.tasks ≠ [] → s'.phase.due = true ∨ s'.Pending ∨ ∃ t, s'.posting t = true := by
  unfold Pending at *
  cases m
  all_goals
    simp only [move] at h
    repeat' split at h
    all_goals cases h
    all_goals simp_all [Phase.due, Stage.due]

theorem move_exits {s s' : EventLoop α} {m : Move} (h : s.move m = some s') :
    s'.phase = .exited → s'.stopping = true := by
  cases m
  all_goals
    simp only [move] at h
    repeat' split at h
    all_goals cases h
    all_goals simp_all

theorem Inv.step {s s' : EventLoop α} {e : LoopEvent α} (inv : s.Inv)
    (h : step s e = some s') : s'.Inv := by
  have conserved := (step_effect h).conserved inv.conserved
  cases e with
  | push thread task =>
    obtain ⟨-, ⟨⟩⟩ := Option.ite_none_right_eq_some.mp h
    exact ⟨conserved, fun _ => .inr (.inr ⟨thread, by simp⟩), inv.exits⟩
  | write thread =>
    obtain ⟨-, ⟨⟩⟩ := Option.ite_none_right_eq_some.mp h
    exact ⟨conserved, fun _ => .inr (.inl ⟨rfl, Nat.succ_pos _⟩), inv.exits⟩
  | stop =>
    cases h
    exact ⟨conserved, inv.awake, fun _ => rfl⟩
  | settle =>
    obtain ⟨empty, ⟨⟩⟩ := Option.ite_none_right_eq_some.mp h
    refine ⟨conserved, fun some_task => ?_, inv.exits⟩
    -- an event that is still to be reported is not given up while there is something to read
    rcases inv.awake some_task with due | ⟨-, readable⟩ | posting
    · exact .inl due
    · exact absurd empty readable.ne'
    · exact .inr (.inr posting)
  | move m =>
    obtain ⟨-, moved⟩ := Option.ite_none_left_eq_some.mp h
    exact ⟨conserved, move_awake moved inv.awake, move_exits moved⟩

theorem Runs.inv {trace : List (EventLoop α × LoopEvent α)} {s : EventLoop α}
    (run : Runs trace s) : s.Inv :=
  run.invariant (fun _ => Inv) (fun _ _ => True) ⟨rfl, by simp, by simp⟩
    (fun inv _ taken => inv.step taken) (by simp)

/-! ## Progress -/

/-- The loop goes on, or a thread finishes its `Post`. -/
def Advances (s s' : EventLoop α) : Prop :=
  (∃ m, step s (.move m) = some s') ∨ ∃ thread, step s (.write thread) = some s'

abbrev Reaches : EventLoop α → EventLoop α → Prop := ReflTransGen Advances

theorem Advances.of_move {s s' : EventLoop α} (m : Move) (idle : s.posting 0 = false)
    (h : s.move m = some s') : Advances s s' :=
  .inl ⟨m, by simpa [EventLoop.step, idle] using h⟩

theorem Advances.of_write {s : EventLoop α} {thread : Nat} (h : s.posting thread = true) :
    Advances s { s with
      counter := s.counter + 1
      edge := true
      posting := Function.update s.posting thread false } :=
  .inr ⟨thread, by simp [EventLoop.step, h]⟩

theorem Advances.inv {s s' : EventLoop α} (h : Advances s s') (inv : s.Inv) : s'.Inv := by
  obtain ⟨m, taken⟩ | ⟨thread, taken⟩ := h
  · exact inv.step taken
  · exact inv.step taken

theorem move_stopping {s s' : EventLoop α} {m : Move} (h : s.move m = some s') :
    s'.stopping = s.stopping ∧ s'.pushed = s.pushed := by
  cases m
  all_goals
    simp only [move] at h
    repeat' split at h
    all_goals cases h
    all_goals exact ⟨rfl, rfl⟩

theorem Advances.frame {s s' : EventLoop α} (h : Advances s s') :
    s'.stopping = s.stopping ∧ s'.pushed = s.pushed := by
  obtain ⟨m, taken⟩ | ⟨thread, taken⟩ := h
  · exact move_stopping (Option.ite_none_left_eq_some.mp taken).2
  · obtain ⟨-, ⟨⟩⟩ := Option.ite_none_right_eq_some.mp taken
    exact ⟨rfl, rfl⟩

theorem Reaches.inv {s s' : EventLoop α} (h : Reaches s s') (inv : s.Inv) : s'.Inv := by
  induction h with
  | refl => exact inv
  | tail _ next ih => exact next.inv ih

theorem Reaches.frame {s s' : EventLoop α} (h : Reaches s s') :
    s'.stopping = s.stopping ∧ s'.pushed = s.pushed := by
  induction h with
  | refl => exact ⟨rfl, rfl⟩
  | tail _ next ih => exact ⟨next.frame.1.trans ih.1, next.frame.2.trans ih.2⟩

/-- The tasks that were taken are run one after another. -/
theorem reaches_scanning {s : EventLoop α} {batch : List α} {events : List Ready}
    (idle : s.posting 0 = false) (h : s.phase = .before (.running batch events)) :
    Reaches s { s with
      phase := .before (.scanning events), executed := s.executed ++ batch } := by
  induction batch generalizing s with
  | nil => exact .single (.of_move .start idle (by simp [move, h]))
  | cons task batch ih =>
    let begun := { s with executed := s.executed ++ [task] }
    have start : Advances s { begun with phase := .calling (.running batch events) } :=
      .of_move .start idle (by simp [move, h, begun])
    have finish : Advances { begun with phase := .calling (.running batch events) }
        { begun with phase := .before (.running batch events) } := .of_move .finish idle rfl
    have rest := ih (s := { begun with phase := .before (.running batch events) }) idle rfl
    rw [List.append_cons]
    exact .head start (.head finish rest)

/-- Once the eventfd is empty the tasks are taken. -/
theorem reaches_taken {s : EventLoop α} {events : List Ready} (idle : s.posting 0 = false)
    (h : s.phase = .reading events) :
    Reaches s { s with
      counter := 0
      tasks := []
      phase := .before (.scanning events)
      executed := s.executed ++ s.tasks } := by
  have emptied : Reaches s { s with counter := 0 } := by
    by_cases empty : s.counter = 0
    · rw [← empty]
    · exact .single (.of_move .read idle (by simp [move, h, empty]))
  have last : Advances { s with counter := 0 }
      { s with counter := 0, phase := .swapping events } :=
    .of_move .read idle (by simp [move, h])
  have swap : Advances { s with counter := 0, phase := .swapping events }
      { s with counter := 0, phase := .before (.running s.tasks events), tasks := [] } :=
    .of_move .swap idle rfl
  have run := reaches_scanning
    (s := { s with counter := 0, phase := .before (.running s.tasks events), tasks := [] }) idle rfl
  exact emptied.trans (.head last (.head swap run))

/-- The loop comes back to the condition of its outer loop. -/
def Returns (s : EventLoop α) : Prop :=
  ∃ s', Reaches s s' ∧ s'.posting 0 = false ∧ s'.phase = .testing

theorem Returns.of_reaches {s s' : EventLoop α} (h : Reaches s s') (rest : s'.Returns) :
    s.Returns := by
  obtain ⟨last, reached, found⟩ := rest
  exact ⟨last, h.trans reached, found⟩

theorem returns_timers {s : EventLoop α} (idle : s.posting 0 = false)
    (h : s.phase = .before .timers) : s.Returns := by
  have last : Advances s { s with phase := .testing } :=
    .of_move (.timer false) idle (by simp [move, h])
  exact ⟨_, .single last, idle, rfl⟩

theorem returns_scanning {s : EventLoop α} {events : List Ready} (idle : s.posting 0 = false)
    (h : s.phase = .before (.scanning events)) : s.Returns := by
  induction events generalizing s with
  | nil =>
    have last : Advances s { s with phase := .before .timers } :=
      .of_move .scan idle (by simp [move, h])
    refine Returns.of_reaches (.single last) ?_
    exact returns_timers idle rfl
  | cons event events ih =>
    cases event with
    | wakeup =>
      have first : Advances s { s with phase := .reading events } :=
        .of_move .scan idle (by simp [move, h])
      have taken := reaches_taken (s := { s with phase := .reading events }) idle rfl
      refine Returns.of_reaches (.head first taken) ?_
      exact ih idle rfl
    | descriptor =>
      have first : Advances s { s with phase := .before (.scanning events) } :=
        .of_move (.dispatch false) idle (by simp [move, h])
      refine Returns.of_reaches (.single first) ?_
      exact ih idle rfl

theorem returns_stage {s : EventLoop α} {stage : Stage α} (idle : s.posting 0 = false)
    (h : s.phase = .before stage) : s.Returns := by
  cases stage with
  | timers => exact returns_timers idle h
  | scanning events => exact returns_scanning idle h
  | running batch events =>
    refine Returns.of_reaches (reaches_scanning idle h) ?_
    exact returns_scanning idle rfl

theorem returns_reading {s : EventLoop α} {events : List Ready} (idle : s.posting 0 = false)
    (h : s.phase = .reading events) : s.Returns := by
  refine Returns.of_reaches (reaches_taken idle h) ?_
  exact returns_scanning idle rfl

theorem returns {s : EventLoop α} (idle : s.posting 0 = false) (h : s.phase ≠ .exited)
    (whole : ¬ s.Unwound) : s.Returns := by
  cases here : s.phase with
  | testing => exact ⟨s, .refl, idle, here⟩
  | waiting =>
    have back : Advances s { s with phase := .testing } :=
      .of_move .interrupted idle (by simp [move, here])
    exact ⟨_, .single back, idle, rfl⟩
  | reading events => exact returns_reading idle here
  | swapping events =>
    have swap : Advances s { s with phase := .before (.running s.tasks events), tasks := [] } :=
      .of_move .swap idle (by simp [move, here])
    refine Returns.of_reaches (.single swap) ?_
    exact returns_stage idle rfl
  | before stage => exact returns_stage idle here
  | calling stage =>
    have finish : Advances s { s with phase := .before stage } :=
      .of_move .finish idle (by simp [move, here])
    refine Returns.of_reaches (.single finish) ?_
    exact returns_stage idle rfl
  | exited => exact absurd here h
  | unwound lost => exact absurd ⟨lost, here⟩ whole

/-- A loop that is woken runs the tasks. -/
theorem reaches_executed {s : EventLoop α} (idle : s.posting 0 = false) (h : s.phase = .waiting)
    (woken : s.edge = true) : ∃ s', Reaches s s' ∧ s'.executed = s.executed ++ s.tasks := by
  have wake : Advances s { s with phase := .before (.scanning [.wakeup]), edge := false } :=
    .of_move (.wake [.wakeup]) idle (by simp [move, h, woken])
  have scan : Advances { s with phase := .before (.scanning [.wakeup]), edge := false }
      { s with phase := .reading [], edge := false } := .of_move .scan idle rfl
  have taken := reaches_taken (s := { s with phase := .reading [], edge := false }) idle rfl
  exact ⟨_, .head wake (.head scan taken), rfl⟩

/-- A waiting loop with tasks is woken, once a thread that is still posting has written. -/
theorem Inv.reaches_woken {s : EventLoop α} (inv : s.Inv) (idle : s.posting 0 = false)
    (h : s.phase = .waiting) (some_task : s.tasks ≠ []) :
    ∃ s', Reaches s s' ∧ s'.executed = s.executed ++ s.tasks := by
  rcases inv.awake some_task with due | ⟨edge, -⟩ | ⟨thread, posting⟩
  · simp [h, Phase.due] at due
  · exact reaches_executed idle h edge
  · obtain ⟨s', rest, ran⟩ := reaches_executed
      (s := { s with counter := s.counter + 1, edge := true
                     posting := Function.update s.posting thread false })
      (by simp [Function.update_apply, idle]) h rfl
    exact ⟨s', .head (.of_write posting) rest, ran⟩

theorem Inv.inside {s : EventLoop α} (inv : s.Inv) (active : s.stopping = false) :
    s.phase ≠ .exited := fun exited => by
  have stopped := inv.exits exited
  rw [active] at stopped
  cases stopped

/-- Without further posts the loop runs everything that has been pushed. -/
theorem Inv.drains {s : EventLoop α} (inv : s.Inv) (active : s.stopping = false)
    (whole : ¬ s.Unwound) : ∃ s', Reaches s s' ∧ s'.executed = s.pushed := by
  -- a `Post` of the loop's own thread comes to its end first
  obtain ⟨s₁, posted, idle₁, phase⟩ :
      ∃ s', Reaches s s' ∧ s'.posting 0 = false ∧ s'.phase = s.phase := by
    cases own : s.posting 0 with
    | false => exact ⟨s, .refl, own, rfl⟩
    | true => exact ⟨_, .single (.of_write own), by simp, rfl⟩
  obtain ⟨s₂, returned, idle₂, testing⟩ :=
    returns idle₁ (phase ▸ inv.inside active) (by simpa [Unwound, phase] using whole)
  have reached : Reaches s s₂ := posted.trans returned
  have test : Advances s₂ { s₂ with phase := .waiting } :=
    .of_move .test idle₂ (by simp [move, testing, reached.frame.1, active])
  have waiting : Reaches s { s₂ with phase := .waiting } := reached.tail test
  have all : s₂.executed ++ s₂.tasks = s.pushed := by
    have conserved := (waiting.inv inv).conserved
    rw [← waiting.frame.2, ← conserved]
    simp [reactor, Phase.lost, Phase.batch]
  by_cases empty : s₂.tasks = []
  · exact ⟨_, waiting, by simpa [empty] using all⟩
  · obtain ⟨s₃, woken, ran⟩ := (waiting.inv inv).reaches_woken idle₂ rfl empty
    exact ⟨s₃, waiting.trans woken, ran.trans all⟩

/-- Tasks posted to a loop from any threads. What has been started, what an exception has
destroyed, what was taken and what is still in the vector are the tasks in the order they were
pushed, so that none is run twice. A loop that waits while there are tasks has a wakeup pending or
a thread in `Post` that has not written. Unless an exception leaves `Run` no task is destroyed, and
until `Stop` is called the loop does not end and can run everything that has been pushed. Once one
has left it, no further task is started. -/
theorem posted_tasks_run_once {trace : List (EventLoop α × LoopEvent α)} {s : EventLoop α}
    (run : Runs trace s) :
    s.executed ++ s.phase.lost ++ s.phase.batch ++ s.tasks = s.pushed ∧
    (s.phase = .waiting → s.tasks ≠ [] →
      (s.edge = true ∧ 0 < s.counter) ∨ ∃ thread, s.posting thread = true) ∧
    ((∀ e ∈ trace, ¬ e.2.Unwinds) → s.phase.lost = [] ∧
      (s.stopping = false → s.phase ≠ .exited ∧ ∃ s', Reaches s s' ∧ s'.executed = s.pushed)) ∧
    ((∃ e ∈ trace, e.2.Unwinds) → (∃ lost, s.phase = .unwound lost) ∧
      ∀ later s', Run (fun s e s' => step s e = some s') (fun _ => False) s later s' →
        s'.executed = s.executed) := by
  have inv := run.inv
  refine ⟨?_, fun waiting some_task => ?_, fun quiet => ?_, fun thrown => ?_⟩
  · have conserved := inv.conserved
    simpa only [Conserved, reactor, List.append_assoc] using conserved
  · rcases inv.awake some_task with due | woken
    · simp [waiting, Phase.due] at due
    · exact woken
  · have whole : ¬ s.Unwound := by
      rw [run.unwound_iff]
      simpa using quiet
    exact ⟨lost_eq_nil whole, fun active => ⟨inv.inside active, inv.drains active whole⟩⟩
  · have ended := run.unwound_iff.mpr thrown
    exact ⟨ended, fun later s' rest => ended.run rest⟩

/-- Two threads post while the loop starts to wait; the task of the first posts a third one, and
the second has not written yet when the loop waits again. -/
def crossing : List (LoopEvent Nat) :=
  [.push 1 10, .move .test, .write 1, .move (.wake [.wakeup]), .move .scan, .move .read,
    .move .read, .move .swap, .push 2 20, .move .start, .push 0 30, .write 0, .move .finish,
    .move .start, .move .scan, .move (.timer false), .move .test]

theorem posted_tasks_run_once_crossing :
    ∃ trace, ∃ s : EventLoop Nat, Runs trace s ∧ s.phase = .waiting ∧ s.stopping = false ∧
      s.executed = [10] ∧ s.tasks = [20, 30] ∧ s.posting 2 = true ∧
      ∃ s', Reaches s s' ∧ s'.executed = [10, 20, 30] := by
  have run := Run.replays EventLoop.step {} crossing (by decide +kernel)
  have pushed : (EventLoop.pushed (Option.get _ (by decide +kernel :
    (replay EventLoop.step {} crossing).isSome)).2) = [10, 20, 30] := by decide +kernel
  refine ⟨_, _, run, by decide +kernel, by decide +kernel, by decide +kernel, by decide +kernel,
    by decide +kernel, ?_⟩
  obtain ⟨s', reached, ran⟩ :=
    (((posted_tasks_run_once run).2.2.1 (by decide +kernel)).2 (by decide +kernel)).2
  exact ⟨s', reached, ran.trans pushed⟩

/-- The first of two tasks throws: nobody has called `Stop`, the loop has ended and the second task
is destroyed. A third one that is posted then stays in the vector. -/
theorem throwing_task_loses_next :
    After EventLoop.step ({} : EventLoop Nat)
      [.push 1 10, .write 1, .push 1 20, .write 1, .move .test, .move (.wake [.wakeup]),
        .move .scan, .move .read, .move .read, .move .swap, .move .start, .move .throws,
        .push 1 30, .write 1]
      fun s => s.stopping = false ∧ s.phase = .unwound [20] ∧ s.pushed = [10, 20, 30] ∧
        s.executed = [10] ∧ s.tasks = [30] := by
  decide +kernel

end EventLoop
end KVRPC.Net
