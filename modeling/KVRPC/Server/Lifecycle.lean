import KVRPC.Library.Fairness
import KVRPC.Library.Threads
import KVRPC.Server.TcpServer

/-!
# Starting and stopping the server

Any number of calls of `TcpServer::start` and `TcpServer::stop` and the course of `Runtime::Run`
between them: the threads it creates, the failures it may meet on the way, the accept loop and
`finish`. What the threads do for connections is in `Server.Runtime`; here a worker ends some time
after `closing` is set, and the loop of an I/O thread when it is told to stop or by an exception.
That a loop which is told to stop wakes up is in `Net.EventLoop`.

A call of `stop` may come before `runtime_` is there, while `Run` is on its way to the accept loop
or later. Whichever it is, the call of `start` comes to its end (`stop_never_lost`).
-/
namespace KVRPC.Server.Lifecycle

open Library

variable {ε : Type} {t : TcpServer ε}

/-- What `Run` throws. -/
inductive Failure where
  | loop
  | thread
  | listen
  | wait
  | io (i : Nat)
  deriving DecidableEq

/-- An I/O thread that fails records the exception and then stops the accept loop. -/
inductive Thread where
  | running
  | failing
  | ended
  deriving DecidableEq

/-- How far the call of `start` has come that installed `runtime_`. In `finish` it remembers what
it will throw. -/
inductive Phase where
  | unstarted
  | opening
  | creating
  | listening
  | checking
  | looping
  | finishing (thrown : Option Failure)
  | joiningWorkers (thrown : Option Failure)
  | joiningIos (thrown : Option Failure)
  | ended (thrown : Option Failure)
  deriving DecidableEq

structure State where
  /-- `stopping_` of the server. -/
  stopping : Bool := false
  /-- The calls of `stop` that have set it and wait for the mutex. -/
  stops : Nat := 0
  phase : Phase := .unstarted
  workers : List Thread := []
  ios : List Thread := []
  /-- `stopping_` of the accept loop. -/
  loopStopping : Bool := false
  closing : Bool := false
  /-- The I/O loops have been given the task that stops them. -/
  told : Bool := false
  error : Option Nat := none

inductive Event where
  | start
  | stop
  | notify
  | makeLoops (ok : Bool)
  | create (ok : Bool)
  | listen (ok : Bool)
  | check
  | leave (ok : Bool)
  | close
  | joinWorkers
  | joinIos
  | workerEnds (w : Nat)
  | ioFails (i : Nat)
  | ioStops (i : Nat)
  | ioEnds (i : Nat)

namespace State

def fail (s : State) (f : Failure) : State := { s with phase := .finishing (some f) }

/-- Workers are created first. -/
def create (t : TcpServer ε) (s : State) : State :=
  if s.workers.length < t.threads then { s with workers := s.workers ++ [.running] }
  else { s with
    ios := s.ios ++ [.running]
    phase := if s.ios.length + 1 = t.options.ioThreads then .listening else .creating }

/-- A call of `start` that finds `runtime_` installed throws. -/
def step (t : TcpServer ε) (s : State) : Event → Option State
  | .start => some (if s.phase = .unstarted then { s with phase := .opening } else s)
  | .stop => some { s with stopping := true, stops := s.stops + 1 }
  | .notify =>
    if s.stops = 0 then none
    else some { s with
      stops := s.stops - 1
      loopStopping := if s.phase = .unstarted then s.loopStopping else true }
  -- outside the `try` block: an exception leaves `Run` at once
  | .makeLoops ok =>
    if s.phase = .opening then
      some { s with phase := if ok then .creating else .ended (some .loop) }
    else none
  | .create ok =>
    if s.phase = .creating then some (if ok then s.create t else s.fail .thread) else none
  | .listen ok =>
    if s.phase = .listening then
      some (if ok then { s with phase := .checking } else s.fail .listen)
    else none
  | .check =>
    if s.phase = .checking then
      some { s with loopStopping := s.loopStopping || s.stopping, phase := .looping }
    else none
  | .leave ok =>
    if s.phase = .looping ∧ (ok = true → s.loopStopping = true) then
      some (if ok then { s with phase := .finishing none } else s.fail .wait)
    else none
  | .close =>
    match s.phase with
    | .finishing thrown => some { s with closing := true, phase := .joiningWorkers thrown }
    | _ => none
  | .joinWorkers =>
    match s.phase with
    | .joiningWorkers thrown =>
      if ∀ worker ∈ s.workers, worker = .ended then
        some { s with told := true, phase := .joiningIos thrown }
      else none
    | _ => none
  | .joinIos =>
    match s.phase with
    | .joiningIos thrown =>
      if ∀ io ∈ s.ios, io = .ended then
        some { s with phase := .ended (thrown <|> s.error.map .io) }
      else none
    | _ => none
  | .workerEnds w =>
    if s.closing = true ∧ s.workers[w]? = some .running then
      some { s with workers := s.workers.set w .ended }
    else none
  | .ioFails i =>
    if s.ios[i]? = some .running then
      some { s with ios := s.ios.set i .failing, error := some i }
    else none
  | .ioStops i =>
    if s.ios[i]? = some .failing then
      some { s with ios := s.ios.set i .ended, loopStopping := true }
    else none
  | .ioEnds i =>
    if s.told = true ∧ s.ios[i]? = some .running then
      some { s with ios := s.ios.set i .ended }
    else none

end State

/-! ## What is left to do -/

def Thread.left : Thread → Nat
  | .running => 2
  | .failing => 1
  | .ended => 0

def total (threads : List Thread) : Nat := (threads.map Thread.left).sum

def Phase.left (t : TcpServer ε) (s : State) : Phase → Nat
  | .unstarted => 0
  | .opening => 9 + 4 * (t.threads - s.workers.length + (t.options.ioThreads - s.ios.length))
  | .creating => 8 + 4 * (t.threads - s.workers.length + (t.options.ioThreads - s.ios.length))
  | .listening => 7
  | .checking => 6
  | .looping => 5
  | .finishing _ => 4
  | .joiningWorkers _ => 3
  | .joiningIos _ => 2
  | .ended _ => 1

/-- Bounds the steps before the call of `start` has come to its end. -/
def State.left (t : TcpServer ε) (s : State) : Nat :=
  s.phase.left t s + (if s.loopStopping then 0 else 1) + total s.workers + total s.ios

/-- What `finish` is going to make `Run` throw, once it has begun. -/
def Phase.thrown : Phase → Option (Option Failure)
  | .finishing thrown | .joiningWorkers thrown | .joiningIos thrown => some thrown
  | _ => none

structure Inv (t : TcpServer ε) (s : State) : Prop where
  /-- A call of `stop` that found no `runtime_` is seen by `Run`. -/
  seen : s.phase = .looping → s.stopping = true → s.loopStopping = true ∨ 0 < s.stops
  failed : s.error.isSome = true → s.loopStopping = true ∨ .failing ∈ s.ios
  cause : s.loopStopping = true → s.stopping = true ∨ s.error.isSome = true
  waiting : 0 < s.stops → s.stopping = true
  left : s.phase.thrown = some none → s.loopStopping = true
  fresh : s.phase = .unstarted ∨ s.phase = .opening → s.workers = [] ∧ s.ios = []
  room : s.phase = .creating → s.ios.length < t.options.ioThreads
  workers : .failing ∉ s.workers
  closed : ∀ thrown, s.phase = .joiningWorkers thrown → s.closing = true
  joined : ∀ thrown, s.phase = .joiningIos thrown →
    s.told = true ∧ ∀ worker ∈ s.workers, worker = .ended
  ended : ∀ thrown, s.phase = .ended thrown →
    (∀ worker ∈ s.workers, worker = .ended) ∧ (∀ io ∈ s.ios, io = .ended) ∧
    (thrown = none → s.stopping = true ∧ s.error = none)
  failing : .failing ∈ s.ios → s.error.isSome = true

variable {s s' : State} {e : Event}

theorem ioThreads_pos (t : TcpServer ε) : 0 < t.options.ioThreads :=
  Nat.pos_of_ne_zero fun none => t.configured (.inl none)

theorem Inv.initial : Inv t {} where
  seen := by simp
  failed := by simp
  cause := by simp
  waiting := by simp
  left := by simp [Phase.thrown]
  fresh := by simp
  room := by simp
  workers := by simp
  closed := by simp
  joined := by simp
  ended := by simp
  failing := by simp

/-- `Run` moves on and nothing else changes. -/
theorem Inv.setPhase (h : Inv t s) {p : Phase}
    (plain : p = .listening ∨ p = .checking ∨ ∃ thrown, p = .finishing thrown)
    (left : p.thrown = some none → s.loopStopping = true) : Inv t { s with phase := p } := by
  refine { h with
    left := left
    seen := ?_
    fresh := ?_
    room := ?_
    closed := ?_
    joined := ?_
    ended := ?_ }
  all_goals obtain rfl | rfl | ⟨thrown, rfl⟩ := plain <;> simp

theorem Inv.fail (h : Inv t s) (f : Failure) : Inv t (s.fail f) :=
  h.setPhase (.inr (.inr ⟨_, rfl⟩)) (by simp [Phase.thrown])

theorem Inv.create (h : Inv t s) (creating : s.phase = .creating) : Inv t (s.create t) := by
  unfold State.create
  split_ifs with fewer last
  · exact { h with
      fresh := by simp [creating]
      workers := by simpa using h.workers
      joined := by simp [creating]
      ended := by simp [creating] }
  · exact { h with
      seen := by simp
      failed := fun found => (h.failed found).imp_right (List.mem_append_left _)
      left := by simp [Phase.thrown]
      fresh := by simp
      room := by simp
      closed := by simp
      joined := by simp
      ended := by simp
      failing := by simpa using h.failing }
  · have room := h.room creating
    exact { h with
      seen := by simp
      failed := fun found => (h.failed found).imp_right (List.mem_append_left _)
      left := by simp [Phase.thrown]
      fresh := by simp
      room := fun _ => by
        simp only [List.length_append, List.length_singleton]
        omega
      closed := by simp
      joined := by simp
      ended := by simp
      failing := by simpa using h.failing }

/-- A thread moves on. -/
theorem mem_of_mem_set {threads : List Thread} {i : Nat} {x new : Thread} (other : x ≠ new)
    (mem : x ∈ threads.set i new) : x ∈ threads :=
  (List.mem_or_eq_of_mem_set mem).resolve_right other

theorem mem_set_of_mem {threads : List Thread} {i : Nat} {x old : Thread} (new : Thread)
    (here : threads[i]? = some old) (other : x ≠ old) (mem : x ∈ threads) :
    x ∈ threads.set i new := by
  obtain ⟨j, there⟩ := List.mem_iff_getElem?.mp mem
  have apart : i ≠ j := by
    rintro rfl
    exact other (Option.some.inj (there.symm.trans here))
  exact List.mem_iff_getElem?.mpr ⟨j, by rw [List.getElem?_set_ne apart, there]⟩

theorem Inv.step (h : Inv t s) (taken : s.step t e = some s') : Inv t s' := by
  cases e with
  | start =>
    cases taken
    split_ifs with unstarted
    · exact { h with
        seen := by simp
        left := by simp [Phase.thrown]
        fresh := fun _ => h.fresh (.inl unstarted)
        room := by simp
        closed := by simp
        joined := by simp
        ended := by simp }
    · exact h
  | stop =>
    cases taken
    exact { h with
      seen := fun _ _ => .inr (Nat.succ_pos _)
      cause := fun _ => .inl rfl
      waiting := fun _ => rfl
      ended := fun thrown ended => (h.ended thrown ended).imp_right fun both =>
        both.imp_right fun result none => ⟨rfl, (result none).2⟩ }
  | notify =>
    obtain ⟨some_stop, ⟨⟩⟩ := Option.ite_none_left_eq_some.mp taken
    have flag := h.waiting (Nat.pos_of_ne_zero some_stop)
    exact { h with
      seen := fun looping _ => .inl (if_neg fun unstarted => by cases looping.symm.trans unstarted)
      failed := fun found => by
        dsimp only
        split_ifs
        · exact h.failed found
        · exact .inl rfl
      cause := fun _ => .inl flag
      waiting := fun _ => flag
      left := fun finishing => if_neg fun unstarted => by
        rw [unstarted] at finishing
        cases finishing }
  | makeLoops ok =>
    obtain ⟨opening, ⟨⟩⟩ := Option.ite_none_right_eq_some.mp taken
    obtain ⟨no_worker, no_io⟩ := h.fresh (.inr opening)
    cases ok
    · exact { h with
        seen := by simp
        left := by simp [Phase.thrown]
        fresh := by simp
        room := by simp
        closed := by simp
        joined := by simp
        ended := by simp [no_worker, no_io] }
    · exact { h with
        seen := by simp
        left := by simp [Phase.thrown]
        fresh := by simp
        room := fun _ => no_io ▸ ioThreads_pos t
        closed := by simp
        joined := by simp
        ended := by simp }
  | create ok =>
    obtain ⟨creating, ⟨⟩⟩ := Option.ite_none_right_eq_some.mp taken
    cases ok
    · exact h.fail .thread
    · exact h.create creating
  | listen ok =>
    obtain ⟨listening, ⟨⟩⟩ := Option.ite_none_right_eq_some.mp taken
    cases ok
    · exact h.fail .listen
    · exact h.setPhase (.inr (.inl rfl)) (by simp [Phase.thrown])
  | check =>
    obtain ⟨checking, ⟨⟩⟩ := Option.ite_none_right_eq_some.mp taken
    exact { h with
      seen := fun _ flag => .inl (by simp [show s.stopping = true from flag])
      failed := fun found => (h.failed found).imp_left fun stopping => by simp [stopping]
      cause := fun stopping => by
        obtain old | flag := Bool.or_eq_true_iff.mp stopping
        · exact h.cause old
        · exact .inl flag
      left := by simp [Phase.thrown]
      fresh := by simp
      room := by simp
      closed := by simp
      joined := by simp
      ended := by simp }
  | leave ok =>
    obtain ⟨⟨looping, stops⟩, ⟨⟩⟩ := Option.ite_none_right_eq_some.mp taken
    cases ok
    · exact h.fail .wait
    · exact h.setPhase (.inr (.inr ⟨_, rfl⟩)) fun _ => stops rfl
  | close =>
    simp only [State.step] at taken
    split at taken
    case h_2 => cases taken
    case h_1 thrown finishing =>
      cases taken
      exact { h with
        seen := by simp
        left := fun none => h.left (finishing ▸ none)
        fresh := by simp
        room := by simp
        closed := fun _ _ => rfl
        joined := by simp
        ended := by simp }
  | joinWorkers =>
    simp only [State.step] at taken
    split at taken
    case h_2 => cases taken
    case h_1 thrown joining =>
      obtain ⟨gone, ⟨⟩⟩ := Option.ite_none_right_eq_some.mp taken
      exact { h with
        seen := by simp
        left := fun none => h.left (joining ▸ none)
        fresh := by simp
        room := by simp
        closed := by simp
        joined := fun _ _ => ⟨rfl, gone⟩
        ended := by simp }
  | joinIos =>
    simp only [State.step] at taken
    split at taken
    case h_2 => cases taken
    case h_1 thrown joining =>
      obtain ⟨gone, ⟨⟩⟩ := Option.ite_none_right_eq_some.mp taken
      exact { h with
        seen := by simp
        left := by simp [Phase.thrown]
        fresh := by simp
        room := by simp
        closed := by simp
        joined := by simp
        ended := fun result same => by
          cases same
          refine ⟨(h.joined thrown joining).2, gone, fun nothing => ?_⟩
          cases thrown with
          | some f => cases nothing
          | none =>
            have clean : s.error = none := Option.map_eq_none_iff.mp nothing
            have stopping := h.left (joining ▸ rfl)
            exact ⟨(h.cause stopping).resolve_right (by simp [clean]), clean⟩ }
  | workerEnds w =>
    obtain ⟨⟨closing, here⟩, ⟨⟩⟩ := Option.ite_none_right_eq_some.mp taken
    have running := List.mem_of_getElem? here
    exact { h with
      fresh := fun early => by simp [(h.fresh early).1] at here
      workers := fun mem => h.workers (mem_of_mem_set (by simp) mem)
      joined := fun thrown joining => by cases (h.joined thrown joining).2 _ running
      ended := fun thrown ended => by cases (h.ended thrown ended).1 _ running }
  | ioFails i =>
    obtain ⟨here, ⟨⟩⟩ := Option.ite_none_right_eq_some.mp taken
    have present := (List.getElem?_eq_some_iff.mp here).1
    exact { h with
      failed := fun _ => .inr (List.mem_iff_getElem?.mpr ⟨i, List.getElem?_set_self present⟩)
      cause := fun _ => .inr rfl
      fresh := fun early => by simp [(h.fresh early).2] at here
      room := fun early => by simpa using h.room early
      ended := fun thrown ended => by
        cases (h.ended thrown ended).2.1 _ (List.mem_of_getElem? here)
      failing := fun _ => rfl }
  | ioStops i =>
    obtain ⟨here, ⟨⟩⟩ := Option.ite_none_right_eq_some.mp taken
    have found := h.failing (List.mem_of_getElem? here)
    exact { h with
      seen := fun _ _ => .inl rfl
      failed := fun _ => .inl rfl
      cause := fun _ => .inr found
      left := fun _ => rfl
      fresh := fun early => by simp [(h.fresh early).2] at here
      room := fun early => by simpa using h.room early
      ended := fun thrown ended => by
        cases (h.ended thrown ended).2.1 _ (List.mem_of_getElem? here)
      failing := fun mem => h.failing (mem_of_mem_set (by simp) mem) }
  | ioEnds i =>
    obtain ⟨⟨told, here⟩, ⟨⟩⟩ := Option.ite_none_right_eq_some.mp taken
    exact { h with
      failed := fun found =>
        (h.failed found).imp_right (mem_set_of_mem .ended here (by simp))
      fresh := fun early => by simp [(h.fresh early).2] at here
      room := fun early => by simpa using h.room early
      ended := fun thrown ended => by
        cases (h.ended thrown ended).2.1 _ (List.mem_of_getElem? here)
      failing := fun mem => h.failing (mem_of_mem_set (by simp) mem) }

/-! ## Threads -/

/-- Who takes steps of their own accord. -/
inductive Party where
  | run
  | stops
  | worker (w : Nat)
  | io (i : Nat)
  deriving DecidableEq

/-- Calls come from outside, and no I/O thread has to fail. -/
def Event.party : Event → Option Party
  | .start | .stop | .ioFails _ => none
  | .notify => some .stops
  | .makeLoops _ | .create _ | .listen _ | .check | .leave _ | .close | .joinWorkers
  | .joinIos => some .run
  | .workerEnds w => some (.worker w)
  | .ioStops i | .ioEnds i => some (.io i)

def acts (p : Party) (_ : State) (e : Event) : Prop := e.party = some p

/-- The thread in `Run` has something to do. -/
def State.Ready (s : State) : Prop :=
  match s.phase with
  | .opening | .creating | .listening | .checking | .finishing _ => True
  | .looping => s.loopStopping = true
  | .joiningWorkers _ => ∀ worker ∈ s.workers, worker = .ended
  | .joiningIos _ => ∀ io ∈ s.ios, io = .ended
  | .unstarted | .ended _ => False

/-- Whose step brings the call of `start` nearer to its end. -/
def State.Helps (s : State) : Party → Prop
  | .run => s.Ready
  | .stops => s.phase = .looping ∧ s.loopStopping = false ∧ 0 < s.stops
  | .worker w => (∃ thrown, s.phase = .joiningWorkers thrown) ∧ s.workers[w]? = some .running
  | .io i => s.phase = .looping ∧ s.loopStopping = false ∧ s.ios[i]? = some .failing ∨
    (∃ thrown, s.phase = .joiningIos thrown) ∧ ∃ io, s.ios[i]? = some io ∧ io ≠ .ended

theorem total_set {threads : List Thread} {i : Nat} {old : Thread} (new : Thread)
    (here : threads[i]? = some old) (less : new.left < old.left) :
    total (threads.set i new) < total threads := by
  have moved := sum_map_set Thread.left here new
  unfold total
  omega

/-- What a call of `start` or `stop` leaves as it is. -/
structure Same (s s' : State) : Prop where
  phase : s'.phase = s.phase
  workers : s'.workers = s.workers
  ios : s'.ios = s.ios
  loopStopping : s'.loopStopping = s.loopStopping

/-- Every step of a thread leaves less to be done, unless `stop` comes after the accept loop has
been stopped. -/
theorem step_left (inv : Inv t s) (started : s.phase ≠ .unstarted)
    (taken : s.step t e = some s') : s'.left t < s.left t ∨
    Same s s' ∧ (s.stops ≤ s'.stops ∧ e.party = none ∨ s.loopStopping = true ∧ e = .notify) := by
  cases e with
  | start =>
    simp only [State.step, if_neg started] at taken
    cases taken
    exact .inr ⟨⟨rfl, rfl, rfl, rfl⟩, .inl ⟨le_rfl, rfl⟩⟩
  | stop =>
    cases taken
    exact .inr ⟨⟨rfl, rfl, rfl, rfl⟩, .inl ⟨Nat.le_succ _, rfl⟩⟩
  | notify =>
    obtain ⟨some_stop, ⟨⟩⟩ := Option.ite_none_left_eq_some.mp taken
    by_cases stopping : s.loopStopping = true
    · refine .inr ⟨⟨rfl, rfl, rfl, ?_⟩, .inr ⟨stopping, rfl⟩⟩
      dsimp only
      rw [if_neg started, stopping]
    · refine .inl ?_
      simp only [State.left, if_neg started, if_neg stopping, if_true]
      cases phase : s.phase <;> simp only [Phase.left] <;> omega
  | makeLoops ok =>
    obtain ⟨opening, ⟨⟩⟩ := Option.ite_none_right_eq_some.mp taken
    refine .inl ?_
    cases ok
    · simp [State.left, Phase.left, opening]
      omega
    · simp [State.left, Phase.left, opening]
  | create ok =>
    obtain ⟨creating, ⟨⟩⟩ := Option.ite_none_right_eq_some.mp taken
    refine .inl ?_
    cases ok
    · simp [State.left, State.fail, Phase.left, creating]
      omega
    · have room := inv.room creating
      simp only [if_true, State.create]
      split_ifs with fewer last
      all_goals
        simp [State.left, Phase.left, creating, total, Thread.left]
        omega
  | listen ok =>
    obtain ⟨listening, ⟨⟩⟩ := Option.ite_none_right_eq_some.mp taken
    refine .inl ?_
    cases ok <;> simp [State.left, State.fail, Phase.left, listening]
  | check =>
    obtain ⟨checking, ⟨⟩⟩ := Option.ite_none_right_eq_some.mp taken
    refine .inl ?_
    simp only [State.left, Phase.left, checking]
    cases s.loopStopping <;> cases s.stopping <;> simp
  | leave ok =>
    obtain ⟨⟨looping, -⟩, ⟨⟩⟩ := Option.ite_none_right_eq_some.mp taken
    refine .inl ?_
    cases ok <;> simp [State.left, State.fail, Phase.left, looping]
  | close =>
    simp only [State.step] at taken
    split at taken
    case h_2 => cases taken
    case h_1 thrown finishing =>
      cases taken
      simp [State.left, Phase.left, finishing]
  | joinWorkers =>
    simp only [State.step] at taken
    split at taken
    case h_2 => cases taken
    case h_1 thrown joining =>
      obtain ⟨-, ⟨⟩⟩ := Option.ite_none_right_eq_some.mp taken
      simp [State.left, Phase.left, joining]
  | joinIos =>
    simp only [State.step] at taken
    split at taken
    case h_2 => cases taken
    case h_1 thrown joining =>
      obtain ⟨-, ⟨⟩⟩ := Option.ite_none_right_eq_some.mp taken
      simp [State.left, Phase.left, joining]
  | workerEnds w =>
    obtain ⟨⟨-, here⟩, ⟨⟩⟩ := Option.ite_none_right_eq_some.mp taken
    have less := total_set .ended here (by decide)
    refine .inl ?_
    cases phase : s.phase <;> simp only [State.left, phase, Phase.left, List.length_set] <;> omega
  | ioFails i =>
    obtain ⟨here, ⟨⟩⟩ := Option.ite_none_right_eq_some.mp taken
    have less := total_set .failing here (by decide)
    refine .inl ?_
    cases phase : s.phase <;> simp only [State.left, phase, Phase.left, List.length_set] <;> omega
  | ioStops i =>
    obtain ⟨here, ⟨⟩⟩ := Option.ite_none_right_eq_some.mp taken
    have less := total_set .ended here (by decide)
    refine .inl ?_
    cases phase : s.phase <;>
      simp only [State.left, phase, Phase.left, List.length_set, if_true] <;> omega
  | ioEnds i =>
    obtain ⟨⟨-, here⟩, ⟨⟩⟩ := Option.ite_none_right_eq_some.mp taken
    have less := total_set .ended here (by decide)
    refine .inl ?_
    cases phase : s.phase <;> simp only [State.left, phase, Phase.left, List.length_set] <;> omega

theorem Same.left (same : Same s s') : s'.left t = s.left t := by
  obtain ⟨phase, workers, ios, loopStopping⟩ := same
  rw [State.left, State.left, phase, workers, ios, loopStopping]
  cases s.phase <;> simp only [Phase.left, workers, ios]

theorem Same.helps (same : Same s s') {p : Party} (helps : s.Helps p)
    (more : p = .stops → 0 < s.stops → 0 < s'.stops) : s'.Helps p := by
  obtain ⟨phase, workers, ios, loopStopping⟩ := same
  cases p with
  | run =>
    simp only [State.Helps, State.Ready, phase, workers, ios, loopStopping] at helps ⊢
    exact helps
  | stops =>
    obtain ⟨looping, running, some_stop⟩ := helps
    exact ⟨phase.trans looping, loopStopping.trans running, more rfl some_stop⟩
  | worker w => simpa only [State.Helps, phase, workers] using helps
  | io i => simpa only [State.Helps, phase, ios, loopStopping] using helps

theorem helps_can (inv : Inv t s) {p : Party} (helps : s.Helps p) :
    CanStep (State.step t) (acts p) s := by
  cases p with
  | run =>
    change s.Ready at helps
    unfold State.Ready at helps
    split at helps
    case h_1 opening => exact .of_isSome (a := .makeLoops true) rfl (by simp [State.step, opening])
    case h_2 creating => exact .of_isSome (a := .create true) rfl (by simp [State.step, creating])
    case h_3 listening =>
      exact .of_isSome (a := .listen true) rfl (by simp [State.step, listening])
    case h_4 checking => exact .of_isSome (a := .check) rfl (by simp [State.step, checking])
    case h_5 finishing => exact .of_isSome (a := .close) rfl (by simp [State.step, finishing])
    case h_6 looping =>
      exact .of_isSome (a := .leave true) rfl (by simp [State.step, looping, helps])
    case h_7 joining =>
      refine .of_isSome (a := .joinWorkers) rfl ?_
      simp only [State.step, joining, if_pos helps, Option.isSome_some]
    case h_8 joining =>
      refine .of_isSome (a := .joinIos) rfl ?_
      simp only [State.step, joining, if_pos helps, Option.isSome_some]
    case h_9 => exact helps.elim
    case h_10 => exact helps.elim
  | stops =>
    obtain ⟨-, -, some_stop⟩ := helps
    exact .of_isSome (a := .notify) rfl (by simp [State.step, some_stop.ne'])
  | worker w =>
    obtain ⟨⟨thrown, joining⟩, here⟩ := helps
    refine .of_isSome (a := .workerEnds w) rfl ?_
    simp [State.step, inv.closed thrown joining, here]
  | io i =>
    obtain ⟨-, -, here⟩ | ⟨⟨thrown, joining⟩, io, here, alive⟩ := helps
    · exact .of_isSome (a := .ioStops i) rfl (by simp [State.step, here])
    · cases io with
      | running =>
        refine .of_isSome (a := .ioEnds i) rfl ?_
        simp [State.step, (inv.joined thrown joining).1, here]
      | failing => exact .of_isSome (a := .ioStops i) rfl (by simp [State.step, here])
      | ended => exact absurd rfl alive

/-- As long as `start` has not come to its end some thread helps. -/
theorem exists_helps (inv : Inv t s) (started : s.phase ≠ .unstarted)
    (due : s.stopping = true ∨ s.error.isSome = true)
    (going : ∀ thrown, s.phase ≠ .ended thrown) : ∃ p, s.Helps p := by
  cases phase : s.phase with
  | unstarted => exact absurd phase started
  | opening | creating | listening | checking | finishing =>
    exact ⟨.run, by simp [State.Helps, State.Ready, phase]⟩
  | looping =>
    by_cases stopping : s.loopStopping = true
    · exact ⟨.run, by simpa [State.Helps, State.Ready, phase] using stopping⟩
    have running := Bool.eq_false_iff.mpr stopping
    obtain flag | found := due
    · exact ⟨.stops, phase, running, (inv.seen phase flag).resolve_left stopping⟩
    · obtain ⟨i, here⟩ := List.mem_iff_getElem?.mp ((inv.failed found).resolve_left stopping)
      exact ⟨.io i, .inl ⟨phase, running, here⟩⟩
  | joiningWorkers thrown =>
    by_cases gone : ∀ worker ∈ s.workers, worker = .ended
    · exact ⟨.run, by simpa [State.Helps, State.Ready, phase] using gone⟩
    push Not at gone
    obtain ⟨worker, mem, alive⟩ := gone
    obtain ⟨w, here⟩ := List.mem_iff_getElem?.mp mem
    cases worker with
    | running => exact ⟨.worker w, ⟨thrown, phase⟩, here⟩
    | failing => exact absurd mem inv.workers
    | ended => exact absurd rfl alive
  | joiningIos thrown =>
    by_cases gone : ∀ io ∈ s.ios, io = .ended
    · exact ⟨.run, by simpa [State.Helps, State.Ready, phase] using gone⟩
    push Not at gone
    obtain ⟨io, mem, alive⟩ := gone
    obtain ⟨i, here⟩ := List.mem_iff_getElem?.mp mem
    exact ⟨.io i, .inr ⟨⟨thrown, phase⟩, io, here, alive⟩⟩
  | ended thrown => exact absurd phase (going thrown)

/-- What has happened does not go away. -/
theorem step_due (taken : s.step t e = some s') (started : s.phase ≠ .unstarted)
    (due : s.stopping = true ∨ s.error.isSome = true) :
    s'.phase ≠ .unstarted ∧ (s'.stopping = true ∨ s'.error.isSome = true) := by
  cases e <;> grind [State.step, State.create, State.fail]

/-- **Starting and stopping.** Let `start` be called and, before or after that and in the middle of
whatever `Run` is doing, `stop`, or let an I/O thread fail. If no thread and no call of `stop`
stands still for ever while it could go on, then the call of `start` that installed `runtime_` comes
to its end, whatever fails on the way and however often `start` and `stop` are called again. Then
every thread it created has ended, and unless it throws, `stop` has been called and no I/O thread
has failed. -/
theorem stop_never_lost (x : Execution (State.step t)) (first : x.state 0 = {})
    (fair : ∀ p, x.Fair (acts p)) {n : Nat} (started : (x.state n).phase ≠ .unstarted)
    (due : (x.state n).stopping = true ∨ (x.state n).error.isSome = true) :
    ∃ m ≥ n, ∃ thrown, (x.state m).phase = .ended thrown ∧
      (∀ worker ∈ (x.state m).workers, worker = .ended) ∧
      (∀ io ∈ (x.state m).ios, io = .ended) ∧
      (thrown = none → (x.state m).stopping = true ∧ (x.state m).error = none) := by
  have inv : ∀ m, Inv t (x.state m) := by
    intro m
    induction m with
    | zero => exact first ▸ .initial
    | succ m ih => exact ih.step (x.taken m)
  suffices ∃ m ≥ n, ∃ thrown, (x.state m).phase = .ended thrown by
    obtain ⟨m, late, thrown, ended⟩ := this
    exact ⟨m, late, thrown, ended, (inv m).ended thrown ended⟩
  refine x.eventually acts fair (fun m => (x.state m).phase ≠ .unstarted ∧
      ((x.state m).stopping = true ∨ (x.state m).error.isSome = true)) _
    (fun m => (x.state m).left t) (fun p m => (x.state m).Helps p)
    (fun {p m} _ _ helps => helps_can (inv m) helps) ?_ ?_ ⟨started, due⟩
  · intro m now going
    exact exists_helps (inv m) now.1 now.2 fun thrown ended => going ⟨thrown, ended⟩
  · intro m now _
    refine .inr ⟨step_due (x.taken m) now.1 now.2, ?_⟩
    obtain less | ⟨same, outside⟩ := step_left (inv m) now.1 (x.taken m)
    · exact ⟨less.le, fun _ _ => .inl less⟩
    refine ⟨same.left.le, fun p helps => .inr ?_⟩
    obtain ⟨more, nobody⟩ | ⟨stopping, notify⟩ := outside
    · refine ⟨fun own => ?_, same.helps helps fun _ pos => pos.trans_le more⟩
      cases nobody.symm.trans own
    · -- the accept loop has been stopped already, so it is not `stop` that helps
      have other : p ≠ .stops := by
        rintro rfl
        cases stopping.symm.trans helps.2.1
      refine ⟨fun own => other ?_, same.helps helps fun stops => absurd stops other⟩
      rw [acts, notify] at own
      exact (Option.some.inj own).symm

theorem ended_stuck {p : Party} {thrown : Option Failure} (inv : Inv t s)
    (ended : s.phase = .ended thrown) (none_waits : s.stops = 0) :
    ¬ CanStep (State.step t) (acts p) s := by
  obtain ⟨workers, ios, -⟩ := inv.ended thrown ended
  rintro ⟨e, s', own, taken⟩
  cases e with
  | start | stop | ioFails => cases own
  | notify => simp [State.step, none_waits] at taken
  | makeLoops | create | listen | check | leave | close | joinWorkers | joinIos =>
    simp [State.step, ended] at taken
  | workerEnds w =>
    obtain ⟨⟨-, here⟩, -⟩ := Option.ite_none_right_eq_some.mp taken
    cases workers _ (List.mem_of_getElem? here)
  | ioStops i =>
    obtain ⟨here, -⟩ := Option.ite_none_right_eq_some.mp taken
    cases ios _ (List.mem_of_getElem? here)
  | ioEnds i =>
    obtain ⟨⟨-, here⟩, -⟩ := Option.ite_none_right_eq_some.mp taken
    cases ios _ (List.mem_of_getElem? here)

/-- When `start` has come to its end it may be called again and again. -/
theorem exists_fair_start (t : TcpServer ε) (events : List Event)
    (ends : After (State.step t) {} events fun s =>
      s.phase = .ended none ∧ s.stops = 0 ∧ s.stopping = true) :
    ∃ x : Execution (State.step t), x.state 0 = {} ∧ (∀ p, x.Fair (acts p)) ∧
      (x.state events.length).phase = .ended none ∧
      (x.state events.length).stopping = true := by
  obtain ⟨trace, last, replayed, ended, none_waits, flag⟩ := ends.exists_replay
  have inv : Inv t last := by
    refine (Run.of_replay _ _ _ replayed).invariant (fun _ s => Inv t s) (fun _ _ => True) .initial
      (fun h _ taken => h.step taken) fun _ _ => trivial
  have idle : State.step t last .start = some last := by
    simp [State.step, ended]
  obtain ⟨x, first, reached, fair⟩ := Execution.exists_of_replay events replayed idle
  rw [← reached] at ended flag
  exact ⟨x, first, fun p => fair _ (ended_stuck inv (reached ▸ ended) none_waits), ended, flag⟩

/-- `stop` is called before `start`. -/
def early : List Event :=
  [.stop, .notify, .start, .makeLoops true, .create true, .create true, .create true, .listen true,
    .check, .leave true, .close, .workerEnds 0, .joinWorkers, .ioEnds 1, .ioEnds 0, .joinIos]

theorem stop_never_lost_early : ∃ x : Execution (State.step (kvServer true)), ∃ m ≥ early.length,
    ∃ thrown, (x.state m).phase = .ended thrown ∧
      (∀ worker ∈ (x.state m).workers, worker = .ended) ∧
      (∀ io ∈ (x.state m).ios, io = .ended) ∧
      (thrown = none → (x.state m).stopping = true ∧ (x.state m).error = none) := by
  obtain ⟨x, first, fair, ended, flag⟩ :=
    exists_fair_start (kvServer true) early (by decide +kernel)
  exact ⟨x, stop_never_lost x first fair (by simp [ended]) (.inl flag)⟩

end KVRPC.Server.Lifecycle
