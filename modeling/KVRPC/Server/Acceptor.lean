import KVRPC.Server.Shutdown

/-!
# The acceptor

`accept_ready` of `TcpServer::Runtime::Run`: the callback of the listening socket, which takes up
to 128 connections off the listening queue and then posts itself to go on later. The listener is
registered with `EPOLLET`, so it is reported again only when another connection arrives. One step
is one call of `accept4` with what the loop does about its outcome; connections arrive, and the
rest of the server runs, between any two steps.

1. The descriptors the acceptor takes are the `accept` events of the server (`Runs.server`).
2. If `accept4` fails with nothing but `EINTR` and `EAGAIN`, no connection is left in the queue
   without a callback to come (`never_strands`). Any other error strands what is queued
   (`error_strands`).
-/
namespace KVRPC.Server

open Library Net Relation

/-- What `accept4` may set `errno` to, besides `EINTR` and `EAGAIN`. -/
inductive AcceptError where
  | connectionAborted
  | processFileLimit
  | systemFileLimit
  | other (errno : Nat)
  deriving DecidableEq, Repr

/-- The outcome of `accept4`; a failing call may have taken a connection off the queue. -/
inductive AcceptOutcome where
  | descriptor
  | interrupted
  | wouldBlock
  | failed (error : AcceptError) (dequeued : Bool)
  deriving DecidableEq, Repr

structure Acceptor where
  /-- How many connections are in the listening queue. -/
  backlog : Nat
  /-- `epoll` has an event of the listener to report. -/
  edge : Bool
  /-- The event is in the array `epoll_wait` has filled, before its callback. -/
  reported : Bool := false
  /-- How often `accept_ready` is among the tasks of its loop. -/
  posted : Nat := 0
  /-- The variable `i` of `accept_ready`, while it runs. -/
  index : Option UInt64 := none
  server : State

inductive AcceptEvent where
  | arrive
  | poll
  | report
  | resume
  | accept (outcome : AcceptOutcome)
  | repost
  | serve (e : Event)

/-- `accept4` fails, other than with `EINTR` and `EAGAIN`. -/
def AcceptEvent.fails : AcceptEvent → Bool
  | .accept (.failed _ _) => true
  | _ => false

namespace Acceptor

variable {ε : Type} {t : TcpServer ε} {a a' : Acceptor}

/-- `EPOLL_CTL_ADD` reports a listener that has connections in its queue. -/
def initial (t : TcpServer ε) (backlog : Nat) : Acceptor :=
  { backlog, edge := decide (0 < backlog), server := .initial t }

/-- The queue after a call of `accept4`, if the call can have this outcome. -/
def dequeue (backlog : Nat) : AcceptOutcome → Option Nat
  | .descriptor | .failed _ true => if backlog = 0 then none else some (backlog - 1)
  | .interrupted | .failed _ false => some backlog
  | .wouldBlock => if backlog = 0 then some backlog else none

/-- The body of the loop: the index it goes on with, unless it returns. An interrupted call is
not counted, also at index zero, where `--i` wraps around. -/
def iterate (t : TcpServer ε) (i : UInt64) (s : State) : AcceptOutcome → Option UInt64 × State
  | .descriptor => (some (i + 1), s.accept t)
  | .interrupted => (some (i - 1 + 1), s)
  | .wouldBlock | .failed _ _ => (none, s)

/-- The loop of the acceptor runs until the server begins to close. -/
def Idle (a : Acceptor) : Prop := a.index = none ∧ a.server.queue.closing = false

instance (a : Acceptor) : Decidable a.Idle := inferInstanceAs (Decidable (_ ∧ _))

def step (t : TcpServer ε) (a : Acceptor) : AcceptEvent → Option Acceptor
  | .arrive => some { a with backlog := a.backlog + 1, edge := true }
  | .poll =>
    if a.Idle ∧ a.reported = false ∧ a.edge = true then
      some { a with edge := false, reported := true }
    else none
  | .report =>
    if a.Idle ∧ a.reported = true then some { a with reported := false, index := some 0 } else none
  | .resume =>
    if a.Idle ∧ a.posted ≠ 0 then some { a with posted := a.posted - 1, index := some 0 } else none
  | .accept outcome =>
    match a.index, dequeue a.backlog outcome with
    | some i, some backlog =>
      if i < 128 then
        let next := iterate t i a.server outcome
        some { a with backlog := backlog, index := next.1, server := next.2 }
      else none
    | _, _ => none
  | .repost =>
    match a.index with
    | some i =>
      if i < 128 then none else some { a with posted := a.posted + 1, index := none }
    | none => none
  | .serve .accept => none
  | .serve .closing =>
    if a.index = none then
      (State.step t a.server .closing).map fun s => { a with server := s }
    else none
  | .serve e => (State.step t a.server e).map fun s => { a with server := s }

abbrev Runs (t : TcpServer ε) (backlog : Nat) (trace : List (Acceptor × AcceptEvent))
    (a : Acceptor) : Prop :=
  Run (fun a e a' => step t a e = some a') (fun _ => False) (initial t backlog) trace a

/-! ## What a step can do -/

inductive Effect (t : TcpServer ε) (a : Acceptor) : AcceptEvent → Acceptor → Prop
  | arrived : Effect t a .arrive { a with backlog := a.backlog + 1, edge := true }
  | polled : Effect t a .poll { a with edge := false, reported := true }
  | began {e : AcceptEvent} (idle : a.Idle) (reported : Bool) (posted : Nat) :
      Effect t a e { a with reported := reported, posted := posted, index := some 0 }
  | took {i : UInt64} (running : a.index = some i) (below : i < 128) (queued : a.backlog ≠ 0) :
      Effect t a (.accept .descriptor)
        { a with backlog := a.backlog - 1, index := some (i + 1), server := a.server.accept t }
  | interrupted {i : UInt64} (running : a.index = some i) (below : i < 128) :
      Effect t a (.accept .interrupted) a
  | emptied (running : a.index ≠ none) (empty : a.backlog = 0) :
      Effect t a (.accept .wouldBlock) { a with index := none }
  | failed {error : AcceptError} {dequeued : Bool} {backlog : Nat} :
      Effect t a (.accept (.failed error dequeued)) { a with backlog := backlog, index := none }
  | reposted {i : UInt64} (running : a.index = some i) (done : ¬ i < 128) :
      Effect t a .repost { a with posted := a.posted + 1, index := none }
  | served {e : Event} {s : State} (taken : State.step t a.server e = some s) :
      Effect t a (.serve e) { a with server := s }

theorem step_accept {outcome : AcceptOutcome} (h : step t a (.accept outcome) = some a') :
    ∃ i backlog, a.index = some i ∧ i < 128 ∧ dequeue a.backlog outcome = some backlog ∧
      a' = { a with
        backlog := backlog
        index := (iterate t i a.server outcome).1
        server := (iterate t i a.server outcome).2 } := by
  simp only [step] at h
  split at h
  case h_2 => cases h
  case h_1 i backlog running left =>
    obtain ⟨below, ⟨⟩⟩ := Option.ite_none_right_eq_some.mp h
    exact ⟨i, backlog, running, below, left, rfl⟩

theorem accept_effect {outcome : AcceptOutcome} (h : step t a (.accept outcome) = some a') :
    Effect t a (.accept outcome) a' := by
  obtain ⟨i, backlog, running, below, left, rfl⟩ := step_accept h
  cases outcome with
  | descriptor =>
    obtain ⟨queued, ⟨⟩⟩ := Option.ite_none_left_eq_some.mp left
    exact .took running below queued
  | interrupted =>
    cases left
    have same : i - 1 + 1 = i := UInt64.sub_add_cancel i 1
    have unchanged := Effect.interrupted (t := t) running below
    simpa only [iterate, same, ← running] using unchanged
  | wouldBlock =>
    obtain ⟨empty, ⟨⟩⟩ := Option.ite_none_right_eq_some.mp left
    exact .emptied (by simp [running]) empty
  | failed error dequeued => exact .failed

theorem step_effect {e : AcceptEvent} (h : step t a e = some a') : Effect t a e a' := by
  cases e with
  | arrive =>
    cases h
    exact .arrived
  | poll =>
    obtain ⟨-, ⟨⟩⟩ := Option.ite_none_right_eq_some.mp h
    exact .polled
  | report =>
    obtain ⟨ready, ⟨⟩⟩ := Option.ite_none_right_eq_some.mp h
    exact .began ready.1 false a.posted
  | resume =>
    obtain ⟨ready, ⟨⟩⟩ := Option.ite_none_right_eq_some.mp h
    exact .began ready.1 a.reported (a.posted - 1)
  | accept outcome => exact accept_effect h
  | repost =>
    simp only [step] at h
    split at h
    case h_2 => cases h
    case h_1 i running =>
      obtain ⟨done, ⟨⟩⟩ := Option.ite_none_left_eq_some.mp h
      exact .reposted running done
  | serve e =>
    have mapped : (State.step t a.server e).map (fun s => { a with server := s }) = some a' := by
      cases e with
      | accept => cases h
      | closing => exact (Option.ite_none_right_eq_some.mp h).2
      | _ => exact h
    obtain ⟨s, taken, rfl⟩ := Option.map_eq_some_iff.mp mapped
    exact .served taken

end Acceptor

/-! ## Only the thread of the acceptor closes the queue -/

section Closing

variable {ε : Type} {t : TcpServer ε} {s s' : State} {c : Nat} {v w : View}

theorem View.Moves.closing (h : View.Moves t c v w) : w.queue.closing = v.queue.closing := by
  induction h with
  | refl => rfl
  | tail _ last ih => exact last.2.closing.trans ih

theorem View.complete_closing (job : Job Completion) (reply : Reply) (socket : Socket) :
    (View.complete t c job reply socket v).queue.closing = v.queue.closing := by
  unfold View.complete View.andThen
  split
  · rfl
  · dsimp only
    split
    · rw [View.queue_close]
      rfl
    · exact (View.pump_moves socket _).closing

theorem State.closeAll_closing (i : Nat) :
    (s.closeAll t i).queue.closing = s.queue.closing := by
  unfold State.closeAll
  dsimp only [State.setIo]
  induction (s.ios i).peers.map Prod.snd generalizing s with
  | nil => rfl
  | cons c peers ih =>
    rw [List.foldl_cons, ih]
    exact congrArg JobQueue.closing View.queue_close

theorem State.step_closing {e : Event} (other : e ≠ .closing) (h : State.step t s e = some s') :
    s'.queue.closing = s.queue.closing := by
  cases e with
  | accept =>
    obtain ⟨-, ⟨⟩⟩ := Option.ite_none_left_eq_some.mp h
    unfold State.accept
    split <;> rfl
  | task i socket =>
    simp only [State.step] at h
    split at h
    case h_1 => cases h
    case h_2 task rest head =>
      cases h
      cases task with
      | attach c => rfl
      | pump c => exact (View.pump_moves socket _).closing
      | reply job reply => exact View.complete_closing job reply socket
      | closeAll => exact State.closeAll_closing i
  | ready i token error socket =>
    simp only [State.step] at h
    split at h
    case h_1 => cases h
    case h_2 watch _ =>
      cases h
      change (View.onReady t watch.1 error socket _).queue.closing = _
      unfold View.onReady
      split
      · rw [View.queue_close]
        rfl
      · exact (View.pump_moves socket _).closing
  | timer i id =>
    simp only [State.step] at h
    split at h
    case h_1 => cases h
    case h_2 =>
      cases h
      exact congrArg JobQueue.closing View.queue_close
  | take worker =>
    obtain ⟨queue, taken, rfl⟩ := Option.map_eq_some_iff.mp h
    exact JobQueue.take_closing taken
  | handle worker h' =>
    obtain ⟨queue, called, rfl⟩ := Option.map_eq_some_iff.mp h
    exact JobQueue.handle_closing called
  | complete worker =>
    simp only [State.step] at h
    split at h
    case h_1 => cases h
    case h_2 completed =>
      cases h
      exact JobQueue.complete_closing completed
  | closing => exact absurd rfl other
  | join =>
    obtain ⟨-, ⟨⟩⟩ := Option.ite_none_right_eq_some.mp h
    rfl

end Closing

namespace Acceptor

variable {ε : Type} {t : TcpServer ε} {a a' : Acceptor} {backlog : Nat}
  {trace : List (Acceptor × AcceptEvent)}

theorem accept_queue (s : State) : (s.accept t).queue = s.queue := by
  unfold State.accept
  split <;> rfl

/-- The server does not close while `accept_ready` runs. -/
theorem running_open (open_ : a.index ≠ none → a.server.queue.closing = false) {e : AcceptEvent}
    (h : step t a e = some a') : a'.index ≠ none → a'.server.queue.closing = false := by
  intro running
  cases step_effect h with
  | began idle _ _ => exact idle.2
  | took before _ _ =>
    rw [accept_queue]
    exact open_ (by simp [before])
  | emptied _ _ => exact absurd rfl running
  | failed => exact absurd rfl running
  | reposted _ _ => exact absurd rfl running
  | @served e s taken =>
    have before := open_ running
    have other : e ≠ .closing := by
      rintro rfl
      exact running (Option.ite_none_right_eq_some.mp h).1
    rw [State.step_closing other taken]
    exact before
  | _ => exact open_ running

/-- **The acceptor feeds the server**: what it does is a run of the server, in which each
descriptor is an `accept`. -/
theorem Runs.server (run : Runs t backlog trace a) :
    (a.index ≠ none → a.server.queue.closing = false) ∧
      ∃ trace', State.Runs t trace' a.server := by
  refine Run.invariant run (fun _ a => (a.index ≠ none → a.server.queue.closing = false) ∧
    ∃ trace', State.Runs t trace' a.server) (fun _ _ => True) ⟨by simp [initial], [], .nil⟩ ?_
    fun _ _ => trivial
  rintro trace a e a' ⟨open_, trace', run'⟩ - taken
  refine ⟨running_open open_ taken, ?_⟩
  cases step_effect taken with
  | took running _ _ =>
    have next : State.step t a.server .accept = some (a.server.accept t) :=
      if_neg (by simp [open_ (by simp [running])])
    exact ⟨_, run'.snoc (fun _ _ => not_false) next⟩
  | served next => exact ⟨_, run'.snoc (fun _ _ => not_false) next⟩
  | _ => exact ⟨trace', run'⟩

/-! ## No connection is stranded -/

/-- A callback is to come, or is running. -/
def Pending (a : Acceptor) : Prop :=
  a.edge = true ∨ a.reported = true ∨ a.posted ≠ 0 ∨ a.index ≠ none

theorem pending_step {e : AcceptEvent} (pending : 0 < a.backlog → a.Pending)
    (fine : e.fails = false) (h : step t a e = some a') : 0 < a'.backlog → a'.Pending := by
  cases step_effect h with
  | arrived => exact fun _ => .inl rfl
  | polled => exact fun _ => .inr (.inl rfl)
  | began _ _ _ => exact fun _ => .inr (.inr (.inr (by simp)))
  | took _ _ _ => exact fun _ => .inr (.inr (.inr (by simp)))
  | interrupted _ _ => exact pending
  | emptied _ empty => exact fun queued => absurd queued (by simp [empty])
  | failed => cases fine
  | reposted _ _ => exact fun _ => .inr (.inr (.inl (Nat.succ_ne_zero _)))
  | served _ => exact pending

/-- How `accept_ready` may return. -/
theorem return_cases {e : AcceptEvent} (h : step t a e = some a') (running : a.index ≠ none)
    (returned : a'.index = none) :
    a'.posted = a.posted + 1 ∨ (e = .accept .wouldBlock ∧ a.backlog = 0) ∨ e.fails = true := by
  cases step_effect h with
  | emptied _ empty => exact .inr (.inl ⟨rfl, empty⟩)
  | failed => exact .inr (.inr rfl)
  | reposted _ _ => exact .inl rfl
  | began _ _ _ => cases returned
  | took _ _ _ => cases returned
  | _ => exact absurd returned running

/-- A step of the acceptor while no connection arrives and no call is interrupted or fails. -/
def Proceeds (t : TcpServer ε) (a a' : Acceptor) : Prop :=
  step t a .poll = some a' ∨ step t a .report = some a' ∨ step t a .resume = some a' ∨
    step t a (.accept .descriptor) = some a' ∨ step t a .repost = some a'

/-- A callback that is to come begins. -/
theorem exists_running (still : a.server.queue.closing = false) (pending : a.Pending) :
    ∃ a' i, ReflTransGen (Proceeds t) a a' ∧ a'.index = some i ∧ a'.backlog = a.backlog ∧
      a'.server = a.server := by
  cases index : a.index with
  | some i => exact ⟨a, i, .refl, index, rfl, rfl⟩
  | none =>
    have idle : a.Idle := ⟨index, still⟩
    by_cases posted : a.posted = 0
    · have begins : ∀ b : Acceptor, b.Idle → b.reported = true → b.backlog = a.backlog →
          b.server = a.server → ∃ a' i, ReflTransGen (Proceeds t) b a' ∧ a'.index = some i ∧
            a'.backlog = a.backlog ∧ a'.server = a.server :=
        fun b idle reported backlog server =>
          ⟨_, 0, .single (.inr (.inl (if_pos ⟨idle, reported⟩))), rfl, backlog, server⟩
      cases reported : a.reported with
      | true => exact begins a idle reported rfl rfl
      | false =>
        have edge : a.edge = true := by
          obtain edge | now | some_posted | running := pending
          · exact edge
          · simp [reported] at now
          · exact absurd posted some_posted
          · exact absurd index running
        have polled : Proceeds t a { a with edge := false, reported := true } :=
          .inl (if_pos ⟨idle, reported, edge⟩)
        obtain ⟨a', i, later, running, rest⟩ :=
          begins { a with edge := false, reported := true } idle rfl rfl rfl
        exact ⟨a', i, .head polled later, running, rest⟩
    · exact ⟨_, 0, .single (.inr (.inr (.inl (if_pos ⟨idle, posted⟩)))), rfl, rfl, rfl⟩

/-- The running callback takes the next connection, if need be after posting itself. -/
theorem exists_taken {i : UInt64} (still : a.server.queue.closing = false)
    (running : a.index = some i) (queued : a.backlog ≠ 0) :
    ∃ a', ReflTransGen (Proceeds t) a a' ∧ a'.index ≠ none ∧ a'.backlog = a.backlog - 1 ∧
      a'.server.queue.closing = false := by
  have take : ∀ {b : Acceptor} {i : UInt64}, b.index = some i → i < 128 → b.backlog ≠ 0 →
      step t b (.accept .descriptor) = some { b with
        backlog := b.backlog - 1, index := some (i + 1), server := b.server.accept t } := by
    intro b i running below queued
    simp only [step, running, dequeue, if_neg queued, if_pos below, iterate]
  by_cases below : i < 128
  · refine ⟨_, .single (.inr (.inr (.inr (.inl (take running below queued))))), by simp, rfl, ?_⟩
    rw [accept_queue]
    exact still
  · have reposted : step t a .repost = some { a with posted := a.posted + 1, index := none } := by
      simp only [step, running, if_neg below]
    have resumed : step t { a with posted := a.posted + 1, index := none } .resume =
        some { a with posted := a.posted, index := some 0 } :=
      if_pos ⟨⟨rfl, still⟩, Nat.succ_ne_zero _⟩
    have taken := take (b := { a with posted := a.posted, index := some 0 }) rfl (by decide) queued
    refine ⟨_, .head (.inr (.inr (.inr (.inr reposted)))) (.head (.inr (.inr (.inl resumed)))
      (.single (.inr (.inr (.inr (.inl taken)))))), by simp, rfl, ?_⟩
    rw [accept_queue]
    exact still

/-- What is queued can be accepted without another arrival. -/
theorem exists_emptied (still : a.server.queue.closing = false)
    (pending : 0 < a.backlog → a.Pending) :
    ∃ a', ReflTransGen (Proceeds t) a a' ∧ a'.backlog = 0 := by
  generalize size : a.backlog = n
  induction n generalizing a with
  | zero => exact ⟨a, .refl, size⟩
  | succ n ih =>
    obtain ⟨b, i, begun, running, backlog, server⟩ :=
      exists_running (t := t) still (pending (by omega))
    obtain ⟨b', taken, running', backlog', still'⟩ :=
      exists_taken (t := t) (server ▸ still) running (by omega)
    obtain ⟨a', later, emptied⟩ :=
      ih still' (fun _ => .inr (.inr (.inr running'))) (by omega)
    exact ⟨a', (begun.trans taken).trans later, emptied⟩

/-- **The acceptor never strands a connection**, as long as `accept4` fails with nothing but
`EINTR` and `EAGAIN`: when `accept_ready` returns it has posted itself or found the queue empty;
while connections are queued a callback is running or to come; and they are taken without another
arrival. -/
theorem never_strands (t : TcpServer ε) {backlog : Nat} {trace : List (Acceptor × AcceptEvent)}
    (run : Runs t backlog trace a) (fine : ∀ e ∈ trace, e.2.fails = false) :
    (∀ e ∈ trace, ∀ a', step t e.1 e.2 = some a' → e.1.index ≠ none → a'.index = none →
      a'.posted = e.1.posted + 1 ∨ (e.2 = .accept .wouldBlock ∧ e.1.backlog = 0)) ∧
    (0 < a.backlog → a.Pending) ∧
    (a.server.queue.closing = false →
      ∃ a', ReflTransGen (Proceeds t) a a' ∧ a'.backlog = 0) := by
  have pending : 0 < a.backlog → a.Pending := by
    refine Run.invariant run (fun _ a => 0 < a.backlog → a.Pending) (fun _ e => e.fails = false)
      (fun queued => .inl (decide_eq_true queued)) ?_ fine
    intro trace a e a' before clean taken
    exact pending_step before clean taken
  refine ⟨?_, pending, fun still => exists_emptied still pending⟩
  intro e mem a' taken running returned
  obtain again | empty | failed := return_cases taken running returned
  · exact .inl again
  · exact .inr empty
  · rw [fine e mem] at failed
    cases failed

/-- A connection is accepted after an interrupted call and the queue is found empty; then another
connection arrives. -/
theorem never_strands_second :
    ∃ trace a, Runs (kvServer true) 1 trace a ∧ a.server.stats.accepted = 1 ∧ a.backlog = 1 ∧
      a.Pending ∧ ∃ a', ReflTransGen (Proceeds (kvServer true)) a a' ∧ a'.backlog = 0 := by
  obtain ⟨trace, a, run, fine, accepted, queued, still⟩ : ∃ trace a,
      Runs (kvServer true) 1 trace a ∧
      (∀ e ∈ trace, e.2.fails = false) ∧ a.server.stats.accepted = 1 ∧ a.backlog = 1 ∧
      a.server.queue.closing = false :=
    ⟨_, _, Run.replays (step (kvServer true)) (initial (kvServer true) 1)
      [.poll, .report, .accept .interrupted, .accept .descriptor, .accept .wouldBlock, .arrive]
      (by decide +kernel), by decide +kernel, by decide +kernel, by decide +kernel,
      by decide +kernel⟩
  obtain ⟨-, pending, emptied⟩ := never_strands (kvServer true) run fine
  exact ⟨trace, a, run, accepted, queued, pending (queued ▸ Nat.one_pos), emptied still⟩

/-- Two connections are queued and the first call fails: the other connection waits, and nothing
but the arrival of a third one makes the acceptor run again. -/
theorem error_strands (error : AcceptError) :
    ∃ trace a, Runs (kvServer true) 2 trace a ∧
      trace.map Prod.snd = [.poll, .report, .accept (.failed error true)] ∧ a.backlog = 1 ∧
      ¬ a.Pending ∧ a.server.queue.closing = false ∧
      ∀ e a', step (kvServer true) a e = some a' → e = .arrive ∨ ∃ e', e = .serve e' := by
  refine ⟨_, _, Run.of_replay (step (kvServer true)) (initial (kvServer true) 2)
    [.poll, .report, .accept (.failed error true)] rfl, rfl, rfl,
    by simp [Pending, initial, iterate], rfl, ?_⟩
  intro e a' taken
  cases e with
  | arrive => exact .inl rfl
  | serve e' => exact .inr ⟨e', rfl⟩
  | _ => cases taken

/-- A connection that was aborted strands the one behind it. -/
theorem aborted_strands :
    ∃ trace a, Runs (kvServer true) 2 trace a ∧
      trace.map Prod.snd = [.poll, .report, .accept (.failed .connectionAborted true)] ∧
      a.backlog = 1 ∧ ¬ a.Pending ∧ a.server.queue.closing = false ∧
      ∀ e a', step (kvServer true) a e = some a' → e = .arrive ∨ ∃ e', e = .serve e' :=
  error_strands .connectionAborted

end Acceptor
end KVRPC.Server
