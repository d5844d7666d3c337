import KVRPC.Client.ConnectionPool

/-!
# Blocking connections

`TcpConnection` of `tcp_connection.cpp`. `Connect`, `SendAll` and `RecvAll` wait for the socket
with `epoll_wait` and go on until they are done, an error occurs or the time is up; a request has
one deadline for all its transfers. The kernel decides what each call returns. Time is in
nanoseconds and passes between the calls of the methods and in `epoll_wait`, which returns when
its timeout has passed at the latest.

Sockets are numbered in the order of their creation. Next to the members the state holds, for each
socket, what went over it and what the calls of `SendAll` and `RecvAll` asked for, and the calls
that entered a loop and have ended; no method reads these.
-/
namespace KVRPC.Client

open Library Net Relation

/-- A connection that has been constructed. -/
structure TcpConnection where
  options : TransportOptions
  valid : ¬ ConnectionPool.InvalidTimeouts options

namespace TcpConnection

/-- The constructor. -/
def create (options : TransportOptions) : Except Error TcpConnection :=
  if h : ConnectionPool.InvalidTimeouts options then
    .error ⟨.invalidArgument, "Transport timeouts must be in [1, INT_MAX] milliseconds"⟩
  else .ok ⟨options, h⟩

def millisecond : Nat := 1000000

def intMax : Nat := 2 ^ 31 - 1

/-- What the method that waits has done so far. -/
inductive Loop where
  | connect
  | send (data : Bytes) (offset : Nat)
  | receive (size : Nat) (got : Bytes)
  deriving DecidableEq

/-- The transfer is complete. -/
def Loop.Done : Loop → Prop
  | .connect => True
  | .send data offset => data.length ≤ offset
  | .receive size got => size ≤ got.length

instance (l : Loop) : Decidable l.Done :=
  match l with
  | .connect => isTrue trivial
  | .send data offset => inferInstanceAs (Decidable (data.length ≤ offset))
  | .receive size got => inferInstanceAs (Decidable (size ≤ got.length))

/-- A call of a method that waits: when it was made, from when its time counts and when it is
up. -/
structure Call where
  loop : Loop
  begun : Nat
  requested : Nat
  limit : Nat
  deriving DecidableEq

inductive Place where
  | idle
  /-- At the head of the loop in `Wait`. -/
  | checking (c : Call)
  | polling (c : Call) (timeout : Nat)
  /-- `Wait` has returned true. -/
  | ready (c : Call)
  deriving DecidableEq

def Place.call : Place → Option Call
  | .idle => none
  | .checking c | .polling c _ | .ready c => some c

structure Ended where
  call : Call
  time : Nat
  ok : Bool
  deriving DecidableEq

structure State where
  now : Nat
  fd : Option Nat := none
  epoll : Bool := false
  deadline : Nat
  timedOut : Bool := false
  place : Place := .idle
  /-- When `BeginRequest` was called last. -/
  requested : Nat
  sockets : Nat := 0
  offered : Nat → List Bytes := fun _ => []
  sent : Nat → Bytes := fun _ => []
  received : Nat → Bytes := fun _ => []
  /-- The results of `RecvAll`, each with the length asked for. -/
  buffers : Nat → List (Nat × Bytes) := fun _ => []
  ended : List Ended := []

/-- What becomes of the calls `Connect` makes before it waits. -/
inductive Setup where
  | noSocket
  | noEpoll
  | notAdded
  | noOption
  | connected
  /-- `connect` fails with `EINPROGRESS` or `EINTR`. -/
  | inProgress
  | refused
  deriving DecidableEq

inductive Polled where
  | ready
  | interrupted
  | failed
  deriving DecidableEq

inductive Event where
  /-- Time passes. -/
  | pass (time : Nat)
  | beginRequest
  | close
  /-- `parses` is the verdict of `inet_pton`. -/
  | connect (port : Nat) (parses : Bool) (setup : Setup)
  /-- `none` is a null pointer with a positive length. -/
  | sendAll (data : Option Bytes)
  | recvAll (size : Nat) (null : Bool)
  /-- `epoll_ctl`, if it comes to that. -/
  | check (modified : Bool)
  | wake (result : Polled)
  /-- `epoll_wait` returns 0. -/
  | expire
  | send (outcome : SendOutcome)
  | receive (outcome : ReceiveOutcome)
  /-- `getsockopt` for `SO_ERROR`. -/
  | socketError (clear : Bool)
  deriving DecidableEq

variable (t : TcpConnection)

def connectTimeout : Nat := t.options.connectTimeout.toNat * millisecond

def ioTimeout : Nat := t.options.ioTimeout.toNat * millisecond

/-- Right after the constructor, which calls `BeginRequest`. -/
def initial (now : Nat) : State where
  now := now
  deadline := now + t.ioTimeout
  requested := now

namespace State

def beginRequest (s : State) : State :=
  { s with timedOut := false, deadline := s.now + t.ioTimeout, requested := s.now }

def close (s : State) : State := { s with fd := none }

/-- A new socket and the `epoll` instance, which is created once and kept. -/
def register (s : State) : State :=
  { s with fd := some s.sockets, sockets := s.sockets + 1, epoll := true }

def finish (s : State) (c : Call) (ok : Bool) : State :=
  { s with place := .idle, ended := s.ended ++ [⟨c, s.now, ok⟩] }

/-- `Close(); return false;` -/
def fail (s : State) (c : Call) : State := s.close.finish c false

/-- The loop of a transfer goes on or ends. -/
def settle (s : State) (c : Call) : State :=
  if c.loop.Done then s.finish c true else { s with place := .checking c }

/-- A transfer has the deadline of its request. -/
def transfer (s : State) (loop : Loop) : Call := ⟨loop, s.now, s.requested, s.deadline⟩

def connect (s : State) : Setup → Option State
  | .noSocket => some s
  | .noEpoll => if s.epoll then none else some { s with sockets := s.sockets + 1 }
  | .notAdded | .noOption | .refused => some s.register.close
  | .connected => some (s.register.beginRequest t)
  | .inProgress => some { s.register with
      place := .checking ⟨.connect, s.now, s.now, s.now + t.connectTimeout⟩ }

/-- The argument of `epoll_wait`, as a point in time. -/
def pollUntil (s : State) (c : Call) : Nat :=
  s.now + min ((c.limit - s.now) / millisecond + 1) intMax * millisecond

/-- The whole of `SendAll` up to its first wait. -/
def sendAll (s : State) (data : Bytes) (fd : Nat) : State :=
  { s with offered := Function.update s.offered fd (s.offered fd ++ [data]) }.settle
    (s.transfer (.send data 0))

def wrote (s : State) (c : Call) (data : Bytes) (offset n fd : Nat) : State :=
  { s with sent := Function.update s.sent fd (s.sent fd ++ (data.drop offset).take n) }.settle
    { c with loop := .send data (offset + n) }

/-- `RecvAll` has its octets: the buffer is the caller's. -/
def deliver (s : State) (size : Nat) (got : Bytes) (fd : Nat) : State :=
  if size ≤ got.length then
    { s with buffers := Function.update s.buffers fd (s.buffers fd ++ [(size, got)]) }
  else s

def recvAll (s : State) (size fd : Nat) : State :=
  (s.deliver size [] fd).settle (s.transfer (.receive size []))

def read (s : State) (c : Call) (size : Nat) (got bytes : Bytes) (fd : Nat) : State :=
  ({ s with received := Function.update s.received fd (s.received fd ++ bytes) }.deliver size
    (got ++ bytes) fd).settle { c with loop := .receive size (got ++ bytes) }

/-- A method is called between two others: the connection belongs to one request at a time. -/
def step (s : State) : Event → Option State
  | .pass time =>
    match s.place with
    | .idle => if s.now ≤ time then some { s with now := time } else none
    | .polling _ timeout =>
      if s.now ≤ time ∧ time ≤ timeout then some { s with now := time } else none
    | _ => none
  | .beginRequest => if s.place = .idle then some (s.beginRequest t) else none
  | .close => if s.place = .idle then some s.close else none
  | .connect port parses setup =>
    if s.place = .idle then
      if port = 0 ∨ parses = false then some { s.close with timedOut := false }
      else { s.close with timedOut := false }.connect t setup
    else none
  | .sendAll data =>
    if s.place = .idle then
      match s.fd, data with
      | some fd, some data => some (s.sendAll data fd)
      | _, _ => some s
    else none
  | .recvAll size null =>
    if s.place = .idle then
      match s.fd with
      | some fd => if null = true ∧ size ≠ 0 then some s else some (s.recvAll size fd)
      | none => some s
    else none
  | .check modified =>
    match s.place with
    | .checking c =>
      if c.limit ≤ s.now then some { s.fail c with timedOut := true }
      else if modified then some { s with place := .polling c (s.pollUntil c) }
      else some (s.fail c)
    | _ => none
  | .wake result =>
    match s.place, result with
    | .polling c _, .ready => some { s with place := .ready c }
    | .polling c _, .interrupted => some { s with place := .checking c }
    | .polling c _, .failed => some (s.fail c)
    | _, _ => none
  | .expire =>
    match s.place with
    | .polling c timeout =>
      if timeout ≤ s.now then some { s.fail c with timedOut := true } else none
    | _ => none
  | .send outcome =>
    match s.place, s.fd with
    | .ready c, some fd =>
      match c.loop, outcome with
      | .send data offset, .wrote n =>
        if n = 0 then some (s.fail c)
        else if n ≤ min (data.length - offset) intMax then some (s.wrote c data offset n fd)
        else none
      | .send _ _, .wouldBlock | .send _ _, .interrupted => some { s with place := .checking c }
      | .send _ _, .failed => some (s.fail c)
      | _, _ => none
    | _, _ => none
  | .receive outcome =>
    match s.place, s.fd with
    | .ready c, some fd =>
      match c.loop, outcome with
      | .receive size got, .data bytes =>
        if bytes = [] then some (s.fail c)
        else if bytes.length ≤ min (size - got.length) intMax then
          some (s.read c size got bytes fd)
        else none
      | .receive _ _, .wouldBlock | .receive _ _, .interrupted =>
        some { s with place := .checking c }
      | .receive _ _, .failed => some (s.fail c)
      | _, _ => none
    | _, _ => none
  | .socketError clear =>
    match s.place with
    | .ready c =>
      if c.loop = .connect then
        if clear then some ((s.beginRequest t).finish c true) else some (s.fail c)
      else none
    | _ => none

end State

abbrev Runs (now : Nat) (trace : List (State × Event)) (s : State) : Prop :=
  Run (fun s e s' => s.step t e = some s') (fun _ => False) (t.initial now) trace s

/-! ## What a step can do -/

variable {t} {s s' : State}

/-- A part of a step. -/
inductive Move (t : TcpConnection) : State → State → Prop
  | pass {s : State} {time : Nat} (later : s.now ≤ time)
      (blocked : ∀ c, s.place.call = some c → ∃ timeout, s.place = .polling c timeout ∧
        time ≤ timeout) : Move t s { s with now := time }
  | beginRequest {s : State} (idle : s.place = .idle) : Move t s (s.beginRequest t)
  | close {s : State} (idle : s.place = .idle) (flag : Bool)
      (reported : flag = true → s.timedOut = true) : Move t s { s.close with timedOut := flag }
  | skip {s : State} (closed : s.fd = none) : Move t s { s with sockets := s.sockets + 1 }
  | register {s : State} (idle : s.place = .idle) (quiet : s.timedOut = false) : Move t s s.register
  | connect {s : State} (idle : s.place = .idle) (quiet : s.timedOut = false) : Move t s
      { s with place := .checking ⟨.connect, s.now, s.now, s.now + t.connectTimeout⟩ }
  | sendAll {s : State} {fd : Nat} (idle : s.place = .idle) (opened : s.fd = some fd)
      (data : Bytes) : Move t s (s.sendAll data fd)
  | recvAll {s : State} {fd : Nat} (idle : s.place = .idle) (opened : s.fd = some fd)
      (size : Nat) : Move t s (s.recvAll size fd)
  | poll {s : State} {c : Call} (here : s.place = .checking c) (early : s.now < c.limit) :
      Move t s { s with place := .polling c (s.pollUntil c) }
  | again {s : State} {c : Call} (here : s.place.call = some c) :
      Move t s { s with place := .checking c }
  | ready {s : State} {c : Call} (here : s.place.call = some c) :
      Move t s { s with place := .ready c }
  | fail {s : State} {c : Call} (here : s.place.call = some c) (expired : Bool)
      (late : expired = true → c.limit ≤ s.now ∨ ∃ timeout, s.place = .polling c timeout ∧
        timeout ≤ s.now) : Move t s { s.fail c with timedOut := expired || s.timedOut }
  | connected {s : State} {c : Call} (here : s.place.call = some c) (loop : c.loop = .connect) :
      Move t s ((s.beginRequest t).finish c true)
  | wrote {s : State} {c : Call} {data : Bytes} {offset n fd : Nat}
      (here : s.place.call = some c) (opened : s.fd = some fd) (loop : c.loop = .send data offset)
      (within : n ≤ data.length - offset) : Move t s (s.wrote c data offset n fd)
  | read {s : State} {c : Call} {size : Nat} {got bytes : Bytes} {fd : Nat}
      (here : s.place.call = some c) (opened : s.fd = some fd) (loop : c.loop = .receive size got)
      (within : bytes.length ≤ size - got.length) : Move t s (s.read c size got bytes fd)

theorem State.connect_moves {setup : Setup} (idle : s.place = .idle) (closed : s.fd = none)
    (quiet : s.timedOut = false) (h : s.connect t setup = some s') :
    ReflTransGen (Move t) s s' := by
  have registers : ReflTransGen (Move t) s s.register := .single (.register idle quiet)
  cases setup with
  | noSocket =>
    cases h
    exact .refl
  | noEpoll =>
    obtain ⟨-, ⟨⟩⟩ := Option.ite_none_left_eq_some.mp h
    exact .single (.skip closed)
  | notAdded | noOption | refused =>
    cases h
    exact registers.tail (.close (s := s.register) idle s.timedOut id)
  | connected =>
    cases h
    exact registers.tail (.beginRequest idle)
  | inProgress =>
    cases h
    exact registers.tail (.connect idle quiet)

theorem State.step_moves {e : Event} (h : s.step t e = some s') :
    ReflTransGen (Move t) s s' := by
  cases e with
  | pass time =>
    simp only [State.step] at h
    split at h
    case h_1 idle =>
      obtain ⟨later, ⟨⟩⟩ := Option.ite_none_right_eq_some.mp h
      exact .single (.pass later fun c here => by simp [idle, Place.call] at here)
    case h_2 c timeout polls =>
      obtain ⟨⟨later, within⟩, ⟨⟩⟩ := Option.ite_none_right_eq_some.mp h
      refine .single (.pass later fun c' here => ⟨timeout, ?_, within⟩)
      rw [polls] at here ⊢
      cases here
      rfl
    case h_3 => cases h
  | beginRequest =>
    obtain ⟨idle, ⟨⟩⟩ := Option.ite_none_right_eq_some.mp h
    exact .single (.beginRequest idle)
  | close =>
    obtain ⟨idle, ⟨⟩⟩ := Option.ite_none_right_eq_some.mp h
    exact .single (.close idle s.timedOut id)
  | connect port parses setup =>
    obtain ⟨idle, called⟩ := Option.ite_none_right_eq_some.mp h
    have closes : Move t s { s.close with timedOut := false } :=
      .close idle false fun reported => by cases reported
    split at called
    case isTrue =>
      cases called
      exact .single closes
    case isFalse => exact .head closes (State.connect_moves idle rfl rfl called)
  | sendAll data =>
    obtain ⟨idle, called⟩ := Option.ite_none_right_eq_some.mp h
    split at called
    case h_1 fd data opened =>
      cases called
      exact .single (.sendAll idle opened data)
    case h_2 =>
      cases called
      exact .refl
  | recvAll size null =>
    obtain ⟨idle, called⟩ := Option.ite_none_right_eq_some.mp h
    split at called
    case h_1 fd opened =>
      split at called
      case isTrue =>
        cases called
        exact .refl
      case isFalse =>
        cases called
        exact .single (.recvAll idle opened size)
    case h_2 =>
      cases called
      exact .refl
  | check modified =>
    simp only [State.step] at h
    split at h
    case h_1 c here =>
      have call : s.place.call = some c := by rw [here]; rfl
      split at h
      case isTrue late =>
        cases h
        exact .single (.fail call true fun _ => .inl late)
      case isFalse early =>
        split at h
        case isTrue =>
          cases h
          exact .single (.poll here (Nat.lt_of_not_le early))
        case isFalse =>
          cases h
          exact .single (.fail call false fun expired => by cases expired)
    case h_2 => cases h
  | wake result =>
    simp only [State.step] at h
    split at h
    case h_1 c timeout here =>
      cases h
      exact .single (.ready (by rw [here]; rfl))
    case h_2 c timeout here =>
      cases h
      exact .single (.again (by rw [here]; rfl))
    case h_3 c timeout here =>
      cases h
      exact .single (.fail (by rw [here]; rfl) false fun expired => by cases expired)
    case h_4 => cases h
  | expire =>
    simp only [State.step] at h
    split at h
    case h_1 c timeout here =>
      obtain ⟨late, ⟨⟩⟩ := Option.ite_none_right_eq_some.mp h
      exact .single (.fail (by rw [here]; rfl) true fun _ => .inr ⟨timeout, here, late⟩)
    case h_2 => cases h
  | send outcome =>
    simp only [State.step] at h
    split at h
    case h_1 c fd here opened =>
      have call : s.place.call = some c := by rw [here]; rfl
      have fails : ReflTransGen (Move t) s (s.fail c) :=
        .single (.fail call false fun expired => by cases expired)
      split at h
      case h_1 data offset n loop =>
        split at h
        case isTrue =>
          cases h
          exact fails
        case isFalse =>
          obtain ⟨within, ⟨⟩⟩ := Option.ite_none_right_eq_some.mp h
          exact .single (.wrote call opened loop (within.trans (min_le_left _ _)))
      case h_2 | h_3 =>
        cases h
        exact .single (.again call)
      case h_4 =>
        cases h
        exact fails
      case h_5 => cases h
    case h_2 => cases h
  | receive outcome =>
    simp only [State.step] at h
    split at h
    case h_1 c fd here opened =>
      have call : s.place.call = some c := by rw [here]; rfl
      have fails : ReflTransGen (Move t) s (s.fail c) :=
        .single (.fail call false fun expired => by cases expired)
      split at h
      case h_1 size got bytes loop =>
        split at h
        case isTrue =>
          cases h
          exact fails
        case isFalse =>
          obtain ⟨within, ⟨⟩⟩ := Option.ite_none_right_eq_some.mp h
          exact .single (.read call opened loop (within.trans (min_le_left _ _)))
      case h_2 | h_3 =>
        cases h
        exact .single (.again call)
      case h_4 =>
        cases h
        exact fails
      case h_5 => cases h
    case h_2 => cases h
  | socketError clear =>
    simp only [State.step] at h
    split at h
    case h_1 c here =>
      have call : s.place.call = some c := by rw [here]; rfl
      obtain ⟨loop, called⟩ := Option.ite_none_right_eq_some.mp h
      split at called
      case isTrue =>
        cases called
        exact .single (.connected call loop)
      case isFalse =>
        cases called
        exact .single (.fail call false fun expired => by cases expired)
    case h_2 => cases h

/-- **Invariant rule.** -/
theorem Runs.invariant {now : Nat} {trace : List (State × Event)} (run : Runs t now trace s)
    (Inv : State → Prop) (base : Inv (t.initial now))
    (next : ∀ {s s'}, Inv s → Move t s s' → Inv s') : Inv s := by
  refine Run.invariant run (fun _ s => Inv s) (fun _ _ => True) base (fun held _ taken => ?_)
    fun _ _ => trivial
  have moves := State.step_moves taken
  clear taken
  induction moves with
  | refl => exact held
  | tail _ move ih => exact next ih move

end TcpConnection
end KVRPC.Client
