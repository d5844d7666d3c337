import KVRPC.Client.Transport
import Mathlib.Logic.Relation

/-!
# What the transport can do

`Step` lists the changes the callbacks of the loop and the calls of `Submit` are made of, each
with the conditions the code has checked. Inside a callback some things are out of joint: a
request assigned to a connection that is being given up, and a request whose deadline fires.
A `Phase` says which, so that what holds between two callbacks can be followed through them.
-/
namespace KVRPC.Client

open Library Net Library.Framing Relation

variable {ε : Type}

/-- Where the loop's thread is. -/
structure Phase where
  /-- The connections whose `Disconnect` is running, innermost first. -/
  closing : List Nat := []
  /-- The request whose deadline has fired. -/
  firing : Option Nat := none

/-- The timeout of a request that was assigned to a connection. -/
def deadlineExceeded : Error := ⟨.timeout, "Request deadline exceeded"⟩

namespace State

/-- A complete response frame of `size` octets stands at the front of the input. -/
structure Cuts (t : AsyncTransport ε) (s : State) (i size id : Nat) (response : Bytes) : Prop where
  nonempty : (s.sockets i).input.size ≠ 0
  framing : t.framing (s.sockets i).input.contents = .ok size
  within : size ≤ t.frameLimit
  positive : size ≠ 0
  whole : size ≤ (s.sockets i).input.size
  bytes : response = (s.sockets i).input.copy size
  id : responseId t (s.sockets i) response = .ok id

/-- The front of the input is not a frame that can be answered. -/
inductive Refuses (t : AsyncTransport ε) (s : State) (i : Nat) : State → Prop
  | framing {e : ε} (nonempty : (s.sockets i).input.size ≠ 0)
      (error : t.framing (s.sockets i).input.contents = .error e) :
      Refuses t s i (s.note i (s.sockets i).input.contents .invalid)
  | tooLarge {size : Nat} (nonempty : (s.sockets i).input.size ≠ 0)
      (framing : t.framing (s.sockets i).input.contents = .ok size) (large : size > t.frameLimit) :
      Refuses t s i (s.note i (s.sockets i).input.contents .invalid)
  | noId {size : Nat} {e : ε} (framing : t.framing (s.sockets i).input.contents = .ok size)
      (positive : size ≠ 0) (whole : size ≤ (s.sockets i).input.size)
      (error : responseId t (s.sockets i) ((s.sockets i).input.copy size) = .error e) :
      Refuses t s i ((s.consume i size).note i ((s.sockets i).input.copy size) .invalid)
  | unknown {size id : Nat} {response : Bytes} (cuts : s.Cuts t i size id response)
      (known : ¬ (t.ids.isSome ∧ id ∈ (s.sockets i).retired))
      (other : ∀ ref, s.requests.lookup id = some ref → (s.heap ref).slot ≠ some i) :
      Refuses t s i ((s.consume i size).note i response .unknown)

/-- What a changed object has in common with the old one. -/
theorem update_field {α β : Type} (f : β → α) {g : Nat → β} {i : Nat} {b : β}
    (same : f b = f (g i)) (j : Nat) : f (Function.update g i b j) = f (g j) := by
  by_cases here : j = i
  · rw [here, Function.update_self, same]
  · rw [Function.update_of_ne here]

/-- `Finish` changes no more than the count of requests of a connection. -/
theorem release_field {α : Type} (f : Connection → α)
    (other : ∀ c n, f { c with inflight := n } = f c) (s : State)
    (id ref j : Nat) : f ((s.release id ref).sockets j) = f (s.sockets j) := by
  unfold State.release
  dsimp only
  cases (s.heap ref).slot with
  | none => rfl
  | some i => exact update_field f (other _ _) j

theorem mem_enroll {s : State} {ref : Nat} {p : Nat × Nat} (mem : p ∈ (s.enroll ref).requests) :
    p ∈ s.requests ∨ p = ((s.heap ref).id, ref) := by
  unfold State.enroll at mem
  dsimp only at mem
  split at mem
  · exact .inl mem
  · simpa using mem

end State

inductive Step (t : AsyncTransport ε) : Phase × State → Phase × State → Prop
  /-- The environment's answers are used up. -/
  | env {x : Phase} {s : State} (env : Env) : Step t (x, s) (x, { s with env := env })
  | reject {x : Phase} {s : State} {id : Nat} {bytes : Bytes} (full : s.Full t bytes) :
      Step t (x, s) (x, s.reject t id bytes)
  | accept {x : Phase} {s : State} {id : Nat} {bytes : Bytes} (room : ¬ s.Full t bytes) :
      Step t (x, s) (x, s.accept t id bytes)
  | post {x : Phase} {s : State} {ref : Nat} (mem : ref ∈ s.posting) : Step t (x, s) (x, s.post ref)
  | destroy {x : Phase} {s : State} (once : s.closing = false) (idle : s.posting = []) :
      Step t (x, s) (x, { s with closing := true, loop := s.loop.post .drain })
  | enroll {x : Phase} {s : State} {ref : Nat} {rest : List Task}
      (head : s.loop.tasks = .accept ref :: rest) : Step t (x, s) (x, (s.setTasks rest).enroll ref)
  | resume {x : Phase} {s : State} {i : Nat} {rest : List Task}
      (head : s.loop.tasks = .pump i :: rest) : Step t (x, s) (x, (s.setTasks rest).unschedule i)
  | drain {x : Phase} {s : State} {rest : List Task} (head : s.loop.tasks = .drain :: rest) :
      Step t (x, s) (x, { s.setTasks rest with draining := true })
  | stop {x : Phase} {s : State} (draining : s.draining = true) (empty : s.requests = []) :
      Step t (x, s) (x, { s with loop := s.loop.stop })
  /-- The deadline of a request fires, and the callback has seen to it that it is finished. -/
  | fire {x : Phase} {s : State} {timer id : Nat} (idle : x.firing = none)
      (live : s.loop.timers.lookup timer = some (.deadline id)) :
      Step t (x, s) ({ x with firing := some id }, { s with loop := s.loop.cancel timer })
  | fired {x : Phase} {s : State} {id : Nat} (gone : s.requests.lookup id = none)
      (firing : x.firing = some id) : Step t (x, s) ({ x with firing := none }, s)
  | fireConnect {x : Phase} {s : State} {timer i : Nat}
      (live : s.loop.timers.lookup timer = some (.connect i)) :
      Step t (x, s) (x, { s with loop := s.loop.cancel timer })
  /-- A request is finished: its deadline passes in the queue or after it was sent, its
  connection is given up, or the response arrives. -/
  | expire {x : Phase} {s : State} {id ref : Nat} {error : Error}
      (found : s.requests.lookup id = some ref) (slot : (s.heap ref).slot = none) :
      Step t (x, s) (x, (s.release id ref).record ref (.error error))
  | retire {x : Phase} {s : State} {id ref i : Nat} (found : s.requests.lookup id = some ref)
      (slot : (s.heap ref).slot = some i) (ids : t.ids.isSome) (sent : (s.heap ref).sent = true) :
      Step t (x, s)
        (x, ((s.retire i id).release id ref).record ref (.error deadlineExceeded))
  | fail {x : Phase} {s : State} {id ref i : Nat} {error : Error}
      (found : s.requests.lookup id = some ref) (slot : (s.heap ref).slot = some i)
      (closing : i ∈ x.closing) : Step t (x, s) (x, (s.release id ref).record ref (.error error))
  | deliver {x : Phase} {s : State} {i size id ref : Nat} {response : Bytes}
      (open_ : (s.sockets i).fd = true) (cuts : s.Cuts t i size id response)
      (known : ¬ (t.ids.isSome ∧ id ∈ (s.sockets i).retired))
      (found : s.requests.lookup id = some ref) (slot : (s.heap ref).slot = some i) :
      Step t (x, s)
        (x, ((s.take t i size ref response).release id ref).record ref (.response response))
  | drop {x : Phase} {s : State} {i size id : Nat} {response : Bytes}
      (open_ : (s.sockets i).fd = true) (cuts : s.Cuts t i size id response) (ids : t.ids.isSome)
      (retired : id ∈ (s.sockets i).retired) : Step t (x, s) (x, s.drop i size id response)
  | refuse {x : Phase} {s s' : State} {i : Nat} (open_ : (s.sockets i).fd = true)
      (refuses : s.Refuses t i s') : Step t (x, s) (x, s')
  /-- `Disconnect` begins, and ends when no request is assigned to the connection. -/
  | clear {x : Phase} {s : State} (i : Nat) :
      Step t (x, s) ({ x with closing := i :: x.closing }, s.clear i)
  | closed {x : Phase} {s : State} {i : Nat} {rest : List Nat} (closing : x.closing = i :: rest)
      (none : ∀ p ∈ s.requests, (s.heap p.2).slot ≠ some i) :
      Step t (x, s) ({ x with closing := rest }, s)
  | skip {x : Phase} {s : State} {ref : Nat} {rest : List Nat} (head : s.waiting = ref :: rest)
      (gone : s.requests.lookup (s.heap ref).id = none) :
      Step t (x, s) (x, { s with waiting := rest })
  /-- A request is assigned to a connection, which is opened first if need be. -/
  | assign {x : Phase} {s : State} {i ref : Nat} {rest : List Nat} (valid : i < t.connections)
      (head : s.waiting = ref :: rest) (known : (s.requests.lookup (s.heap ref).id).isSome)
      (room : (s.sockets i).inflight + (s.sockets i).retired.length < t.limit)
      (open_ : (s.sockets i).fd = true) : Step t (x, s) (x, s.assign t i ref rest)
  | connect {x : Phase} {s : State} {i ref : Nat} {rest : List Nat} {connecting : Bool}
      (idle : x.closing = []) (valid : i < t.connections) (head : s.waiting = ref :: rest)
      (known : (s.requests.lookup (s.heap ref).id).isSome)
      (room : (s.sockets i).inflight + (s.sockets i).retired.length < t.limit)
      (closed : (s.sockets i).fd = false) :
      Step t (x, s) (x, (s.assign t i ref rest).opened i connecting)
  | refused {x : Phase} {s : State} {i ref : Nat} {rest : List Nat} {made : Bool}
      (valid : i < t.connections) (head : s.waiting = ref :: rest)
      (known : (s.requests.lookup (s.heap ref).id).isSome)
      (room : (s.sockets i).inflight + (s.sockets i).retired.length < t.limit)
      (closed : (s.sockets i).fd = false) :
      Step t (x, s) ({ x with closing := i :: x.closing },
        (if made then (s.assign t i ref rest).socketMade i else s.assign t i ref rest).clear i)
  | established {x : Phase} {s : State} (i : Nat) : Step t (x, s) (x, s.established i)
  | wrote {x : Phase} {s : State} {i ref n : Nat} {rest : List Nat}
      (open_ : (s.sockets i).fd = true) (front : (s.sockets i).output = ref :: rest)
      (positive : 0 < n) (fits : n ≤ usub (s.heap ref).bytes.length (s.sockets i).sent) :
      Step t (x, s) (x, s.wrote i ref rest n)
  | received {x : Phase} {s : State} {i : Nat} (open_ : (s.sockets i).fd = true) (bytes : Bytes) :
      Step t (x, s) (x, s.received i bytes)
  | schedule {x : Phase} {s : State} (i : Nat) : Step t (x, s) (x, s.schedule i)
  | modify {x : Phase} {s : State} (i : Nat) : Step t (x, s) (x, s.modify i)

abbrev Steps (t : AsyncTransport ε) : Phase × State → Phase × State → Prop :=
  ReflTransGen (Step t)

end KVRPC.Client
