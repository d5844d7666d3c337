import KVRPC.Library.Runs
import KVRPC.Net.Buffer
import KVRPC.Net.Reactor
import KVRPC.Net.Socket
import KVRPC.Protocol.RpcFrame

/-!
# The asynchronous transport

`AsyncTransport` of `async_transport.cpp`: requests submitted by any thread are admitted
under a lock and posted to one loop, which spreads them over a fixed set of connections,
matches responses to requests and enforces deadlines.

A request is a shared object; it is known by the number of the call of `Submit` that made
it, and `heap` holds the objects. What the loop's callbacks do is written as functions on the
state. The environment's answers (outcomes of socket calls, what completions return and what
other threads do while one runs, the order in which the map of requests is walked) stand in
`env`, from which the functions take them one after another.
-/
namespace KVRPC.Client

open Library Net Library.Framing

variable {ε : Type}

structure TransportOptions where
  connectTimeout : Int := 2000
  ioTimeout : Int := 5000

/-- The fields the transport reads. -/
structure ClientOptions where
  queueCapacity : Nat := 64
  maxFrameBytes : Nat := 2 * 1024 * 1024
  queueBytes : Nat := 64 * 1024 * 1024
  maxInflight : Nat := 16

/-- The condition under which the constructor throws; `parses` is the verdict of
`inet_pton`. -/
def Invalid (port : Nat) (parses : Bool) (n : Nat) (t : TransportOptions) (o : ClientOptions) :
    Prop :=
  port = 0 ∨ parses = false ∨ t.ioTimeout ≤ 0 ∨ t.connectTimeout ≤ 0 ∨ n = 0 ∨
    o.queueCapacity = 0 ∨ o.maxFrameBytes = 0 ∨ o.queueBytes = 0 ∨ o.maxInflight = 0

instance (port : Nat) (parses : Bool) (n : Nat) (t : TransportOptions) (o : ClientOptions) :
    Decidable (Invalid port parses n t o) := by
  unfold Invalid; infer_instance

/-- A transport that has been constructed. Without `ids` the responses come in request
order. -/
structure AsyncTransport (ε : Type) where
  connections : Nat
  options : ClientOptions
  framing : Sizer ε
  ids : Option (Bytes → Except ε Nat)
  connections_pos : 0 < connections
  queueCapacity_pos : 0 < options.queueCapacity
  maxFrameBytes_pos : 0 < options.maxFrameBytes
  queueBytes_pos : 0 < options.queueBytes
  maxInflight_pos : 0 < options.maxInflight

namespace AsyncTransport

def create (port : Nat) (parses : Bool) (n : Nat) (transport : TransportOptions)
    (options : ClientOptions) (framing : Sizer ε) (ids : Option (Bytes → Except ε Nat)) :
    Except Error (AsyncTransport ε) :=
  if h : Invalid port parses n transport options then
    .error ⟨.invalidArgument, "Invalid asynchronous transport limits"⟩
  else
    .ok { connections := n, options, framing, ids
          connections_pos := by unfold Invalid at h; omega
          queueCapacity_pos := by unfold Invalid at h; omega
          maxFrameBytes_pos := by unfold Invalid at h; omega
          queueBytes_pos := by unfold Invalid at h; omega
          maxInflight_pos := by unfold Invalid at h; omega }

/-- How many requests and retired identifiers a connection may carry. -/
def limit (t : AsyncTransport ε) : Nat := if t.ids.isSome then t.options.maxInflight else 1

/-- The largest response frame. -/
def frameLimit (t : AsyncTransport ε) : Nat :=
  t.options.maxFrameBytes + if t.ids.isSome then 16 else 0

end AsyncTransport

/-- The transport of an `RpcClient` with one connection and the default options. -/
def rpcClient : AsyncTransport Error where
  connections := 1
  options := {}
  framing := rpcFrameSize
  ids := some rpcId
  connections_pos := by decide
  queueCapacity_pos := by decide
  maxFrameBytes_pos := by decide
  queueBytes_pos := by decide
  maxInflight_pos := by decide

/-- The transport of a `KVCacheClient` with one connection and the default options. -/
def kvClient : AsyncTransport Exception where
  connections := 1
  options := {}
  framing := kvFrameSize
  ids := none
  connections_pos := by decide
  queueCapacity_pos := by decide
  maxFrameBytes_pos := by decide
  queueBytes_pos := by decide
  maxInflight_pos := by decide

/-- What a completion is called with. -/
inductive Outcome where
  | response (bytes : Bytes)
  | error (e : Error)
  deriving DecidableEq

structure Request where
  id : Nat := 0
  timer : Nat := 0
  bytes : Bytes := []
  /-- `none` stands for `SIZE_MAX`. -/
  slot : Option Nat := none
  sent : Bool := false
  deriving DecidableEq

structure Connection where
  /-- Whether `fd >= 0`. -/
  fd : Bool := false
  token : Nat := 0
  connectTimer : Nat := 0
  connecting : Bool := false
  scheduled : Bool := false
  input : Buffer := {}
  output : List Nat := []
  order : List Nat := []
  sent : Nat := 0
  inflight : Nat := 0
  retired : List Nat := []
  deriving DecidableEq

/-- The tasks posted to the loop. -/
inductive Task where
  | accept (ref : Nat)
  | pump (i : Nat)
  | drain
  deriving DecidableEq

inductive Timer where
  | deadline (id : Nat)
  | connect (i : Nat)
  deriving DecidableEq

/-- The two halves of a call of `Submit`: the critical section, and the `Post` after it. -/
inductive Call where
  | submit (id : Nat) (bytes : Bytes)
  | post (ref : Nat)
  deriving DecidableEq

/-- What `socket` and `connect` return. -/
inductive ConnectOutcome where
  | noSocket
  | refused
  | connected
  | inProgress
  deriving DecidableEq

/-- What `getsockopt` and `getpeername` say about a connection in progress. -/
inductive CheckOutcome where
  | failed
  | pending
  | established
  deriving DecidableEq

/-- What a completion returns, and what happens elsewhere while it runs. -/
structure CompletionOutcome where
  valid : Bool := true
  calls : List Call := []
  deriving DecidableEq

structure Env where
  sends : List SendOutcome := []
  receives : List ReceiveOutcome := []
  connects : List ConnectOutcome := []
  checks : List CheckOutcome := []
  completions : List CompletionOutcome := []
  orders : List (List Nat) := []
  deriving DecidableEq

/-- What passes over a connection, as the client sees it: the last octet of a request is
sent, or octets are received. -/
inductive Wire where
  | sent (ref : Nat)
  | received (bytes : Bytes)
  deriving DecidableEq

/-- What becomes of a response frame. -/
inductive Verdict where
  | delivered (ref : Nat)
  | dropped
  | unknown
  | invalid
  deriving DecidableEq

structure State where
  loop : Reactor (Nat × Bool) Timer Task := {}
  sockets : Nat → Connection := fun _ => {}
  waiting : List Nat := []
  requests : List (Nat × Nat) := []
  admitted : Nat := 0
  bytes : Nat := 0
  closing : Bool := false
  draining : Bool := false
  heap : Nat → Request := fun _ => {}
  env : Env := {}
  /-- How often `Submit` has been called. -/
  submitted : Nat := 0
  /-- The requests admitted by calls of `Submit` that have not reached their `Post`. -/
  posting : List Nat := []
  -- what has happened so far: admitted requests, invoked completions, by token what passed
  -- over a connection and what became of its frames, and whether a counter has wrapped around
  accepted : List Nat := []
  completed : List (Nat × Outcome) := []
  wire : Nat → List Wire := fun _ => []
  frames : Nat → List (Bytes × Verdict) := fun _ => []
  wrapped : Bool := false

namespace State

def setSocket (s : State) (i : Nat) (c : Connection) : State :=
  { s with sockets := Function.update s.sockets i c }

def setTasks (s : State) (tasks : List Task) : State := { s with loop.tasks := tasks }

/-- The condition under which `Submit` refuses. -/
def Full (t : AsyncTransport ε) (s : State) (bytes : Bytes) : Prop :=
  s.closing = true ∨ s.admitted ≥ t.options.queueCapacity ∨
    bytes.length > usub t.options.queueBytes s.bytes

instance (t : AsyncTransport ε) (s : State) (bytes : Bytes) : Decidable (s.Full t bytes) := by
  unfold Full; infer_instance

def reject (t : AsyncTransport ε) (s : State) (id : Nat) (bytes : Bytes) : State :=
  { s with
    submitted := s.submitted + 1
    heap := Function.update s.heap s.submitted { id, bytes }
    completed := s.completed ++ [(s.submitted,
      .error ⟨if s.closing then .closed else .overloaded, "Client admission limit reached"⟩)]
    wrapped := s.wrapped || decide (t.options.queueBytes < s.bytes) }

def accept (t : AsyncTransport ε) (s : State) (id : Nat) (bytes : Bytes) : State :=
  { s with
    submitted := s.submitted + 1
    heap := Function.update s.heap s.submitted { id, bytes }
    admitted := s.admitted + 1
    bytes := s.bytes + bytes.length
    posting := s.posting ++ [s.submitted]
    accepted := s.accepted ++ [s.submitted]
    wrapped := s.wrapped || decide (t.options.queueBytes < s.bytes) }

/-- The critical section of `Submit`. -/
def submit (t : AsyncTransport ε) (s : State) (id : Nat) (bytes : Bytes) : State :=
  if s.Full t bytes then s.reject t id bytes else s.accept t id bytes

/-- The `Post` of `Submit`. -/
def post (s : State) (ref : Nat) : State :=
  { s with posting := s.posting.erase ref, loop := s.loop.post (.accept ref) }

def call (t : AsyncTransport ε) (s : State) : Call → State
  | .submit id bytes => s.submit t id bytes
  | .post ref => if ref ∈ s.posting then s.post ref else s

/-- The task of `Submit` up to its call of `Dispatch`. -/
def enroll (s : State) (ref : Nat) : State :=
  { s with
    requests := if (s.requests.lookup (s.heap ref).id).isSome then s.requests
      else s.requests ++ [((s.heap ref).id, ref)]
    heap := Function.update s.heap ref
      { s.heap ref with timer := (s.loop.timerAt (.deadline (s.heap ref).id)).1 }
    loop := (s.loop.timerAt (.deadline (s.heap ref).id)).2
    waiting := s.waiting ++ [ref] }

/-- `Finish` up to the call of the completion. -/
def release (s : State) (id ref : Nat) : State :=
  { s with
    requests := s.requests.filter fun p => p.1 ≠ id
    loop := s.loop.cancel (s.heap ref).timer
    sockets := match (s.heap ref).slot with
      | some i => Function.update s.sockets i
          { s.sockets i with inflight := usub (s.sockets i).inflight 1 }
      | none => s.sockets
    waiting := match (s.heap ref).slot with
      | some _ => s.waiting
      | none => s.waiting.filter fun r => (s.heap r).id ≠ id
    admitted := usub s.admitted 1
    bytes := usub s.bytes (s.heap ref).bytes.length
    wrapped := s.wrapped || decide (s.admitted = 0 ∨ s.bytes < (s.heap ref).bytes.length ∨
      ∃ i ∈ (s.heap ref).slot, (s.sockets i).inflight = 0) }

/-- The completion of a request is called. -/
def record (s : State) (ref : Nat) (outcome : Outcome) : State :=
  { s with completed := s.completed ++ [(ref, outcome)] }

/-- What the completion returns, after what other threads have done meanwhile. -/
def invoke (t : AsyncTransport ε) (s : State) : Bool × State :=
  match s.env.completions with
  | [] => (true, s)
  | c :: rest => (c.valid, c.calls.foldl (call t) { s with env.completions := rest })

/-- `Disconnect` up to its loop. -/
def clear (s : State) (i : Nat) : State :=
  { s with
    loop := (if (s.sockets i).fd then s.loop.remove (s.sockets i).token else s.loop).cancel
      (s.sockets i).connectTimer
    sockets := Function.update s.sockets i { s.sockets i with
      fd := false
      input := {}
      output := []
      order := []
      retired := []
      sent := 0
      connecting := false } }

/-- The requests assigned to a connection, in the order the map is walked. -/
def failed (s : State) (i : Nat) : List Nat :=
  arrange (s.env.orders.headD [])
    ((s.requests.filter fun p => (s.heap p.2).slot = some i).map Prod.fst)
where
  arrange (choice ids : List Nat) : List Nat :=
    (choice.filter (· ∈ ids)).dedup ++ ids.filter (· ∉ choice)

/-- The loop of `Disconnect`. -/
def failAll (finish : Nat → Outcome → State → State) (i : Nat) (error : Error) (s : State) :
    State :=
  (s.failed i).foldl (fun s id => finish id (.error error) s)
    { s with env.orders := s.env.orders.tail }

/-- `Disconnect`, with the `Finish` it calls. -/
def disconnectWith (finish : Nat → Outcome → State → State) (i : Nat) (error : Error)
    (s : State) : State :=
  failAll finish i error (s.clear i)

def stopIfDrained (s : State) : State :=
  if s.draining = true ∧ s.requests = [] then { s with loop := s.loop.stop } else s

/-- `Finish` from the call of the completion on. -/
def settle (t : AsyncTransport ε) (finish : Nat → Outcome → State → State) (ref : Nat)
    (s : State) : State :=
  stopIfDrained <|
    if (s.invoke t).1 then (s.invoke t).2
    else
      match ((s.invoke t).2.heap ref).slot with
      | some i => disconnectWith finish i ⟨.protocol, "Invalid response payload"⟩ (s.invoke t).2
      | none => (s.invoke t).2

/-- `Finish` and `Disconnect` call each other, but every round takes a request out of the map,
so `requests.size()` rounds are enough. -/
def finishWithin (t : AsyncTransport ε) : Nat → Nat → Outcome → State → State
  | 0, _, _, s => s
  | rounds + 1, id, outcome, s =>
    match s.requests.lookup id with
    | none => s
    | some ref =>
      settle t (finishWithin t rounds) ref ((s.release id ref).record ref outcome)

def finish (t : AsyncTransport ε) (id : Nat) (outcome : Outcome) (s : State) : State :=
  finishWithin t s.requests.length id outcome s

def disconnect (t : AsyncTransport ε) (i : Nat) (error : Error) (s : State) : State :=
  disconnectWith (finishWithin t s.requests.length) i error s

/-- The watch of a new connection. -/
def register (s : State) (i : Nat) (connecting : Bool) : State :=
  { s with
    sockets := Function.update s.sockets i { s.sockets i with
      fd := true
      connecting := connecting
      token := (s.loop.add (i, true)).1 }
    loop := (s.loop.add (i, true)).2 }

/-- The deadline of a connection in progress. -/
def armConnect (s : State) (i : Nat) : State :=
  { s with
    sockets := Function.update s.sockets i { s.sockets i with
      connectTimer := (s.loop.timerAt (.connect i)).1 }
    loop := (s.loop.timerAt (.connect i)).2 }

def opened (s : State) (i : Nat) (connecting : Bool) : State :=
  if connecting then (s.register i true).armConnect i else s.register i false

/-- The descriptor exists, but `connect` has failed. -/
def socketMade (s : State) (i : Nat) : State :=
  s.setSocket i { s.sockets i with fd := true }

def nextConnect (s : State) : State := { s with env.connects := s.env.connects.tail }

def connect (t : AsyncTransport ε) (i : Nat) (s : State) : State :=
  match s.env.connects.headD .inProgress with
  | .noSocket => s.nextConnect.disconnect t i ⟨.connection, "Cannot create connection"⟩
  | .refused => (s.nextConnect.socketMade i).disconnect t i ⟨.connection, "Connection failed"⟩
  | .connected => s.nextConnect.opened i false
  | .inProgress => s.nextConnect.opened i true

def schedule (s : State) (i : Nat) : State :=
  if (s.sockets i).scheduled then s
  else { s.setSocket i { s.sockets i with scheduled := true } with loop := s.loop.post (.pump i) }

def unschedule (s : State) (i : Nat) : State :=
  s.setSocket i { s.sockets i with scheduled := false }

def modify (s : State) (i : Nat) : State :=
  { s with loop := s.loop.modify (s.sockets i).token fun watch =>
      (watch.1, (s.sockets i).output ≠ []) }

/-- A connection in progress is established. -/
def established (s : State) (i : Nat) : State :=
  { s.setSocket i { s.sockets i with connecting := false } with
    loop := s.loop.cancel (s.sockets i).connectTimer }

/-- The first part of `Pump`; says whether it goes on. -/
def check (t : AsyncTransport ε) (i : Nat) (s : State) : Bool × State :=
  if (s.sockets i).connecting then
    match s.env.checks with
    | [] => (false, s)
    | .failed :: rest =>
      (false, disconnect t i ⟨.connection, "Connection failed"⟩ { s with env.checks := rest })
    | .pending :: rest => (false, { s with env.checks := rest })
    | .established :: rest => (true, { s with env.checks := rest }.established i)
  else (true, s)

/-- `send` has accepted `n` octets of the request at the front. -/
def wrote (s : State) (i ref : Nat) (rest : List Nat) (n : Nat) : State :=
  if (s.sockets i).sent + n = (s.heap ref).bytes.length then
    { s with
      sockets := Function.update s.sockets i { s.sockets i with output := rest, sent := 0 }
      heap := Function.update s.heap ref { s.heap ref with sent := true }
      wire := Function.update s.wire (s.sockets i).token
        (s.wire (s.sockets i).token ++ [.sent ref]) }
  else s.setSocket i { s.sockets i with sent := (s.sockets i).sent + n }

def setSends (s : State) (sends : List SendOutcome) : State := { s with env.sends := sends }

def sendLoop (t : AsyncTransport ε) (i : Nat) : List SendOutcome → Nat → State → Nat × State
  | [], budget, s => (budget, s.setSends [])
  | outcome :: outcomes, budget, s =>
    match (s.sockets i).output with
    | [] => (budget, s.setSends (outcome :: outcomes))
    | ref :: rest =>
      if budget = 0 then (budget, s.setSends (outcome :: outcomes))
      else
        match outcome with
        | .wrote n =>
          if min n (min budget (usub (s.heap ref).bytes.length (s.sockets i).sent)) = 0 then
            (budget, (s.setSends outcomes).disconnect t i ⟨.transport, "Send failed"⟩)
          else
            sendLoop t i outcomes
              (budget - min n (min budget (usub (s.heap ref).bytes.length (s.sockets i).sent)))
              (s.wrote i ref rest
                (min n (min budget (usub (s.heap ref).bytes.length (s.sockets i).sent))))
        | .interrupted => sendLoop t i outcomes budget s
        | .wouldBlock => (budget, s.setSends outcomes)
        | .failed => (budget, (s.setSends outcomes).disconnect t i ⟨.transport, "Send failed"⟩)

/-- The identifier of a response. -/
def responseId (t : AsyncTransport ε) (c : Connection) (response : Bytes) : Except ε Nat :=
  match t.ids with
  | some ids => ids response
  | none => .ok (c.order.headD 0)

/-- What has become of a frame is noted. -/
def note (s : State) (i : Nat) (bytes : Bytes) (verdict : Verdict) : State :=
  { s with
    frames := Function.update s.frames (s.sockets i).token
      (s.frames (s.sockets i).token ++ [(bytes, verdict)]) }

def consume (s : State) (i size : Nat) : State :=
  s.setSocket i { s.sockets i with input := (s.sockets i).input.consume size }

/-- The response to a retired request is passed over. -/
def drop (s : State) (i size id : Nat) (response : Bytes) : State :=
  ({ s with sockets := Function.update s.sockets i { s.sockets i with
      input := (s.sockets i).input.consume size
      retired := (s.sockets i).retired.filter (· ≠ id) } } : State).note i response .dropped

/-- The response to an open request is taken. -/
def take (t : AsyncTransport ε) (s : State) (i size ref : Nat) (response : Bytes) : State :=
  ({ s with sockets := Function.update s.sockets i { s.sockets i with
      input := (s.sockets i).input.consume size
      order := if t.ids.isSome then (s.sockets i).order else (s.sockets i).order.tail } } :
    State).note i response (.delivered ref)

/-- The loop over the frames of the input; says whether it has thrown. Every round consumes at
least one octet, so `input.size()` rounds are enough. -/
def frameLoop (t : AsyncTransport ε) (i : Nat) : Nat → State → Bool × State
  | 0, s => (false, s)
  | rounds + 1, s =>
    if (s.sockets i).input.size = 0 then (false, s)
    else
      match t.framing (s.sockets i).input.contents with
      | .error _ => (true, s.note i (s.sockets i).input.contents .invalid)
      | .ok size =>
        if size > t.frameLimit then (true, s.note i (s.sockets i).input.contents .invalid)
        else if size = 0 ∨ size > (s.sockets i).input.size then (false, s)
        else
          match responseId t (s.sockets i) ((s.sockets i).input.copy size) with
          | .error _ =>
            (true, (s.consume i size).note i ((s.sockets i).input.copy size) .invalid)
          | .ok id =>
            if t.ids.isSome ∧ id ∈ (s.sockets i).retired then
              frameLoop t i rounds (s.drop i size id ((s.sockets i).input.copy size))
            else
              match s.requests.lookup id with
              | none => (true, (s.consume i size).note i ((s.sockets i).input.copy size) .unknown)
              | some ref =>
                if (s.heap ref).slot = some i then
                  andThen i ((s.take t i size ref ((s.sockets i).input.copy size)).finish t id
                    (.response ((s.sockets i).input.copy size))) (frameLoop t i rounds)
                else (true, (s.consume i size).note i ((s.sockets i).input.copy size) .unknown)
where
  /-- `return` when the connection is gone. -/
  andThen (i : Nat) (s : State) (f : State → Bool × State) : Bool × State :=
    if (s.sockets i).fd then f s else (false, s)

def received (s : State) (i : Nat) (bytes : Bytes) : State :=
  { s with
    sockets := Function.update s.sockets i { s.sockets i with
      input := (s.sockets i).input.append bytes }
    wire := Function.update s.wire (s.sockets i).token
      (s.wire (s.sockets i).token ++ [.received bytes]) }

def setReceives (s : State) (receives : List ReceiveOutcome) : State :=
  { s with env.receives := receives }

/-- `recv` has returned some octets and the frames in the input are processed. -/
def receive (t : AsyncTransport ε) (i : Nat) (bytes : Bytes) (s : State) : Bool × State :=
  frameLoop t i ((s.received i bytes).sockets i).input.size (s.received i bytes)

def receiveLoop (t : AsyncTransport ε) (i : Nat) :
    List ReceiveOutcome → Nat → State → Nat × State
  | [], budget, s => (budget, s.setReceives [])
  | outcome :: outcomes, budget, s =>
    if budget = 0 then (budget, s.setReceives (outcome :: outcomes))
    else
      match outcome with
      | .data bytes =>
        if bytes.take (min 16384 budget) = [] then
          (budget, (s.setReceives outcomes).disconnect t i ⟨.transport, "Peer disconnected"⟩)
        else if (receive t i (bytes.take (min 16384 budget)) s).1 then
          (budget, ((receive t i (bytes.take (min 16384 budget)) s).2.setReceives
            outcomes).disconnect t i ⟨.protocol, "Invalid response frame"⟩)
        else if ((receive t i (bytes.take (min 16384 budget)) s).2.sockets i).fd then
          receiveLoop t i outcomes (budget - (bytes.take (min 16384 budget)).length)
            (receive t i (bytes.take (min 16384 budget)) s).2
        else (budget, (receive t i (bytes.take (min 16384 budget)) s).2.setReceives outcomes)
      | .interrupted => receiveLoop t i outcomes budget s
      | .wouldBlock => (budget, s.setReceives outcomes)
      | .failed =>
        (budget, (s.setReceives outcomes).disconnect t i ⟨.transport, "Receive failed"⟩)

/-- `return` after `Disconnect`. -/
def andThen (s : State) (i : Nat) (f : State → State) : State :=
  if (s.sockets i).fd then f s else s

def sendPhase (t : AsyncTransport ε) (i : Nat) (s : State) : State :=
  if (sendLoop t i s.env.sends (256 * 1024) s).1 = 0 ∧
      ((sendLoop t i s.env.sends (256 * 1024) s).2.sockets i).output ≠ [] then
    (sendLoop t i s.env.sends (256 * 1024) s).2.schedule i
  else (sendLoop t i s.env.sends (256 * 1024) s).2

def receivePhase (t : AsyncTransport ε) (i : Nat) (s : State) : State :=
  (receiveLoop t i s.env.receives (256 * 1024) s).2.andThen i fun s' =>
    if (receiveLoop t i s.env.receives (256 * 1024) s).1 = 0 then (s'.schedule i).modify i
    else s'.modify i

def pump (t : AsyncTransport ε) (i : Nat) (s : State) : State :=
  s.andThen i fun s =>
    if (check t i s).1 then ((check t i s).2.sendPhase t i).andThen i (receivePhase t i)
    else (check t i s).2

/-- A waiting request is given to a connection. -/
def assign (t : AsyncTransport ε) (s : State) (i ref : Nat) (rest : List Nat) : State :=
  { s with
    waiting := rest
    heap := Function.update s.heap ref { s.heap ref with slot := some i }
    sockets := Function.update s.sockets i { s.sockets i with
      inflight := (s.sockets i).inflight + 1
      output := (s.sockets i).output ++ [ref]
      order := if t.ids.isSome then (s.sockets i).order
        else (s.sockets i).order ++ [(s.heap ref).id] } }

/-- The inner loop of `Dispatch`. Every round takes a request out of `waiting`, so
`waiting.size()` rounds are enough. -/
def dispatchTo (t : AsyncTransport ε) (i : Nat) : Nat → State → State
  | 0, s => s
  | rounds + 1, s =>
    match s.waiting with
    | [] => s
    | ref :: rest =>
      if (s.sockets i).inflight + (s.sockets i).retired.length < t.limit then
        if (s.requests.lookup (s.heap ref).id).isSome then
          if (s.sockets i).fd then
            dispatchTo t i rounds ((s.assign t i ref rest).pump t i)
          else dispatchTo t i rounds (((s.assign t i ref rest).connect t i).pump t i)
        else dispatchTo t i rounds { s with waiting := rest }
      else s

def dispatch (t : AsyncTransport ε) (s : State) : State :=
  (List.range t.connections).foldl (fun s i => dispatchTo t i s.waiting.length s) s

/-- A request that has been sent stays known to its connection. -/
def retire (s : State) (i id : Nat) : State :=
  s.setSocket i { s.sockets i with retired := (s.sockets i).retired.insert id }

/-- The callback of a request's deadline. -/
def deadline (t : AsyncTransport ε) (id : Nat) (s : State) : State :=
  match s.requests.lookup id with
  | none => s
  | some ref =>
    match (s.heap ref).slot with
    | none =>
      (s.finish t id (.error ⟨.timeout, "Request deadline exceeded in queue"⟩)).dispatch t
    | some i =>
      if t.ids.isSome ∧ (s.heap ref).sent = true then
        ((s.retire i id).finish t id (.error ⟨.timeout, "Request deadline exceeded"⟩)).dispatch t
      else (s.disconnect t i ⟨.timeout, "Request deadline exceeded"⟩).dispatch t

def onTimer (t : AsyncTransport ε) (s : State) : Timer → State
  | .deadline id => s.deadline t id
  | .connect i => (s.disconnect t i ⟨.timeout, "Connection deadline exceeded"⟩).dispatch t

def runTask (t : AsyncTransport ε) (s : State) : Task → State
  | .accept ref => (s.enroll ref).dispatch t
  | .pump i => ((s.unschedule i).pump t i).dispatch t
  | .drain => stopIfDrained { s with draining := true }

/-- A call by some thread, a callback of the loop with the answers it gets, or the start of
the destructor. -/
inductive Event where
  | call (c : Call)
  | task (env : Env)
  | ready (token : Nat) (env : Env)
  | timer (id : Nat) (env : Env)
  | destroy

/-- The destructor may not run while a call of `Submit` does. -/
def step (t : AsyncTransport ε) (s : State) : Event → Option State
  | .call c => some (s.call t c)
  | .task env =>
    match s.loop.tasks with
    | [] => none
    | task :: rest => some (({ s with env := env }.setTasks rest).runTask t task)
  | .ready token env =>
    match s.loop.watch token with
    | none => none
    | some watch => some (({ s with env := env }.pump t watch.1).dispatch t)
  | .timer id env =>
    match s.loop.timers.lookup id with
    | none => none
    | some timer => some (onTimer t { s with env := env, loop := s.loop.cancel id } timer)
  | .destroy =>
    if s.closing = false ∧ s.posting = [] then
      some { s with closing := true, loop := s.loop.post .drain }
    else none

/-- A run of the transport from its construction. -/
abbrev Runs (t : AsyncTransport ε) (trace : List (State × Event)) (s : State) : Prop :=
  Run (fun s e s' => step t s e = some s') (fun _ => False) {} trace s

end State
end KVRPC.Client
