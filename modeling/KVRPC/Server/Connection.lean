import KVRPC.Net.Buffer
import KVRPC.Net.Reactor
import KVRPC.Net.Socket
import KVRPC.Server.JobQueue

/-!
# A connection of the server

`TcpServer::Runtime::Io`: the functions that run on an I/O thread for one peer. `Pump` sends
what is queued, receives what fits below the frame limit, cuts frames off the input and
submits them as jobs, and says which events it wants to be woken for. Each of its three
loops stops early on a budget or on back-pressure.

The outcomes of `send` and `recv` are the environment's. A `View` is what such a function can
reach: the peer, its I/O thread, the job queue and the server's counters.
-/
namespace KVRPC.Server

open Library Net

variable {ε : Type}

/-- The events asked for besides `EPOLLRDHUP`. -/
structure Interest where
  input : Bool
  output : Bool
  deriving DecidableEq, Repr

structure Peer where
  token : Nat := 0
  timer : Nat := 0
  input : Buffer := {}
  output : List Bytes := []
  sent : Nat := 0
  outputBytes : Nat := 0
  pending : Nat := 0
  eof : Bool := false
  closed : Bool := false
  scheduled : Bool := false
  incomplete : Bool := false
  deriving DecidableEq

/-- The path on which a connection was closed. -/
inductive CloseReason where
  | socketError
  | sendFailed
  | receiveFailed
  | framing
  | rejected
  | reply
  | timeout
  | endOfStream
  | shutdown
  deriving DecidableEq, Repr

/-- A peer and what has happened on its connection. -/
structure Connection where
  peer : Peer := {}
  /-- What `recv` has returned. -/
  received : Bytes := []
  /-- The inputs passed to `Submit`. -/
  submitted : List Bytes := []
  /-- What `send` has accepted. -/
  delivered : Bytes := []
  /-- The input the handler last reported incomplete. -/
  refused : Option Bytes := none
  closedBy : Option CloseReason := none
  deriving DecidableEq

/-- What the completion of a job has captured; the peer stands for its number. -/
structure Completion where
  conn : Nat
  size : Nat
  framed : Bool
  deriving DecidableEq

/-- The tasks posted to the loop of an I/O thread. -/
inductive Task where
  | attach (c : Nat)
  | pump (c : Nat)
  | reply (job : Job Completion) (reply : Reply)
  | closeAll
  deriving DecidableEq

structure Io where
  loop : Reactor (Nat × Interest) Nat Task := {}
  peers : List (Nat × Nat) := []

structure Stats where
  accepted : Nat := 0
  active : Nat := 0
  rejected : Nat := 0
  requests : Nat := 0
  timeouts : Nat := 0
  deriving DecidableEq

/-- The outcomes of the calls on one socket, in order. -/
structure Socket where
  sends : List SendOutcome := []
  receives : List ReceiveOutcome := []
  deriving DecidableEq

structure View where
  conn : Connection
  io : Io
  queue : JobQueue Completion
  stats : Stats

/-- How many jobs of one connection may be pending. -/
def TcpServer.limit (t : TcpServer ε) : Nat :=
  if t.batchHandler ∨ t.sizer = none then 1 else t.options.pipeline

theorem TcpServer.limit_pos (t : TcpServer ε) : 0 < t.limit := by
  have := t.configured
  unfold ServerOptions.Invalid at this
  unfold TcpServer.limit
  split <;> omega

namespace View

/-- Back-pressure allows more input. -/
def ready (t : TcpServer ε) (v : View) : Bool :=
  v.conn.peer.pending < t.limit && v.conn.peer.outputBytes < t.options.outputBytes / 2

def close (v : View) (reason : CloseReason) : View :=
  if v.conn.peer.closed then v
  else { v with
    conn.peer.closed := true
    conn.closedBy := some reason
    io.loop := (v.io.loop.cancel v.conn.peer.timer).remove v.conn.peer.token
    io.peers := v.io.peers.filter fun entry => entry.1 ≠ v.conn.peer.token
    stats.active := usub v.stats.active 1 }

def deadline (c : Nat) (v : View) : View :=
  let armed := (v.io.loop.cancel v.conn.peer.timer).timerAt c
  { v with conn.peer.timer := armed.1, io.loop := armed.2 }

def schedule (c : Nat) (v : View) : View :=
  if v.conn.peer.scheduled ∨ v.conn.peer.closed then v
  else { v with conn.peer.scheduled := true, io.loop := v.io.loop.post (.pump c) }

def modify (v : View) (interest : Interest) : View :=
  { v with io.loop := v.io.loop.modify v.conn.peer.token fun watch => (watch.1, interest) }

def attach (c : Nat) (v : View) : View :=
  let added := v.io.loop.add (c, ⟨true, false⟩)
  ({ v with
    conn.peer.token := added.1
    io.loop := added.2
    io.peers := v.io.peers ++ [(added.1, c)] } : View).deadline c

/-- The cursor moves `n` octets on in the reply at the front. -/
def advance (v : View) (bytes : Bytes) (n : Nat) : View :=
  { v with
    conn.peer.sent := v.conn.peer.sent + n
    conn.peer.outputBytes := usub v.conn.peer.outputBytes n
    conn.delivered := v.conn.delivered ++ (bytes.drop v.conn.peer.sent).take n }

/-- The reply at the front has been sent. -/
def popFront (c : Nat) (v : View) (rest : List Bytes) : View :=
  ({ v with conn.peer.output := rest, conn.peer.sent := 0 } : View).deadline c

/-- `send` has accepted `n` octets of the reply at the front. -/
def wrote (c : Nat) (v : View) (bytes : Bytes) (rest : List Bytes) (n : Nat) : View :=
  if v.conn.peer.sent + n = bytes.length then (v.advance bytes n).popFront c rest
  else v.advance bytes n

def sendLoop (c : Nat) : List SendOutcome → Nat → View → Nat × View
  | [], budget, v => (budget, v)
  | outcome :: outcomes, budget, v =>
    match v.conn.peer.output with
    | [] => (budget, v)
    | bytes :: rest =>
      if budget = 0 then (budget, v)
      else
        match outcome with
        | .wrote n =>
          let n := min n (min budget (usub bytes.length v.conn.peer.sent))
          if n = 0 then (budget, v.close .sendFailed)
          else sendLoop c outcomes (budget - n) (v.wrote c bytes rest n)
        | .interrupted => sendLoop c outcomes budget v
        | .wouldBlock => (budget, v)
        | .failed => (budget, v.close .sendFailed)

/-- `recv` has returned some octets. -/
def received (v : View) (bytes : Bytes) : View :=
  { v with
    conn.peer.input := v.conn.peer.input.append bytes
    conn.peer.incomplete := false
    conn.received := v.conn.received ++ bytes }

def receiveLoop (t : TcpServer ε) (canRead : Bool) :
    List ReceiveOutcome → Nat → View → Nat × View
  | [], budget, v => (budget, v)
  | outcome :: outcomes, budget, v =>
    if v.conn.peer.eof = false ∧ canRead ∧ v.conn.peer.input.size < t.maxFrameBytes ∧
        budget ≠ 0 then
      match outcome with
      | .data bytes =>
        let room := min (min 16384 budget) (usub t.maxFrameBytes v.conn.peer.input.size)
        let bytes := bytes.take room
        if bytes = [] then (budget, { v with conn.peer.eof := true })
        else receiveLoop t canRead outcomes (budget - bytes.length) (v.received bytes)
      | .interrupted => receiveLoop t canRead outcomes budget v
      | .wouldBlock => (budget, v)
      | .failed => (budget, v.close .receiveFailed)
    else (budget, v)

/-- The size of the job at the front of the input, or `none` if the sizer throws or the
frame is over the limit. -/
def frameSize (t : TcpServer ε) (v : View) : Option Nat :=
  let input := v.conn.peer.input
  let size := match t.sizer with
    | none => some input.size
    | some sizer => (sizer input.contents).toOption
  size.filter (· ≤ t.maxFrameBytes)

/-- The peer's side of handing the first `size` octets to `Submit`. -/
def offer (t : TcpServer ε) (v : View) (size : Nat) : View :=
  let p := v.conn.peer
  { v with
    conn.peer.input := if t.sizer.isSome then p.input.consume size else p.input
    conn.peer.pending := p.pending + 1
    conn.submitted := v.conn.submitted ++ [p.input.copy size] }

/-- `more` says how many frames may still be taken; the count of `frames++` comes back. -/
def frameLoop (t : TcpServer ε) (c : Nat) (more : Nat) (v : View) : Nat × View :=
  let p := v.conn.peer
  if p.input.size ≠ 0 ∧ p.incomplete = false ∧ v.ready t then
    match more with
    | 0 => (33, v)
    | more + 1 =>
      match v.frameSize t with
      | none => (32 - more, v.close .framing)
      | some size =>
        if size = 0 ∨ size > p.input.size then (32 - more, v)
        else
          let submitted := v.queue.submit t (p.input.copy size) ⟨c, size, t.sizer.isSome⟩
          let v : View := { v.offer t size with queue := submitted.2 }
          if submitted.1 then frameLoop t c more v
          else
            (32 - more, ({ v with stats.rejected := v.stats.rejected + 1 } : View).close .rejected)
  else (32 - more, v)

/-- `return` after `Close`. -/
def andThen (v : View) (f : View → View) : View := if v.conn.peer.closed then v else f v

def sendPhase (c : Nat) (socket : Socket) (v : View) : View :=
  let r := sendLoop c socket.sends (256 * 1024) v
  if r.1 = 0 ∧ r.2.conn.peer.output ≠ [] then r.2.schedule c else r.2

def receivePhase (t : TcpServer ε) (c : Nat) (socket : Socket) (v : View) : View :=
  let r := receiveLoop t (v.ready t) socket.receives (256 * 1024) v
  if r.1 = 0 then r.2.schedule c else r.2

def framePhase (t : TcpServer ε) (c : Nat) (v : View) : View :=
  let r := frameLoop t c 32 v
  if r.1 ≥ 32 ∧ r.2.conn.peer.pending < t.limit then r.2.schedule c else r.2

def finishPhase (t : TcpServer ε) (v : View) : View :=
  let p := v.conn.peer
  if p.eof ∧ p.pending = 0 ∧ p.output = [] then v.close .endOfStream
  else v.modify ⟨!p.eof && v.ready t, p.output ≠ []⟩

def pump (t : TcpServer ε) (c : Nat) (socket : Socket) (v : View) : View :=
  v.andThen fun v => (v.sendPhase c socket).andThen fun v =>
    (v.receivePhase t c socket).andThen fun v =>
      (v.framePhase t c).andThen fun v => v.finishPhase t

/-- The condition under which a completion closes the connection. -/
def Unacceptable (t : TcpServer ε) (v : View) (completion : Completion) (reply : Reply) : Prop :=
  reply.close = true ∨ reply.consumed > completion.size ∨
    (completion.framed = true ∧ reply.consumed ≠ completion.size) ∨
    reply.bytes.length > t.maxFrameBytes ∨
    reply.bytes.length > usub t.options.outputBytes v.conn.peer.outputBytes ∨
    (reply.consumed = 0 ∧ (reply.bytes ≠ [] ∨ completion.size = t.maxFrameBytes))

instance (t : TcpServer ε) (v : View) (completion : Completion) (reply : Reply) :
    Decidable (v.Unacceptable t completion reply) := by
  unfold Unacceptable; infer_instance

/-- An acceptable reply takes its input off the buffer, unless the sizer did, and joins the
output. -/
def absorb (v : View) (job : Job Completion) (reply : Reply) : View :=
  let p := v.conn.peer
  { v with
    conn.peer.input := if job.complete.framed then p.input else p.input.consume reply.consumed
    conn.peer.incomplete := if job.complete.framed then p.incomplete else reply.consumed = 0
    conn.refused := if ¬ job.complete.framed ∧ reply.consumed = 0 then some job.input
      else v.conn.refused
    conn.peer.outputBytes := p.outputBytes + reply.bytes.length
    conn.peer.output := if reply.bytes = [] then p.output else p.output ++ [reply.bytes]
    stats.requests := v.stats.requests + if reply.consumed = 0 then 0 else 1 }

/-- A job of the peer is no longer pending. -/
def retract (v : View) : View :=
  { v with conn.peer.pending := usub v.conn.peer.pending 1 }

/-- The task a completion posts. -/
def complete (t : TcpServer ε) (c : Nat) (job : Job Completion) (reply : Reply)
    (socket : Socket) (v : View) : View :=
  v.andThen fun v =>
    if v.retract.Unacceptable t job.complete reply then v.retract.close .reply
    else (v.retract.absorb job reply).pump t c socket

def unschedule (v : View) : View := { v with conn.peer.scheduled := false }

/-- The task `Schedule` posts. -/
def resume (t : TcpServer ε) (c : Nat) (socket : Socket) (v : View) : View :=
  v.unschedule.pump t c socket

/-- The callback of the peer's watch. -/
def onReady (t : TcpServer ε) (c : Nat) (error : Bool) (socket : Socket) (v : View) : View :=
  if error then v.close .socketError else v.pump t c socket

/-- The callback of the idle timer. -/
def onTimeout (v : View) : View :=
  ({ v with stats.timeouts := v.stats.timeouts + 1 } : View).close .timeout

end View
end KVRPC.Server
