import KVRPC.Server.Steps

/-!
# The running server

`TcpServer::Runtime`: any number of connections spread over the I/O threads, the job queue
with its workers, the acceptor and the shutdown. One event is one callback of one loop, one
step of one worker or one step of the thread in `Run`; events interleave in any order.

Connections are numbered in the order they are accepted, and connection `c` lives on I/O
thread `c % io_threads`.
-/
namespace KVRPC.Server

open Library Net

variable {ε : Type}

structure State where
  conns : Nat → Connection := fun _ => {}
  ios : Nat → Io := fun _ => {}
  queue : JobQueue Completion
  stats : Stats := {}
  /-- The workers have been joined and the loops told to close their peers. -/
  joined : Bool := false
  /-- The jobs the handler has been called with, and the replies, in order. -/
  handled : List (Job Completion × Reply) := []

inductive Event where
  | accept
  | task (i : Nat) (socket : Socket)
  | ready (i token : Nat) (error : Bool) (socket : Socket)
  | timer (i id : Nat)
  | take (worker : Nat)
  | handle (worker : Nat) (h : Handled)
  | complete (worker : Nat)
  | closing
  | join

/-- The I/O thread of a connection. -/
def TcpServer.home (t : TcpServer ε) (c : Nat) : Nat := c % t.options.ioThreads

namespace State

def initial (t : TcpServer ε) : State := { queue := .initial t }

def view (t : TcpServer ε) (s : State) (c : Nat) : View :=
  ⟨s.conns c, s.ios (t.home c), s.queue, s.stats⟩

def put (t : TcpServer ε) (s : State) (c : Nat) (v : View) : State :=
  { s with
    conns := Function.update s.conns c v.conn
    ios := Function.update s.ios (t.home c) v.io
    queue := v.queue
    stats := v.stats }

def on (t : TcpServer ε) (s : State) (c : Nat) (f : View → View) : State :=
  s.put t c (f (s.view t c))

def setIo (s : State) (i : Nat) (io : Io) : State :=
  { s with ios := Function.update s.ios i io }

def setTasks (s : State) (i : Nat) (tasks : List Task) : State :=
  s.setIo i { s.ios i with loop.tasks := tasks }

def post (s : State) (i : Nat) (task : Task) : State :=
  s.setIo i { s.ios i with loop := (s.ios i).loop.post task }

/-- An accepted descriptor is counted and handed to its I/O thread, unless there are too many. -/
def accept (t : TcpServer ε) (s : State) : State :=
  if s.stats.active ≥ t.maxConnections then
    { s with stats.rejected := s.stats.rejected + 1 }
  else
    ({ s with
      stats.active := s.stats.active + 1
      stats.accepted := s.stats.accepted + 1 } : State).post (t.home s.stats.accepted)
      (.attach s.stats.accepted)

/-- Closes the peers of an I/O thread one after another and stops its loop. -/
def closeAll (t : TcpServer ε) (s : State) (i : Nat) : State :=
  let s := ((s.ios i).peers.map Prod.snd).foldl
    (fun s c => s.on t c fun v => v.close .shutdown) s
  s.setIo i { s.ios i with loop := (s.ios i).loop.stop }

/-- Runs a task that has been taken off the queue of loop `i`. -/
def runTask (t : TcpServer ε) (s : State) (i : Nat) (socket : Socket) : Task → State
  | .attach c => s.on t c (View.attach c)
  | .pump c => s.on t c (View.resume t c socket)
  | .reply job reply =>
    s.on t job.complete.conn (View.complete t job.complete.conn job reply socket)
  | .closeAll => s.closeAll t i

def step (t : TcpServer ε) (s : State) : Event → Option State
  | .accept => if s.queue.closing then none else some (s.accept t)
  | .task i socket =>
    match (s.ios i).loop.tasks with
    | [] => none
    | task :: rest => some ((s.setTasks i rest).runTask t i socket task)
  | .ready i token error socket =>
    match (s.ios i).loop.watch token with
    | none => none
    | some watch => some (s.on t watch.1 (View.onReady t watch.1 error socket))
  | .timer i id =>
    match (s.ios i).loop.timers.lookup id with
    | none => none
    | some c =>
      some ((s.setIo i { s.ios i with loop := (s.ios i).loop.cancel id }).on t c View.onTimeout)
  | .take worker => (s.queue.take t worker).map fun queue => { s with queue := queue }
  | .handle worker h =>
    (s.queue.handle t worker h).map fun queue => { s with
      queue := queue
      handled := s.handled ++ (queue.workers[worker]?.map Worker.computed).getD [] }
  | .complete worker =>
    match s.queue.complete worker with
    | none => none
    | some (job, reply, queue) =>
      some (({ s with queue := queue } : State).post (t.home job.complete.conn) (.reply job reply))
  | .closing => some { s with queue := s.queue.close }
  | .join =>
    if s.joined = false ∧ ∀ worker ∈ s.queue.workers, worker = .exited then
      some { s with
        joined := true
        ios := fun i =>
          if i < t.options.ioThreads then
            { s.ios i with loop := (s.ios i).loop.post .closeAll }
          else s.ios i }
    else none

/-- A run of the server from its start. -/
abbrev Runs (t : TcpServer ε) (trace : List (State × Event)) (s : State) : Prop :=
  Run (fun s e s' => step t s e = some s') (fun _ => False) (initial t) trace s

variable {t : TcpServer ε} {s : State} {c : Nat} {v w : View}

@[simp] theorem view_conn : (s.view t c).conn = s.conns c := rfl

@[simp] theorem view_queue : (s.view t c).queue = s.queue := rfl

@[simp] theorem view_put : (s.put t c v).view t c = v := by
  simp [view, put]

@[simp] theorem put_put : (s.put t c v).put t c w = s.put t c w := by
  simp [put]

@[simp] theorem put_view : s.put t c (s.view t c) = s := by
  simp [put, view]

theorem conns_put (d : Nat) : (s.put t c v).conns d = if d = c then v.conn else s.conns d := by
  simp [put, Function.update_apply]

theorem on_on (f g : View → View) : (s.on t c f).on t c g = s.on t c fun v => g (f v) := by
  simp [on]

theorem on_congr {f g : View → View} (h : f (s.view t c) = g (s.view t c)) :
    s.on t c f = s.on t c g := by
  rw [on, on, h]

end State
end KVRPC.Server
