import KVRPC.Library.Simulation
import KVRPC.Server.Order
import KVRPC.Server.Serial
import KVRPC.Service.Handle
import KVRPC.Service.Restarts

/-!
# The key-value server

`main.cpp` puts a `CacheService` behind a `TcpServer`: one worker, one job per connection at
a time, frames cut by the header of the protocol. A machine runs that process or holds only
its log. The handler is the service itself, so what a worker's call returns is decided by the
service's state and the file system.
-/
/-- The reply as the transport takes it. -/
def KVRPC.Service.Reply.transport (reply : KVRPC.Service.Reply) : KVRPC.Server.Reply :=
  ⟨reply.consumed, reply.bytes, reply.close⟩

namespace KVRPC.System

open Library Service Server

/-- What `main.cpp` builds from its arguments and the environment. -/
structure KvServer where
  codec : Codec
  config : Config
  server : TcpServer Exception
  sizer_eq : server.sizer = some kvFrameSize
  workers_eq : server.options.workers = 1
  pipeline_eq : server.options.pipeline = 1

theorem KvServer.limit_eq (k : KvServer) : k.server.limit = 1 := by
  unfold TcpServer.limit
  rw [k.pipeline_eq, ite_self]

theorem KvServer.threads_eq (k : KvServer) : k.server.threads = 1 := by
  unfold TcpServer.threads
  rw [k.workers_eq, ite_self]

/-- The handler `main.cpp` installs: `HandleBatch` for group commit, `Handle` otherwise. -/
def KvServer.invoke (k : KvServer) (env : Env) (inputs : List Bytes) : ServiceM Handled :=
  if k.server.batchHandler then
    (handleBatch k.codec env inputs).map fun replies => .batch (replies.map Service.Reply.transport)
  else (Service.handle k.codec env (inputs.headD [])).map fun r => .single r.1 r.2

/-- `Work` catches whatever the handler throws. -/
def caught : Res Exception Handled → Option Handled
  | .ok h => some h
  | .throw _ => some .threw
  | .crash => none

/-- A call of the handler that returned or threw; no code reads it. -/
structure Call where
  service : CacheService
  env : Env
  batch : List (Job Completion)
  result : Res Exception (List Service.Reply)

structure Process where
  server : Server.State
  service : CacheService
  /-- The calls of the handler since the process was started. -/
  calls : List Call := []

inductive Machine where
  | down (fs : Fs)
  | up (p : Process)

inductive Event where
  | start (clock : Nat → Millis) (o : Oracle)
  | serve (e : Server.Event)
  /-- The worker calls the handler. -/
  | handle (worker : Nat) (env : Env) (o : Oracle)
  /-- The process ends, by a signal or by itself, outside of the handler. -/
  | stop

namespace Process

def call (k : KvServer) (p : Process) (env : Env) (o : Oracle) (batch : List (Job Completion)) :
    Call :=
  ⟨p.service, env, batch, (handleBatch k.codec env (batch.map Job.input) o p.service).1⟩

def handle (k : KvServer) (p : Process) (worker : Nat) (env : Env) (o : Oracle) :
    Option Machine :=
  match p.server.queue.workers[worker]? with
  | some (.running batch) =>
    let out := k.invoke env (batch.map Job.input) o p.service
    match caught out.1 with
    | none => some (.down out.2.2.aof.fs)
    | some h =>
      (p.server.step k.server (.handle worker h)).map fun server =>
        .up ⟨server, out.2.2, p.calls ++ [p.call k env o batch]⟩
  | _ => none

def serve (k : KvServer) (p : Process) : Server.Event → Option Machine
  | .handle _ _ => none
  | e => (p.server.step k.server e).map fun server => .up { p with server := server }

end Process

namespace Machine

def step (k : KvServer) : Machine → Event → Option Machine
  | .down fs, .start clock o =>
    match create k.codec k.config clock fs [] o with
    | (.ok service, _, _) => some (.up { server := .initial k.server, service := service })
    | (_, _, fs) => some (.down fs)
  | .up p, .serve e => p.serve k e
  | .up p, .handle worker env o => p.handle k worker env o
  | .up p, .stop => some (.down p.service.aof.fs)
  | _, _ => none

/-- A run of the machine on a file system. -/
abbrev Runs (k : KvServer) (fs : Fs) (trace : List (Machine × Event)) (m : Machine) : Prop :=
  Run (fun m e m' => step k m e = some m') (fun _ => False) (.down fs) trace m

end Machine

/-! ## Calls of the handler -/

/-- The replies of the service as the jobs of the call get them. -/
def Call.pairs (call : Call) : List (Job Completion × Server.Reply) :=
  match call.result with
  | .ok replies => call.batch.zip (replies.map Service.Reply.transport)
  | _ => call.batch.map fun job => (job, closeReply)

def Call.action (call : Call) : Action :=
  .batch call.env (call.batch.map Job.input) call.result

def Call.incident (call : Call) : Host × Incident := (.up call.service, .call call.action)

variable {k : KvServer} {p : Process} {m : Machine} {env : Env} {o : Oracle} {worker : Nat}
  {batch : List (Job Completion)}

/-- The pairs a worker is left with after the handler's call. -/
theorem handle_pairs {ε : Type} {t : TcpServer ε} {q q' : JobQueue Completion} {h : Handled}
    (busy : q.workers[worker]? = some (.running batch)) (called : q.handle t worker h = some q') :
    (q'.workers[worker]?.map Worker.computed).getD [] =
      match h.replies batch.length with
      | some replies => batch.zip replies
      | none => batch.map fun job => (job, closeReply) := by
  have inside := (List.getElem?_eq_some_iff.mp busy).1
  unfold JobQueue.handle at called
  rw [busy] at called
  dsimp only at called
  split_ifs at called
  split at called
  all_goals
    cases called
    simp [JobQueue.setWorker, Worker.computed, *]

/-- The pairs of a call that was answered with `h`. -/
def Answers (h : Handled) (call : Call) : Prop :=
  call.pairs = match h.replies call.batch.length with
    | some replies => call.batch.zip replies
    | none => call.batch.map fun job => (job, closeReply)

theorem invoke_batch (group : k.server.batchHandler = true) :
    (k.invoke env (batch.map Job.input) o p.service).2.2 =
        (handleBatch k.codec env (batch.map Job.input) o p.service).2.2 ∧
      match caught (k.invoke env (batch.map Job.input) o p.service).1 with
      | some h => Answers h (p.call k env o batch) ∧ (p.call k env o batch).result ≠ .crash
      | none => (p.call k env o batch).result = .crash := by
  have length := @handleBatch_replies k.codec env (batch.map Job.input) o p.service
  unfold KvServer.invoke
  rw [if_pos group]
  simp only [Sys.map, Answers, Call.pairs, Process.call]
  generalize handleBatch k.codec env (batch.map Job.input) o p.service = stop at length ⊢
  obtain ⟨replies | e | _, o', s'⟩ := stop
  · have length := (length rfl).1
    rw [List.length_map] at length
    simp [Res.map, caught, Handled.replies, length]
  · simp [Res.map, caught, Handled.replies]
  · simp [Res.map, caught]

/-- A reply that closes is turned into an exception, which closes. -/
theorem invoke_single {job : Job Completion} (alone : k.server.batchHandler = false) :
    (k.invoke env [job.input] o p.service).2.2 =
        (handleBatch k.codec env [job.input] o p.service).2.2 ∧
      match caught (k.invoke env [job.input] o p.service).1 with
      | some h => Answers h (p.call k env o [job]) ∧ (p.call k env o [job]).result ≠ .crash
      | none => (p.call k env o [job]).result = .crash := by
  have length := @handleBatch_replies k.codec env [job.input] o p.service
  obtain ⟨state, result⟩ := @handle_eq k.codec env o p.service job.input
  unfold KvServer.invoke
  rw [if_neg (by simp [alone])]
  simp only [Sys.map, Answers, Call.pairs, Process.call, List.headD_cons, state, result,
    List.map_cons, List.map_nil]
  generalize handleBatch k.codec env [job.input] o p.service = stop at length ⊢
  obtain ⟨replies | e | _, o', s'⟩ := stop
  · obtain ⟨one, closes⟩ := length rfl
    obtain ⟨reply, rfl⟩ := List.length_eq_one_iff.mp one
    by_cases closed : reply.close = true
    · have plain := closes reply (by simp) closed
      subst plain
      simp [Res.map, caught, Handled.replies, Service.Reply.transport, closeReply]
    · simp only [Bool.not_eq_true] at closed
      simp [Res.map, caught, Handled.replies, Service.Reply.transport, closed]
  · simp [Res.map, caught, Handled.replies]
  · simp [Res.map, caught]

/-- Installed as either handler, the service answers the jobs with the replies of
`HandleBatch`. -/
theorem invoke_cases (single : k.server.batchHandler = false → batch.length = 1) :
    (k.invoke env (batch.map Job.input) o p.service).2.2 =
        (handleBatch k.codec env (batch.map Job.input) o p.service).2.2 ∧
      match caught (k.invoke env (batch.map Job.input) o p.service).1 with
      | some h => Answers h (p.call k env o batch) ∧ (p.call k env o batch).result ≠ .crash
      | none => (p.call k env o batch).result = .crash := by
  cases mode : k.server.batchHandler with
  | true => exact invoke_batch mode
  | false =>
    obtain ⟨job, rfl⟩ := List.length_eq_one_iff.mp (single mode)
    exact invoke_single mode

end KVRPC.System
