import KVRPC.Protocol.RpcFrame

/-!
# Server options

The limits of a `TcpServer` and the checks its constructor and `configure` make.
-/
namespace KVRPC.Server

open Library Library.Framing

structure ServerOptions where
  ioThreads : Nat := 2
  workers : Nat := 4
  queueCapacity : Nat := 1024
  queueBytes : Nat := 64 * 1024 * 1024
  outputBytes : Nat := 8 * 1024 * 1024
  pipeline : Nat := 16
  idleTimeout : Int := 30000

/-- The condition under which `configure` throws. -/
def ServerOptions.Invalid (o : ServerOptions) (maxFrameBytes : Nat) : Prop :=
  o.ioThreads = 0 ∨ o.ioThreads > 256 ∨ o.workers = 0 ∨ o.workers > 256 ∨ o.queueCapacity = 0 ∨
    o.queueBytes = 0 ∨ o.outputBytes < maxFrameBytes ∨ o.pipeline = 0 ∨ o.idleTimeout ≤ 0

instance (o : ServerOptions) (maxFrameBytes : Nat) : Decidable (o.Invalid maxFrameBytes) := by
  unfold ServerOptions.Invalid; infer_instance

def configure (maxFrameBytes : Nat) (options : ServerOptions) : Except Exception ServerOptions :=
  if options.Invalid maxFrameBytes then
    .error (invalidArgument "Invalid server resource options")
  else .ok options

/-- The options a server starts with. -/
def ServerOptions.initial (maxFrameBytes : Nat) : ServerOptions :=
  let options : ServerOptions := {}
  { options with outputBytes := max options.outputBytes (maxFrameBytes * 2) }

/-- What a running server knows of its `TcpServer`: the limits, whether `batch_handler_` is
set rather than `handler_`, and the frame sizer if there is one. -/
structure TcpServer (ε : Type) where
  maxConnections : Nat
  maxFrameBytes : Nat
  options : ServerOptions
  batchHandler : Bool
  sizer : Option (Sizer ε)
  maxConnections_pos : 0 < maxConnections
  maxFrameBytes_pos : 0 < maxFrameBytes
  maxFrameBytes_le : maxFrameBytes ≤ 64 * 1024 * 1024 + 16
  configured : ¬ options.Invalid maxFrameBytes

/-- How many threads run `Work`. -/
def TcpServer.threads {ε : Type} (t : TcpServer ε) : Nat :=
  if t.batchHandler then 1 else t.options.workers

theorem TcpServer.threads_pos {ε : Type} (t : TcpServer ε) : 0 < t.threads := by
  have := t.configured
  unfold ServerOptions.Invalid at this
  unfold TcpServer.threads
  split <;> omega

/-- A server passes its own check before it is configured. -/
theorem ServerOptions.initial_valid {maxFrameBytes : Nat} :
    ¬ (ServerOptions.initial maxFrameBytes).Invalid maxFrameBytes := by
  simp [Invalid, initial]
  omega

/-- The server `main.cpp` starts when no environment variable is set, with the batch handler
of group commit or the handler that answers one request at a time. -/
def kvServer (group : Bool) : TcpServer Exception where
  maxConnections := 4096
  maxFrameBytes := maxFrameSize
  options := { workers := 1, pipeline := 1 }
  batchHandler := group
  sizer := some kvFrameSize
  maxConnections_pos := by decide
  maxFrameBytes_pos := by decide
  maxFrameBytes_le := by decide
  configured := by decide

end KVRPC.Server
