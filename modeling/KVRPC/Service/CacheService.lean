import KVRPC.Aof.Format
import KVRPC.Protocol.CacheValue
import KVRPC.Storage.ShardedCache

/-!
# The cache service

`CacheService` of `cache_service.h`: requests are decoded, their mutations logged as one
batch, and only then applied to the cache and answered. Programs run over the object;
the mutex makes calls atomic.

Everything a call takes from outside is in an `Env`: one reading of the wall clock for
each place that may ask for it, the time spent in `fsync`, and the counters of the
transport for the text that `main.cpp` adds to `STATS` replies.
-/
namespace KVRPC.Service

open Library Aof Storage

/-- A reading of `UnixMilliseconds`: the system clock counts nanoseconds since 1970 in a
signed 64-bit number. -/
structure Millis where
  value : UInt64
  value_le : value.toNat ≤ 9223372036854

/-- The counters of `TcpServer::stats`. -/
structure TransportStats where
  active : Nat
  rejected : Nat
  queuedTasks : Nat
  queuedBytes : Nat
  timeouts : Nat
  handlerUs : Nat
  handlerErrors : Nat

structure Env where
  decodeClock : Nat → Millis
  applyClock : Nat → Millis
  snapshotClock : Nat → Nat → Millis
  syncUs : Nat
  /-- What the callback `metrics_` reads, if it is set. -/
  metrics : Option TransportStats

/-- The arguments of the constructor and the hash function. -/
structure Config where
  capacity : Nat
  shards : Nat
  path : String
  maxAofBytes : Nat
  maxCacheBytes : Nat
  hash : Bytes → Nat

abbrev Cache := ShardedCache Bytes Bytes

structure CacheService where
  cache : Cache
  aof : AofLogger
  failed : Bool := false

abbrev ServiceM := Sys Exception CacheService

structure Request where
  command : Command := .get
  key : Bytes := []
  value : Bytes := []
  expires : UInt64 := 0
  deriving DecidableEq, Repr

structure Reply where
  consumed : Nat := 0
  bytes : Bytes := []
  close : Bool := false
  deriving DecidableEq, Repr

variable (codec : Codec)

/-! ## Decoding -/

def maxTtlMs : UInt64 := 315360000000

/-- The part of the decoding loop for `SET_TTL`: the log gets the absolute expiry. -/
def decodeSetTtl (cache : Cache) (now : Millis) (request : Request) :
    Except Exception (Request × Mutation) :=
  match codec.parse request.value with
  | none => .error (runtimeError "Invalid TTL request")
  | some item =>
    if item.ttlMs = 0 ∨ item.ttlMs > maxTtlMs then .error (runtimeError "Invalid TTL request")
    else
      let request := { request with value := item.value, expires := now.value + item.ttlMs }
      let item := { item with ttlMs := 0, expiresUnixMs := request.expires }
      if request.value.length > maxValueSize ∨ ¬ cache.CanStore request.key request.value then
        .error (runtimeError "Entry exceeds byte limit")
      else .ok (request, ⟨.setTtl, request.key, codec.serialize item⟩)

/-- The rest of the body for a complete frame: the request and the mutation to log. -/
def decodeBody (cache : Cache) (now : Millis) (request : Request) :
    Except Exception (Request × Option Mutation) :=
  match request.command with
  | .setTtl => do
    let (request, m) ← decodeSetTtl codec cache now request
    return (request, some m)
  | .set =>
    if request.value.length > maxValueSize ∨ ¬ cache.CanStore request.key request.value then
      .error (runtimeError "Entry exceeds byte limit")
    else .ok (request, some ⟨.set, request.key, request.value⟩)
  | .del => .ok (request, some ⟨.del, request.key, request.value⟩)
  | _ => .ok (request, none)

/-- What the decoding loop leaves behind for one input. -/
structure Decoded where
  request : Request := {}
  reply : Reply := {}
  mutation : Option Mutation := none
  deriving DecidableEq, Repr

/-- The body of the `try` block of the decoding loop. -/
def decodeFrame (cache : Cache) (now : Millis) (data : Bytes) : Except Exception Decoded :=
  if data.length < headerSize then .ok {}
  else do
    let h := Message.decodeHeader data
    Message.validate h
    let command := Command.ofByte h.command
    if (command ≠ .set ∧ command ≠ .setTtl ∧ h.valueLen ≠ 0) ∨
        (command = .stats ∧ h.keyLen ≠ 0) then
      .error (runtimeError "Invalid request body for command")
    else
      let total := headerSize + h.keyLen + h.valueLen
      if data.length < total then .ok {}
      else do
        let (request, mutation) ← decodeBody codec cache now {
          command := command
          key := (data.drop headerSize).take h.keyLen
          value := (data.drop (headerSize + h.keyLen)).take h.valueLen }
        return { request := request, reply := { consumed := total }, mutation := mutation }

/-- One round of the decoding loop; the handler closes the connection. -/
def decodeInput (cache : Cache) (now : Millis) (data : Bytes) : Except Exception Decoded :=
  match decodeFrame codec cache now data with
  | .ok d => .ok d
  | .error e => if e.isRuntimeError then .ok { reply := { close := true } } else .error e

/-- The decoding loop from input number `i` on. -/
def decodeAll (cache : Cache) (clock : Nat → Millis) :
    Nat → List Bytes → Except Exception (List Decoded)
  | _, [] => .ok []
  | i, data :: inputs => do
    let d ← decodeInput codec cache (clock i) data
    let ds ← decodeAll cache clock (i + 1) inputs
    return d :: ds

def mutations (ds : List Decoded) : List Mutation := ds.filterMap Decoded.mutation

/-! ## Applying -/

/-- ASCII text. -/
def text (s : String) : Bytes := s.toList.map fun c => UInt8.ofNat c.toNat

/-- `std::to_string` of a 64-bit counter. -/
def decimal (n : Nat) : Bytes := (Nat.toDigits 10 (n % 2 ^ 64)).map fun c => UInt8.ofNat c.toNat

def statsText (stats : Stats) (disk : AofStats) : Bytes :=
  text "Hits: " ++ decimal stats.hits ++ text ", Misses: " ++ decimal stats.misses ++
    text ", AOF records: " ++ decimal disk.records ++ text ", AOF syncs: " ++ decimal disk.syncs ++
    text ", AOF bytes: " ++ decimal disk.bytes ++ text ", Cache bytes: " ++ decimal stats.bytes ++
    text ", Evictions: " ++ decimal stats.evictions ++
    text ", AOF rewrites: " ++ decimal disk.rewrites ++
    text ", AOF sync us: " ++ decimal disk.syncUs

/-- The callback of `main.cpp`. -/
def metricsText (s : TransportStats) : Bytes :=
  text ", Active connections: " ++ decimal s.active ++ text ", Rejected: " ++ decimal s.rejected ++
    text ", Queued tasks: " ++ decimal s.queuedTasks ++
    text ", Queued bytes: " ++ decimal s.queuedBytes ++
    text ", Timeouts: " ++ decimal s.timeouts ++ text ", Handler us: " ++ decimal s.handlerUs ++
    text ", Handler errors: " ++ decimal s.handlerErrors

def lookupValue (value : Option Bytes) : codec.Value :=
  { found := value.isSome, value := value.getD [], unknown := codec.noUnknown }

/-- Execute one request; an exception keeps what it has done to the cache. -/
def execute (now : Millis) (metrics : Option TransportStats) (disk : AofStats) (request : Request)
    (cache : Cache) : Except Exception Bytes × Cache :=
  match request.command with
  | .set | .setTtl =>
    match cache.put request.key request.value request.expires now.value with
    | .ok cache => (.ok [], cache)
    | .error e => (.error e, cache)
  | .del => (.ok [], (cache.remove request.key).2)
  | .get =>
    ((.ok ((cache.get request.key now.value).1.getD [])), (cache.get request.key now.value).2)
  | .lookup =>
    (.ok (codec.serialize (lookupValue codec (cache.get request.key now.value).1)),
      (cache.get request.key now.value).2)
  | .stats => (.ok (statsText cache.getStats disk ++ metrics.elim [] metricsText), cache)
  | .unknown => (.ok (statsText cache.getStats disk), cache)

/-- One round of the loop after the batch is logged. -/
def applyOne (now : Millis) (metrics : Option TransportStats) (disk : AofStats) (d : Decoded)
    (cache : Cache) : Except Exception Reply × Cache :=
  if d.reply.consumed = 0 ∨ d.reply.close = true then (.ok d.reply, cache)
  else
    match execute codec now metrics disk d.request cache with
    | (.error e, cache) => (.error e, cache)
    | (.ok response, cache) =>
      match Message.encode d.request.command d.request.key response with
      | .error e => (.error e, cache)
      | .ok bytes => (.ok { d.reply with bytes := bytes }, cache)

def applyAll (clock : Nat → Millis) (metrics : Option TransportStats) (disk : AofStats) :
    Nat → List Decoded → Cache → Except Exception (List Reply) × Cache
  | _, [], cache => (.ok [], cache)
  | i, d :: ds, cache =>
    match applyOne codec (clock i) metrics disk d cache with
    | (.error e, cache) => (.error e, cache)
    | (.ok reply, cache) =>
      match applyAll clock metrics disk (i + 1) ds cache with
      | (.error e, cache) => (.error e, cache)
      | (.ok replies, cache) => (.ok (reply :: replies), cache)

/-! ## Member functions -/

/-- Call a method of the logger. -/
def onAof {α : Type} (m : AofM α) : ServiceM α :=
  Sys.zoom CacheService.aof (fun l s => { s with aof := l }) m

/-- The record `CompactLocked` writes for an entry. -/
def snapshotMutation (e : Entry Bytes Bytes) : Mutation :=
  if e.expires ≠ 0 then
    ⟨.setTtl, e.key, codec.serialize {
      value := e.value, expiresUnixMs := e.expires, unknown := codec.noUnknown }⟩
  else ⟨.set, e.key, e.value⟩

def snapshotMutations (cache : Cache) (clock : Nat → Nat → Millis) : List Mutation :=
  (cache.snapshot fun i j => (clock i j).value).map (snapshotMutation codec)

def compactLocked (clock : Nat → Nat → Millis) : ServiceM Unit := do
  let s ← Sys.get
  onAof (AofLogger.rewrite (snapshotMutations codec s.cache clock))

/-- `Compact` locks the mutex and does the same; an exception leaves `failed_` alone. -/
def compact (clock : Nat → Nat → Millis) : ServiceM Unit := compactLocked codec clock

def applyBatch (env : Env) (ds : List Decoded) : ServiceM (List Reply) := fun o s =>
  match applyAll codec env.applyClock env.metrics s.aof.stats 0 ds s.cache with
  | (.ok replies, cache) => (.ok replies, o, { s with cache := cache })
  | (.error e, cache) => (.throw e, o, { s with cache := cache })

/-- The `try` block of `HandleBatch`. -/
def commitBatch (env : Env) (ds : List Decoded) : ServiceM (List Reply) := do
  let s ← Sys.get
  let full ← Sys.lift (s.aof.needsRewrite (mutations ds))
  if full then compactLocked codec env.snapshotClock else pure ()
  onAof (AofLogger.logBatch (mutations ds) env.syncUs)
  applyBatch codec env ds

def handleBatch (env : Env) (inputs : List Bytes) : ServiceM (List Reply) := do
  let s ← Sys.get
  if s.failed then
    Sys.throw (runtimeError "Storage is unavailable; restart after resolving the failure")
  else
    let ds ← Sys.lift (decodeAll codec s.cache env.decodeClock 0 inputs)
    Sys.tryCatch (commitBatch codec env ds) fun e =>
      if e.cls = .aofCapacityError then Sys.throw e
      else do
        Sys.modify fun s => { s with failed := true }
        Sys.throw e

/-! ## Construction -/

/-- The callback of the constructor; the counter numbers its readings of the clock. -/
def replayCallback (clock : Nat → Millis) : AofLogger.Callback (Cache × Nat) := fun m s =>
  let put := fun (value : Bytes) (expires : UInt64) =>
    match s.1.put m.key value expires (clock s.2).value with
    | .ok cache => (.ok (), (cache, s.2 + 1))
    | .error e => (.error e, (s.1, s.2 + 1))
  match m.command with
  | .set => put m.value 0
  | .setTtl =>
    match codec.parse m.value with
    | none => (.error (runtimeError "Invalid TTL log record"), (s.1, s.2 + 1))
    | some item =>
      if item.expiresUnixMs = 0 then
        (.error (runtimeError "Invalid TTL log record"), (s.1, s.2 + 1))
      else put item.value item.expiresUnixMs
  | _ => (.ok (), ((s.1.remove m.key).2, s.2 + 1))

/-- The part of the constructor that uses the log. -/
def startUp (clock : Nat → Millis) : AofLogger.ReplayM (Cache × Nat) Unit := do
  AofLogger.recover (replayCallback codec clock)
  AofLogger.onLogger AofLogger.start

/-- The constructor on a file system; `trace` is what is known of the past. -/
def create (cfg : Config) (clock : Nat → Millis) (fs : Fs) (trace : List Event) (o : Oracle) :
    Res Exception CacheService × Oracle × Fs :=
  match ShardedCache.create cfg.hash cfg.capacity cfg.shards cfg.maxCacheBytes with
  | .error e => (.throw e, o, fs)
  | .ok cache =>
    match startUp codec clock o
        (AofLogger.initial cfg.path cfg.maxAofBytes fs trace, (cache, 0)) with
    | (.ok (), o, (aof, cache, _)) => (.ok { cache := cache, aof := aof }, o, aof.fs)
    | (.throw e, o, (aof, _)) => (.throw e, o, aof.fs)
    | (.crash, o, (aof, _)) => (.crash, o, aof.fs)

end KVRPC.Service
