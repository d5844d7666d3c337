import KVRPC.Aof.Record
import KVRPC.Library.Posix
import KVRPC.Library.Sys

/-!
# The append-only file logger

`AofLogger` of `aof.h` and `aof.cpp`, one definition for each member function. Methods
are programs over the object and the file system its descriptors refer to. A mutex
makes each call atomic with respect to the others, so a run is a sequence of calls.

`trace` is auxiliary: it records when an append starts and returns and when a rewrite
is published and returns, and no method reads it.
-/
namespace KVRPC.Aof

open Library

structure AofStats where
  records : Nat := 0
  syncs : Nat := 0
  bytes : Nat := 0
  rewrites : Nat := 0
  syncUs : Nat := 0
  deriving DecidableEq, Repr

inductive Event where
  | appending (mutations : List Mutation)
  | appended (mutations : List Mutation)
  | published (snapshot : List Mutation)
  | rewritten (snapshot : List Mutation)
  deriving DecidableEq, Repr

structure AofLogger where
  fd : Nat := 0
  lock : Nat := 0
  filename : String
  bytes : Nat := 0
  rewrittenAt : Nat := 0
  maxBytes : Nat
  failed : Bool := false
  started : Bool := false
  stats : AofStats := {}
  fs : Fs
  trace : List Event := []

/-- Programs of the logger. -/
abbrev AofM := Sys Exception AofLogger

/-- Run file-system calls from a logger method. -/
def onFs {α : Type} (m : Sys Exception Fs α) : AofM α :=
  Sys.zoom AofLogger.fs (fun fs l => { l with fs := fs }) m

def mark (e : Event) : AofM Unit := Sys.modify fun l => { l with trace := l.trace ++ [e] }

/-! ## Helpers of `aof.cpp` -/

/-- `WriteExact`, on the part of the data not yet written. -/
def writeExactLoop (fd : Nat) : Oracle → Bytes → Fs → Res Exception Unit × Oracle × Fs
  | o, [], fs => (.ok (), o, fs)
  | .reliable, b :: data, fs => (.ok (), .reliable, fs.write fd (b :: data))
  | .crash, _ :: _, fs => (.crash, .crash, fs)
  | .next .ok o, b :: data, fs => (.ok (), o, fs.write fd (b :: data))
  | .next (.short k) o, b :: data, fs =>
    writeExactLoop fd o (data.drop k) (fs.write fd (b :: data.take k))
  | .next .eintr o, b :: data, fs => writeExactLoop fd o (b :: data) fs
  | .next .fail o, _ :: _, fs => (.throw (runtimeError "AOF write failed"), o, fs)

def writeExact (fd : Nat) (data : Bytes) : Sys Exception Fs Unit :=
  fun o fs => writeExactLoop fd o data fs

/-- `ReadExact` with `size` octets to go and `got` already read. At the end of the file
`read` returns 0. -/
def readExactLoop (fd : Nat) : Oracle → Nat → Bytes → Fs → Res Exception Bytes × Oracle × Fs
  | o, 0, got, fs => (.ok got, o, fs)
  | .reliable, n + 1, got, fs =>
    if (fs.peek fd (n + 1)).length = n + 1 then
      (.ok (got ++ fs.peek fd (n + 1)), .reliable, fs.advance fd (n + 1))
    else (.throw (runtimeError "Truncated AOF record"), .reliable, fs.advance fd (n + 1))
  | .crash, _ + 1, _, fs => (.crash, .crash, fs)
  | .next .eintr o, n + 1, got, fs => readExactLoop fd o (n + 1) got fs
  | .next .fail o, _ + 1, _, fs => (.throw (runtimeError "Truncated AOF record"), o, fs)
  | .next .ok o, n + 1, got, fs =>
    if fs.peek fd (n + 1) = [] then (.throw (runtimeError "Truncated AOF record"), o, fs)
    else readExactLoop fd o (n + 1 - (fs.peek fd (n + 1)).length) (got ++ fs.peek fd (n + 1))
      (fs.advance fd (n + 1))
  | .next (.short k) o, n + 1, got, fs =>
    if fs.peek fd (min (k + 1) (n + 1)) = [] then
      (.throw (runtimeError "Truncated AOF record"), o, fs)
    else readExactLoop fd o (n + 1 - (fs.peek fd (min (k + 1) (n + 1))).length)
      (got ++ fs.peek fd (min (k + 1) (n + 1))) (fs.advance fd (min (k + 1) (n + 1)))

def readExact (fd size : Nat) : Sys Exception Fs Bytes := fun o fs => readExactLoop fd o size [] fs

/-- `Sync`; interrupted calls are repeated. -/
def sync : Sys Exception Fs Unit := do
  if ← Sys.callUninterrupted id then pure ()
  else Sys.throw (runtimeError "AOF fsync failed")

/-- `SyncDirectory`: open the parent directory and synchronize it. -/
def syncDirectory : Sys Exception Fs Unit := do
  if ← Sys.call id then sync
  else Sys.throw (runtimeError "Cannot open AOF directory")

/-! ## Member functions -/

namespace AofLogger

/-- The members before the constructor's body runs. -/
def initial (filename : String) (maxBytes : Nat) (fs : Fs) (trace : List Event) : AofLogger :=
  { filename := filename, maxBytes := maxBytes, fs := fs, trace := trace }

/-- The constructor: take the lock file, open the log for appending, check its size. -/
def construct : AofM Unit := do
  let l ← Sys.get
  if ← onFs (Sys.call fun fs => fs.openFile (l.filename ++ ".lock") false) then
    Sys.modify fun l => { l with lock := l.fs.fresh - 1 }
    if ← onFs (Sys.call id) then
      if ← onFs (Sys.call fun fs => fs.openFile l.filename true) then
        Sys.modify fun l => { l with fd := l.fs.fresh - 1 }
        if ← onFs (Sys.call id) then
          let l ← Sys.get
          let stat ← onFs (Sys.call id)
          if stat = true ∧ (l.fs.content l.fd).length ≤ l.maxBytes then
            Sys.modify fun l => { l with
              bytes := (l.fs.content l.fd).length
              stats := { l.stats with bytes := (l.fs.content l.fd).length } }
            onFs syncDirectory
          else Sys.throw (runtimeError "Invalid AOF file or size limit")
        else Sys.throw (runtimeError "AOF already in use")
      else Sys.throw (runtimeError "Cannot open AOF")
    else Sys.throw (runtimeError "AOF already in use")
  else Sys.throw (runtimeError "Cannot open AOF lock")

def start : AofM Unit := Sys.modify fun l => { l with started := true }

def stop : AofM Unit := Sys.modify fun l => { l with started := false }

def needsRewrite (l : AofLogger) (mutations : List Mutation) : Except Exception Bool :=
  if mutations = [] then .ok false
  else do
    let n ← size mutations
    return n > usub l.maxBytes l.bytes ||
      (l.bytes > l.maxBytes / 2 && usub l.bytes l.rewrittenAt > l.maxBytes / 4)

/-- `WriteExact(fd, Encode(m))` for every mutation. -/
def writeAll (fd : Nat) (mutations : List Mutation) : AofM Unit :=
  Sys.forEach mutations fun m => do
    let bytes ← Sys.lift (encode m)
    onFs (writeExact fd bytes)

/-- `elapsed` is the time the steady clock measures around `Sync`. -/
def logBatch (mutations : List Mutation) (elapsed : Nat) : AofM Unit := do
  if mutations = [] then pure ()
  else
    let l ← Sys.get
    if l.started = false ∨ l.failed = true then Sys.throw (runtimeError "AOF unavailable")
    else
      let n ← Sys.lift (size mutations)
      if n > usub l.maxBytes l.bytes then
        Sys.throw (aofCapacityError "AOF capacity exceeded after compaction")
      else
        mark (.appending mutations)
        Sys.tryCatch
          (do
            writeAll l.fd mutations
            onFs sync
            Sys.modify fun l => { l with
              stats := { l.stats with syncUs := l.stats.syncUs + elapsed } })
          (fun e => do
            Sys.modify fun l => { l with failed := true }
            Sys.throw e)
        Sys.modify fun l => { l with
          bytes := l.bytes + n
          stats := { l.stats with
            bytes := l.bytes + n
            records := l.stats.records + mutations.length
            syncs := l.stats.syncs + 1 } }
        mark (.appended mutations)

def log (command : Command) (key value : Bytes) (elapsed : Nat) : AofM Unit :=
  logBatch [⟨command, key, value⟩] elapsed

/-- The name `mkstemp` makes of its template. -/
def replacementName (l : AofLogger) : String := l.filename ++ ".rewrite-" ++ toString l.fs.fresh

/-- The part of `rewrite` that an exception leaves with `renamed` still false. -/
def writeReplacement (path : String) (replacement : Nat) (snapshot : List Mutation) :
    AofM Unit := do
  let _ ← onFs (Sys.call id)
  if ← onFs (Sys.call id) then
    writeAll replacement snapshot
    onFs sync
    let renamed ← Sys.call fun l => { l with
      fs := l.fs.rename path l.filename
      trace := l.trace ++ [.published snapshot] }
    if renamed then pure ()
    else Sys.throw (runtimeError "Cannot publish AOF rewrite")
  else Sys.throw (runtimeError "Cannot lock AOF replacement")

def rewrite (snapshot : List Mutation) : AofM Unit := do
  let l ← Sys.get
  if l.failed then Sys.throw (runtimeError "AOF unavailable")
  else
    let n ← Sys.lift (size snapshot)
    if n > l.maxBytes then Sys.throw (aofCapacityError "Snapshot exceeds AOF limit")
    else if ← onFs (Sys.call fun fs => fs.mkstemp l.replacementName) then
      let replacement := l.fs.fresh + 1
      Sys.tryCatch (writeReplacement l.replacementName replacement snapshot)
        (fun e => do
          let _ ← onFs (Sys.call id)
          let _ ← onFs (Sys.call fun fs => fs.unlink l.replacementName)
          Sys.throw e)
      -- Past the rename the handler keeps the new file and marks the logger failed.
      let _ ← onFs (Sys.call id)
      Sys.modify fun l => { l with
        fd := replacement
        bytes := n
        rewrittenAt := n
        stats := { l.stats with bytes := n, rewrites := l.stats.rewrites + 1 } }
      Sys.tryCatch (onFs syncDirectory)
        (fun e => do
          Sys.modify fun l => { l with failed := true }
          Sys.throw e)
      mark (.rewritten snapshot)
    else Sys.throw (runtimeError "Cannot create AOF rewrite")

/-! ## Replay -/

/-- A replay callback updates the state it captures and may throw. -/
abbrev Callback (β : Type) := Mutation → β → Except Exception Unit × β

/-- Programs that run a callback over `β` next to the logger. -/
abbrev ReplayM (β : Type) := Sys Exception (AofLogger × β)

section

variable {β : Type}

def onLogger {α : Type} (m : AofM α) : ReplayM β α :=
  Sys.zoom Prod.fst (fun l s => (l, s.2)) m

def invoke (callback : Callback β) (m : Mutation) : ReplayM β Unit := fun o s =>
  match callback m s.2 with
  | (.ok (), b) => (.ok (), o, (s.1, b))
  | (.error e, b) => (.throw e, o, (s.1, b))

/-- The payload that belongs to a record header, and how many octets follow the header. -/
def readPayload (fd : Nat) (header : Bytes) (remaining : Nat) : AofM (Bytes × Nat) :=
  if header.take 4 = recordMagic then do
    let length ← Sys.lift (recordLength header remaining)
    let payload ← onFs (readExact fd length)
    Sys.lift (checkCrc header payload)
    pure (payload, length)
  else do
    -- Read compatibility for version-1 logs.
    let length ← Sys.lift (legacyLength header remaining)
    let body ← onFs (readExact fd length)
    pure (header ++ body, length)

/-- One round of the replay loop up to the callback. -/
def readNext (fd remaining : Nat) : AofM (Mutation × Nat) := do
  let header ← onFs (readExact fd headerSize)
  let (payload, length) ← readPayload fd header (remaining - headerSize)
  let m ← Sys.lift (checkOperation payload)
  pure (m, length)

def replayLoop (callback : Callback β) (fd : Nat) (remaining : Nat) : ReplayM β Unit :=
  if remaining = 0 then pure ()
  else if remaining < headerSize then Sys.throw (runtimeError "Truncated AOF header")
  else do
    let next ← onLogger (readNext fd remaining)
    invoke callback next.1
    replayLoop callback fd (remaining - headerSize - next.2)
termination_by remaining
decreasing_by unfold headerSize; omega

def replay (callback : Callback β) : ReplayM β Unit := do
  let s ← Sys.get
  if s.1.started then Sys.throw (logicError "Replay must precede start")
  else if ← onLogger (onFs (Sys.call fun fs => fs.setOffset s.1.fd 0)) then
    replayLoop callback s.1.fd s.1.bytes
  else Sys.throw (runtimeError "Cannot seek AOF")

end

end AofLogger
end KVRPC.Aof
