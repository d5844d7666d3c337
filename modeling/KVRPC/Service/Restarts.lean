import KVRPC.Service.Crashes

/-!
# One history across crashes

A host keeps the log while processes come and go: calls return or fail, the process is
killed in a call or between two, a new one is started and may be refused. Whatever happens,
one sequence of operations explains every read that was ever answered. It contains the
operations of every acknowledged batch in order, and of a batch that was not acknowledged
the first few, possibly none.
-/
namespace KVRPC.Service

open Library Library.History Aof Storage

variable {codec : Codec} {cfg : Config}

/-! ## Hosts -/

inductive Host where
  | up (s : CacheService)
  | down (fs : Fs)

def Host.fs : Host → Fs
  | .up s => s.aof.fs
  | .down fs => fs

/-- What the log's name refers to. -/
def Host.disk (cfg : Config) (h : Host) : Bytes := (h.fs.named cfg.path).getD []

inductive Incident where
  | call (a : Action)
  /-- The process ends between two calls. -/
  | stop
  | start (clock : Nat → Millis)

inductive HostStep (codec : Codec) (cfg : Config) : Host → Incident → Host → Prop where
  | returns {s s' : CacheService} {a : Action} (step : Step codec cfg .faulty s a s')
      (alive : ¬ a.Fatal) (same : ∀ clock, a ≠ .restart clock) :
      HostStep codec cfg (.up s) (.call a) (.up s')
  | crashes {s s' : CacheService} {a : Action} (step : Step codec cfg .faulty s a s')
      (fatal : a.Fatal) : HostStep codec cfg (.up s) (.call a) (.down s'.aof.fs)
  | stops (s : CacheService) : HostStep codec cfg (.up s) .stop (.down s.aof.fs)
  | starts {fs : Fs} {clock : Nat → Millis} {o : Oracle} {s : CacheService}
      (h : (create codec cfg clock fs [] o).1 = .ok s) :
      HostStep codec cfg (.down fs) (.start clock) (.up s)
  | refused {fs : Fs} (clock : Nat → Millis) (o : Oracle)
      (h : ∀ s, (create codec cfg clock fs [] o).1 ≠ .ok s) :
      HostStep codec cfg (.down fs) (.start clock) (.down (create codec cfg clock fs [] o).2.2)

abbrev HostRun (codec : Codec) (cfg : Config) (fs : Fs) :
    List (Host × Incident) → Host → Prop :=
  Run (HostStep codec cfg) (fun _ => False) (.down fs)

/-! ## Starting -/

/-- A construction that fails leaves the log as it was. -/
theorem wp_startUp_refused (codec : Codec) (clock : Nat → Millis) {filename : String}
    (maxBytes : Nat) {fs : Fs} (trace : List Event) (hb : fs.Bound filename) (b : Cache × Nat) :
    Sys.wp .faulty (startUp codec clock) (fun r s => r ≠ .ok () →
      (s.1.fs.named filename).getD [] = (fs.named filename).getD [] ∧ s.1.fs.Bound filename)
      (AofLogger.initial filename maxBytes fs trace, b) := by
  refine Sys.wp_bind (Sys.wp_bind (AofLogger.wp_onLogger
    ((AofLogger.wp_construct filename maxBytes trace hb).mono ?_)))
  rintro r l (⟨rfl, opened⟩ | ⟨hne, closed, -⟩)
  · -- The log is open; replay moves the offset of the descriptor only.
    have kept : ∀ pos, pos ≤ l.file.length →
        ((l.seek l.fd pos).fs.named filename).getD [] = (fs.named filename).getD [] ∧
          (l.seek l.fd pos).fs.Bound filename := by
      intro pos hpos
      have attached := opened.attached.seek hpos
      have path : (l.seek l.fd pos).filename = filename := opened.filename_eq
      refine ⟨?_, path ▸ attached.bound⟩
      have disk := attached.disk_eq
      rw [AofLogger.file_seek, opened.file_eq, AofLogger.disk, path] at disk
      exact disk
    refine (AofLogger.wp_replay (replayCallback codec clock) b).mono ?_
    rintro r s (⟨rfl, hne, -⟩ | ⟨-, replayed⟩)
    · have here := kept _ opened.attached.offset_le
      rw [AofLogger.seek_self] at here
      cases r with
      | ok => exact absurd rfl hne
      | throw e => exact fun _ => here
      | crash => exact fun _ => here
    · obtain ⟨pos, hpos, inside, -⟩ := replayed.moved
      have here := kept pos inside
      rw [← hpos] at here
      cases r with
      | ok => exact AofLogger.wp_onLogger (Sys.wp_modify fun hne => absurd rfl hne)
      | throw e => exact fun _ => here
      | crash => exact fun _ => here
  · cases r with
    | ok => exact absurd rfl hne
    | throw e => exact fun _ => ⟨closed.disk_eq, closed.bound⟩
    | crash => exact fun _ => ⟨closed.disk_eq, closed.bound⟩

theorem create_refused {fs : Fs} {clock : Nat → Millis} {o : Oracle} (hb : fs.Bound cfg.path)
    (h : ∀ s, (create codec cfg clock fs [] o).1 ≠ .ok s) :
    (((create codec cfg clock fs [] o).2.2).named cfg.path).getD [] =
        (fs.named cfg.path).getD [] ∧
      ((create codec cfg clock fs [] o).2.2).Bound cfg.path := by
  unfold create at h ⊢
  cases hc : (ShardedCache.create cfg.hash cfg.capacity cfg.shards cfg.maxCacheBytes :
    Except Exception Cache) with
  | error e => exact ⟨rfl, hb⟩
  | ok cache =>
    rw [hc] at h
    have faulty : o.In .faulty := trivial
    have run := (wp_startUp_refused codec clock cfg.maxAofBytes [] hb (cache, 0)).run faulty
    dsimp only at h ⊢
    generalize startUp codec clock o _ = stop at h run ⊢
    obtain ⟨_ | _ | _, o', aof, cache', n⟩ := stop
    · exact absurd rfl (h _)
    · exact run (by simp)
    · exact run (by simp)

/-! ## Histories -/

/-- The replies to the reads of a batch fit the history before it: what is found was stored
by the latest operation for its key and has not expired. -/
def AnswersFrom (codec : Codec) (hist : List Op) (s : CacheService) (env : Env)
    (inputs : List Bytes) (replies : List Reply) : Prop :=
  ∀ j d, (decodedBatch codec s.cache env inputs)[j]? = some d → d.Accepted →
    d.request.command = .get ∨ d.request.command = .lookup →
    ∃ reply found, replies[j]? = some reply ∧
      Message.encode d.request.command d.request.key
        (readResponse codec d.request.command found) = .ok reply.bytes ∧
      ∀ value, found = some value → ∃ expires,
        latest Op.key d.request.key
          (hist ++ batchOps ((decodedBatch codec s.cache env inputs).take j)) =
            some (.put d.request.key value expires) ∧
        (expires ≠ 0 → (env.applyClock j).value < expires)

/-- What an incident may add to the history: everything a call was asked for if it returned,
the beginning of it if it did not. -/
def Contributes (codec : Codec) : Host → Incident → List Op → Prop
  | .up s, .call a, ops =>
    ops <+: a.requested codec s ∧ (a.Returned → ops = a.requested codec s)
  | _, _, ops => ops = []

/-- What was answered in an incident fits the history before it. -/
def Reads (codec : Codec) (hist : List Op) : Host → Incident → Prop
  | .up s, .call (.batch env inputs (.ok replies)) => AnswersFrom codec hist s env inputs replies
  | _, _ => True

/-- A sequence of operations that explains what has happened. -/
inductive History (codec : Codec) (init : List Op) : List (Host × Incident) → List Op → Prop where
  | nil : History codec init [] init
  | snoc {trace : List (Host × Incident)} {hist ops : List Op} {h : Host} {i : Incident}
      (past : History codec init trace hist) (reads : Reads codec hist h i)
      (adds : Contributes codec h i ops) : History codec init (trace ++ [(h, i)]) (hist ++ ops)

/-- Nothing was read and nothing was done. -/
theorem History.idle {init hist : List Op} {trace : List (Host × Incident)} {h : Host}
    {i : Incident} (past : History codec init trace hist) (reads : Reads codec hist h i)
    (adds : Contributes codec h i []) : History codec init (trace ++ [(h, i)]) hist := by
  simpa using past.snoc reads adds

variable {s s' : CacheService} {hist : List Op}

/-- The replies of a batch that returned come from the loop over its requests. -/
theorem HandleBatchResult.applied {R : Regime} {env : Env} {inputs : List Bytes}
    {replies : List Reply} (result : HandleBatchResult codec R s env inputs (.ok replies) s') :
    s.failed = false ∧
      ∃ disk, (applied codec env disk (decodedBatch codec s.cache env inputs) s.cache).1 =
        .ok replies := by
  generalize returned : (Res.ok replies : Res Exception (List Reply)) = r at result
  cases result with
  | unavailable => cases returned
  | committed alive result =>
    refine ⟨alive, ?_⟩
    cases result with
    | unencodable => cases returned
    | @uncompacted r _ _ hr | @unlogged r _ _ _ hr =>
      cases r with
      | ok => exact absurd rfl hr
      | throw | crash => cases returned
    | applied prepared result => exact ⟨_, Res.ok_eq_ofExcept.mp returned⟩

theorem HandleBatchResult.answersFrom {R : Regime} {env : Env} {inputs : List Bytes}
    {replies : List Reply} (result : HandleBatchResult codec R s env inputs (.ok replies) s')
    (coherent : s.failed = false → Coherent hist s.cache) :
    AnswersFrom codec hist s env inputs replies := by
  intro j d hd accepted reads
  obtain ⟨alive, disk, ran⟩ := result.applied
  obtain ⟨reply, before, c, hreply, earlier, made⟩ := applyAll_reply (Prod.ext ran rfl) hd
  rw [Nat.zero_add] at made
  have here := coherent_applied (coherent alive) ⟨before, congrArg Prod.fst earlier⟩
  rw [Service.applied, earlier] at here
  exact ⟨reply, _, hreply, applyOne_read made accepted reads, fun value => here.get_found⟩

/-- What a call answers fits a history that the cache of a working service fits. -/
theorem Step.reads {a : Action} (step : Step codec cfg .faulty s a s') (sound : Sound cfg s)
    (coherent : s.failed = false → Coherent hist s.cache) :
    Reads codec hist (.up s) (.call a) := by
  rcases step.cases sound with ⟨env, inputs, r, rfl, result⟩ | ⟨_, _, _, rfl, -⟩ | ⟨_, rfl, -⟩
  · cases r with
    | ok replies => exact result.answersFrom coherent
    | throw | crash => trivial
  · trivial
  · trivial

/-! ## The invariant -/

/-- The log a call leaves goes on from a history of the log or of the cache. -/
theorem Effect.agrees (lawful : codec.Lawful) {a : Action} {logs does ofLog ofCache : List Op}
    (effect : Effect codec s a s' logs does)
    (log : Agrees Op.key (logOps codec (onDisk s.aof)) ofLog) (cache : Coherent ofCache s.cache) :
    Agrees Op.key (logOps codec (onDisk s'.aof)) (ofLog ++ logs) ∨
      Agrees Op.key (logOps codec (onDisk s'.aof)) (ofCache ++ logs) := by
  obtain ⟨base, q, read, rfl, old | ⟨clock, new, hl⟩⟩ := effect.log
  · left
    rw [read, logOps_append, old]
    exact log.append _
  · right
    rw [new] at hl
    rw [read, logOps_append, new, snapshotMutations, logOps_snapshot lawful hl]
    exact (cache.agrees_storing fun e he => ShardedCache.holds_of_mem_snapshot he).append _

/-- Log and cache each have a history, and it is the same one as long as the service works. -/
structure Serving (codec : Codec) (cfg : Config) (init : List Op) (trace : List (Host × Incident))
    (s : CacheService) : Prop where
  sound : Sound cfg s
  whole : Whole s.aof
  histories : ∃ ofLog ofCache, History codec init trace ofLog ∧ History codec init trace ofCache ∧
    Agrees Op.key (logOps codec (onDisk s.aof)) ofLog ∧ Coherent ofCache s.cache ∧
    (s.failed = false → ofLog = ofCache)

/-- Only the log is left, and it has a history. -/
structure Stopped (codec : Codec) (cfg : Config) (init : List Op) (trace : List (Host × Incident))
    (fs : Fs) : Prop where
  bound : fs.Bound cfg.path
  history : ∃ hist, History codec init trace hist ∧
    Agrees Op.key (logOps codec (logged ((fs.named cfg.path).getD []))) hist

def Explained (codec : Codec) (cfg : Config) (init : List Op) (trace : List (Host × Incident)) :
    Host → Prop
  | .up s => Serving codec cfg init trace s
  | .down fs => Stopped codec cfg init trace fs

variable {init : List Op} {trace : List (Host × Incident)}

theorem Sound.onDisk_eq (h : Sound cfg s) :
    onDisk s.aof = logged ((s.aof.fs.named cfg.path).getD []) := by
  rw [onDisk, AofLogger.disk, h.ready.filename_eq]

/-- A call of a process that serves, whether it returns or not. -/
theorem Serving.called (lawful : codec.Lawful) {a : Action} (h : Serving codec cfg init trace s)
    (step : Step codec cfg .faulty s a s') (same : ∀ clock, a ≠ .restart clock) :
    (∃ logs does, Effect codec s a s' logs does) ∧
    ∃ ofLog ofCache, History codec init (trace ++ [(.up s, .call a)]) ofLog ∧
      History codec init (trace ++ [(.up s, .call a)]) ofCache ∧
      Agrees Op.key (logOps codec (onDisk s'.aof)) ofLog ∧ Coherent ofCache s'.cache ∧
      (¬ a.Fatal → s'.failed = false → ofLog = ofCache) := by
  obtain ⟨ofLog, ofCache, pastLog, pastCache, log, cache, one⟩ := h.histories
  obtain ⟨logs, does, effect⟩ := step.effect lawful h.sound h.whole same
  have logAdds : Contributes codec (.up s) (.call a) logs :=
    ⟨effect.logs_of, fun returned => (effect.returned returned).1⟩
  have cacheAdds : Contributes codec (.up s) (.call a) does :=
    ⟨effect.does_of, fun returned => (effect.returned returned).2⟩
  have cacheReads := step.reads h.sound fun _ => cache
  have logReads := step.reads h.sound fun alive => one alive ▸ cache
  refine ⟨⟨logs, does, effect⟩, ?_⟩
  -- After a compaction the log has the history of the cache.
  rcases effect.agrees lawful log cache with still | now
  · refine ⟨_, _, pastLog.snoc logReads logAdds, pastCache.snoc cacheReads cacheAdds, still,
      effect.cache _ cache, fun living alive => ?_⟩
    obtain ⟨before, equal⟩ := effect.alive living alive
    rw [one before, equal]
  · refine ⟨_, _, pastCache.snoc cacheReads logAdds, pastCache.snoc cacheReads cacheAdds, now,
      effect.cache _ cache, fun living alive => ?_⟩
    rw [(effect.alive living alive).2]

theorem Serving.returned (lawful : codec.Lawful) {a : Action} (h : Serving codec cfg init trace s)
    (step : Step codec cfg .faulty s a s') (alive : ¬ a.Fatal)
    (same : ∀ clock, a ≠ .restart clock) :
    Serving codec cfg init (trace ++ [(.up s, .call a)]) s' := by
  obtain ⟨⟨logs, does, effect⟩, ofLog, ofCache, pastLog, pastCache, log, cache, one⟩ :=
    h.called lawful step same
  exact ⟨step.sound h.sound alive, effect.whole alive, ofLog, ofCache, pastLog, pastCache, log,
    cache, one alive⟩

theorem Serving.crashed (lawful : codec.Lawful) {a : Action} (h : Serving codec cfg init trace s)
    (step : Step codec cfg .faulty s a s') (fatal : a.Fatal) :
    Stopped codec cfg init (trace ++ [(.up s, .call a)]) s'.aof.fs := by
  have same : ∀ clock, a ≠ .restart clock := by
    rintro clock rfl
    exact fatal
  obtain ⟨⟨logs, does, effect⟩, ofLog, _, pastLog, -, log, -, -⟩ := h.called lawful step same
  have path : s'.aof.filename = cfg.path := effect.path.trans h.sound.ready.filename_eq
  rw [onDisk, AofLogger.disk, path] at log
  exact ⟨path ▸ (step.bounded h.sound).bound, ofLog, pastLog, log⟩

theorem Serving.stopped (h : Serving codec cfg init trace s) :
    Stopped codec cfg init (trace ++ [(.up s, .stop)]) s.aof.fs := by
  obtain ⟨ofLog, _, past, -, log, -, -⟩ := h.histories
  rw [h.sound.onDisk_eq] at log
  exact ⟨h.sound.ready.filename_eq ▸ h.sound.ready.live.attached.bound, ofLog,
    past.idle trivial rfl, log⟩

/-- A new process takes over the history of the log. -/
theorem Stopped.started {fs : Fs} {clock : Nat → Millis} {o : Oracle}
    (h : Stopped codec cfg init trace fs) (created : (create codec cfg clock fs [] o).1 = .ok s) :
    Serving codec cfg init (trace ++ [(.down fs, .start clock)]) s := by
  have created := (created_of_create h.bound created).1
  obtain ⟨c, hc, encodes, -, replays⟩ := created.cache_replays
  obtain ⟨hist, past, log⟩ := h.history
  have disk : s.aof.disk = (fs.named cfg.path).getD [] :=
    created.ready.live.attached.disk_eq.trans created.file_eq
  have past' := past.idle (h := .down fs) (i := .start clock) trivial rfl
  refine ⟨created.sound, fun _ => ?_, hist, hist, past', past', ?_, ?_, fun _ => rfl⟩
  · rw [onDisk, disk]
    exact encodes
  · rw [onDisk, disk]
    exact log
  · exact (coherent_rebuilt hc replays).agrees log

theorem Stopped.refused {fs : Fs} {clock : Nat → Millis} {o : Oracle}
    (h : Stopped codec cfg init trace fs)
    (failed : ∀ s, (create codec cfg clock fs [] o).1 ≠ .ok s) :
    Stopped codec cfg init (trace ++ [(.down fs, .start clock)])
      (create codec cfg clock fs [] o).2.2 := by
  obtain ⟨disk, bound⟩ := create_refused h.bound failed
  obtain ⟨hist, past, log⟩ := h.history
  refine ⟨bound, hist, past.idle trivial rfl, ?_⟩
  rw [disk]
  exact log

theorem HostStep.explained (lawful : codec.Lawful) {h h' : Host} {i : Incident}
    (step : HostStep codec cfg h i h') (explained : Explained codec cfg init trace h) :
    Explained codec cfg init (trace ++ [(h, i)]) h' := by
  cases step with
  | returns step alive same => exact Serving.returned lawful explained step alive same
  | crashes step fatal => exact Serving.crashed lawful explained step fatal
  | stops s => exact Serving.stopped explained
  | starts created => exact Stopped.started explained created
  | refused clock o failed => exact Stopped.refused explained failed

theorem HostRun.explained (lawful : codec.Lawful) {fs : Fs} (hb : fs.Bound cfg.path) {h : Host}
    (run : HostRun codec cfg fs trace h) :
    Explained codec cfg (logOps codec (logged ((fs.named cfg.path).getD []))) trace h := by
  refine run.invariant (fun trace h =>
    Explained codec cfg (logOps codec (logged ((fs.named cfg.path).getD []))) trace h)
    (fun _ _ => True) ⟨hb, _, .nil, Agrees.refl _⟩ ?_ fun _ _ => trivial
  intro trace h i h' explained _ step
  exact step.explained lawful explained

/-- **Durable history.** Over any run of a host, with failures of the file system, crashes in
calls and between them, restarts and refused starts, one sequence of operations explains all
answers: it goes on from the initial log, has the operations of every acknowledged batch in
order and at most the first few of any other, and every value read was stored by the latest
operation for its key before the read. What is on disk at the end agrees with it. -/
theorem history_across_crashes (lawful : codec.Lawful) {fs : Fs} (hb : fs.Bound cfg.path)
    {trace : List (Host × Incident)} {h : Host} (run : HostRun codec cfg fs trace h) :
    ∃ hist, History codec (logOps codec (logged ((fs.named cfg.path).getD []))) trace hist ∧
      Agrees Op.key (logOps codec (logged (h.disk cfg))) hist := by
  have explained := run.explained lawful hb
  cases h with
  | up s =>
    have serving : Serving codec cfg _ trace s := explained
    obtain ⟨ofLog, _, past, -, log, -, -⟩ := serving.histories
    rw [serving.sound.onDisk_eq] at log
    exact ⟨ofLog, past, log⟩
  | down fs' =>
    have stopped : Stopped codec cfg _ trace fs' := explained
    exact stopped.history

/-- A write whose process is killed before `fsync` returns is in the history all the same. -/
theorem history_across_crashes_killed : ∃ s₀ s₁ fs replies hist,
    HostRun wireCodec small AofLogger.emptyFs
      [(.down AofLogger.emptyFs, .start frozen.applyClock),
        (.up s₀, .call (.batch frozen [Message.frame .set [1] [2]] (.ok replies))),
        (.up s₁, .call (.batch frozen [Message.frame .set [1] [3]] .crash))]
      (.down fs) ∧
    History wireCodec []
      [(.down AofLogger.emptyFs, .start frozen.applyClock),
        (.up s₀, .call (.batch frozen [Message.frame .set [1] [2]] (.ok replies))),
        (.up s₁, .call (.batch frozen [Message.frame .set [1] [3]] .crash))] hist ∧
    latest Op.key [1] hist = some (.put [1] [3] 0) := by
  obtain ⟨s₀, created, answered, crashed, onDisk⟩ := Res.returns_iff.mp (show
    (create wireCodec small frozen.applyClock AofLogger.emptyFs [] .reliable).1.Returns fun s =>
      ((handleBatch wireCodec frozen [Message.frame .set [1] [2]] .reliable s).1.Returns
        fun _ => True) ∧
      (handleBatch wireCodec frozen [Message.frame .set [1] [3]] (.next .ok .crash)
        (handleBatch wireCodec frozen [Message.frame .set [1] [2]] .reliable s).2.2).1 = .crash ∧
      latest Op.key [1] (logOps wireCodec (logged ((Host.down (handleBatch wireCodec frozen
        [Message.frame .set [1] [3]] (.next .ok .crash)
        (handleBatch wireCodec frozen [Message.frame .set [1] [2]] .reliable s).2.2).2.2.aof.fs
        ).disk small))) = some (.put [1] [3] 0) by decide +kernel)
  obtain ⟨replies, answered, -⟩ := Res.returns_iff.mp answered
  have first : Step wireCodec small .faulty s₀ _ _ := .batch frozen
    [Message.frame .set [1] [2]] .reliable trivial
  rw [answered] at first
  generalize (handleBatch wireCodec frozen [Message.frame .set [1] [2]] .reliable s₀).2.2 = s₁
    at first crashed onDisk
  have second : Step wireCodec small .faulty s₁ _ _ := .batch frozen
    [Message.frame .set [1] [3]] (.next .ok .crash) trivial
  rw [crashed] at second
  have run : HostRun wireCodec small AofLogger.emptyFs ([] ++ [_] ++ [_] ++ [_]) _ :=
    .snoc (.snoc (.snoc .nil (by simp) (.starts created)) (by simp)
      (.returns first (by simp [Action.Fatal]) (by simp))) (by simp) (.crashes second rfl)
  obtain ⟨hist, past, agrees⟩ := history_across_crashes wireCodec_lawful
    (AofLogger.emptyFs_bound small.path) run
  have empty : logged ((AofLogger.emptyFs.named small.path).getD []) = [] := logged_nil
  rw [empty] at past
  exact ⟨s₀, s₁, _, replies, hist, run, past, agrees _ _ onDisk⟩

end KVRPC.Service
