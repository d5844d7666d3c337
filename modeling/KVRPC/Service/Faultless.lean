import KVRPC.Service.Runs

/-!
# Runs without I/O failures

When no call of the operating system fails, the log is a sequence of records at any time
between calls, and a batch ends in one of four ways: refused because the service has
failed before, refused because something does not encode, rejected for lack of space, or
logged and applied.
-/
namespace KVRPC.Service

open Library Aof Storage

variable {codec : Codec} {cfg : Config}

/-- The mutations in the log. -/
def CacheService.log (s : CacheService) : List Mutation := logged s.aof.file

structure Healthy (cfg : Config) (s : CacheService) : Prop extends Sound cfg s where
  aof_alive : s.aof.failed = false
  whole : Encodes s.log s.aof.file

/-- What a batch is appended to: the log, or the snapshot that has replaced it. -/
def Base (codec : Codec) (s : CacheService) (clock : Nat → Nat → Millis) (base : List Mutation) :
    Prop :=
  base = s.log ∨ base = snapshotMutations codec s.cache clock ∧ ∀ m ∈ base, Loggable m

inductive BatchOutcome (codec : Codec) (s : CacheService) (env : Env) (inputs : List Bytes) :
    Res Exception (List Reply) → CacheService → Prop where
  | unavailable (h : s.failed = true) : BatchOutcome codec s env inputs
      (.throw (runtimeError "Storage is unavailable; restart after resolving the failure")) s
  | refused (alive : s.failed = false) (e : Exception)
      (h : size (mutations (decodedBatch codec s.cache env inputs)) = .error e ∨
        size (snapshotMutations codec s.cache env.snapshotClock) = .error e) :
      BatchOutcome codec s env inputs (.throw e) { s with failed := true }
  | rejected (alive : s.failed = false) {base : List Mutation}
      (hb : Base codec s env.snapshotClock base) (what : String) {aof : AofLogger}
      (log : logged aof.file = base) :
      BatchOutcome codec s env inputs (.throw (aofCapacityError what)) { s with aof := aof }
  | done (alive : s.failed = false) {base : List Mutation}
      (hb : Base codec s env.snapshotClock base)
      (hl : ∀ m ∈ mutations (decodedBatch codec s.cache env inputs), Loggable m) {aof : AofLogger}
      (log : logged aof.file = base ++ mutations (decodedBatch codec s.cache env inputs))
      {r : Except Exception (List Reply)} {cache : Cache}
      (happlied : applied codec env aof.stats (decodedBatch codec s.cache env inputs) s.cache =
        (r, cache)) :
      BatchOutcome codec s env inputs (.ofExcept r)
        (CacheService.settle { s with aof := aof, cache := cache } (.ofExcept r))

/-! ## The logger -/

theorem needsRewrite_error {l : AofLogger} {ms : List Mutation} {e : Exception}
    (h : l.needsRewrite ms = .error e) : size ms = .error e := by
  unfold AofLogger.needsRewrite at h
  split at h
  · cases h
  · cases hs : size ms with
    | error e' => rw [hs] at h; cases h; rfl
    | ok n => rw [hs] at h; cases h

theorem needsRewrite_ok {l : AofLogger} {ms : List Mutation} {full : Bool}
    (h : l.needsRewrite ms = .ok full) : ∃ n, size ms = .ok n := by
  unfold AofLogger.needsRewrite at h
  split at h
  · rename_i hms
    exact ⟨0, by rw [hms]; rfl⟩
  · cases hs : size ms with
    | error e => rw [hs] at h; cases h
    | ok n => exact ⟨n, rfl⟩

/-- A logger that works on a whole log. -/
structure Working (cfg : Config) (l : AofLogger) (ms : List Mutation) : Prop where
  ready : Ready cfg l
  alive : l.failed = false
  whole : Encodes ms l.file

theorem Working.logBatch {l l' : AofLogger} {base ms : List Mutation} {elapsed : Nat}
    {r : Res Exception Unit} (h : Working cfg l base)
    (result : AofLogger.LogBatchResult .faultless l ms elapsed r l') :
    (r = .ok () ∧ (∀ m ∈ ms, Loggable m) ∧ Working cfg l' (base ++ ms)) ∨
      (∃ what, r = .throw (aofCapacityError what) ∧ Working cfg l' base) ∨
      (∃ e, r = .throw e ∧ size ms = .error e ∧ l' = l) := by
  have ready := h.ready.logBatch result
  cases result with
  | empty hms =>
    subst hms
    exact Or.inl ⟨rfl, by simp, by simpa using h⟩
  | unavailable hne bad =>
    rw [h.ready.started, h.alive] at bad
    simp at bad
  | unencodable hne hs hf e he => exact Or.inr (Or.inr ⟨e, rfl, he, rfl⟩)
  | overCapacity => exact Or.inr (Or.inl ⟨_, rfl, h⟩)
  | appended hne hs hf hl fits =>
    refine Or.inl ⟨rfl, hl, ready (by simp), h.alive, ?_⟩
    rw [AofLogger.file_afterAppend h.ready.atEnd]
    exact h.whole.append (encodes_records hl)
  | torn | killed => contradiction

/-- A rewrite that returned leaves a logger that works, whatever happened before. -/
theorem Ready.rewritten {R : Regime} {l l' : AofLogger} {snapshot : List Mutation}
    (h : Ready cfg l) (result : AofLogger.RewriteResult R l snapshot (.ok ()) l') :
    (∀ m ∈ snapshot, Loggable m) ∧ Working cfg l' snapshot := by
  have ready := h.rewrite result (by simp)
  cases result with
  | rewritten hf hl fits =>
    refine ⟨hl, ready, hf, ?_⟩
    have file : (l.afterRewrite snapshot).file = records snapshot :=
      AofLogger.afterPublish_file l snapshot
    rw [file]
    exact encodes_records hl
  | unpublished => contradiction

theorem Working.rewrite {l l' : AofLogger} {base snapshot : List Mutation}
    {r : Res Exception Unit} (h : Working cfg l base)
    (result : AofLogger.RewriteResult .faultless l snapshot r l') :
    (r = .ok () ∧ (∀ m ∈ snapshot, Loggable m) ∧ Working cfg l' snapshot) ∨
      ((∃ what, r = .throw (aofCapacityError what)) ∨
        ∃ e, r = .throw e ∧ size snapshot = .error e) ∧ l' = l := by
  cases result with
  | unavailable bad =>
    rw [h.alive] at bad
    cases bad
  | unencodable hf e he => exact Or.inr ⟨Or.inr ⟨e, rfl, he⟩, rfl⟩
  | overCapacity => exact Or.inr ⟨Or.inl ⟨_, rfl⟩, rfl⟩
  | rewritten hf hl fits =>
    have returned : AofLogger.RewriteResult .faultless l snapshot (.ok ()) _ :=
      .rewritten hf hl fits
    exact Or.inl ⟨rfl, h.ready.rewritten returned⟩
  | unpublished | unsynced | killed => contradiction

theorem Working.log_eq {l : AofLogger} {ms : List Mutation} (h : Working cfg l ms) :
    logged l.file = ms := congrArg Prod.fst (encodes_iff_scan.mp h.whole)

theorem Healthy.working {s : CacheService} (h : Healthy cfg s) : Working cfg s.aof s.log :=
  ⟨h.ready, h.aof_alive, h.whole⟩

theorem Working.healthy {s : CacheService} {ms : List Mutation} (h : Working cfg s.aof ms)
    (layout : ∃ c : Cache,
      ShardedCache.create cfg.hash cfg.capacity cfg.shards cfg.maxCacheBytes = .ok c ∧
        s.cache.layout = c.layout) : Healthy cfg s :=
  ⟨⟨h.ready, layout⟩, h.alive, by rw [CacheService.log, h.log_eq]; exact h.whole⟩

/-! ## Calls -/

theorem Prepared.working {s : CacheService} {env : Env} {ms : List Mutation} {aof : AofLogger}
    (ready : Prepared codec .faultless s env ms aof) (h : Healthy cfg s) :
    ∃ base, Base codec s env.snapshotClock base ∧ Working cfg aof base := by
  cases ready with
  | kept => exact ⟨s.log, Or.inl rfl, h.working⟩
  | compacted full result =>
    rcases h.working.rewrite result with ⟨_, hl, working⟩ | ⟨⟨_, hr⟩ | ⟨_, hr, _⟩, _⟩
    · exact ⟨_, Or.inr ⟨rfl, hl⟩, working⟩
    · cases hr
    · cases hr

theorem Prepared.size_ok {R : Regime} {s : CacheService} {env : Env} {ms : List Mutation}
    {aof : AofLogger} (ready : Prepared codec R s env ms aof) : ∃ n, size ms = .ok n := by
  cases ready with
  | kept roomy => exact needsRewrite_ok roomy
  | compacted full _ => exact needsRewrite_ok full

theorem settle_error {s : CacheService} {e : Exception} (h : e.cls ≠ .aofCapacityError) :
    s.settle (.throw e) = { s with failed := true } := if_neg h

theorem settle_capacity (s : CacheService) (what : String) :
    s.settle (.throw (aofCapacityError what)) = s := by
  simp [CacheService.settle, aofCapacityError]

theorem Healthy.settle {s : CacheService} (h : Healthy cfg s) (r : Res Exception (List Reply)) :
    Healthy cfg (s.settle r) := by
  unfold CacheService.settle
  split
  · split
    · exact h
    · exact Working.healthy (s := { s with failed := true }) h.working h.layout
  · exact h

theorem HandleBatchResult.faultless {s s' : CacheService} {env : Env} {inputs : List Bytes}
    {r : Res Exception (List Reply)}
    (result : HandleBatchResult codec .faultless s env inputs r s') (h : Healthy cfg s) :
    Healthy cfg s' ∧ BatchOutcome codec s env inputs r s' := by
  have healthy : ∀ {failed aof ms}, Working cfg aof ms →
      Healthy cfg { s with failed := failed, aof := aof } :=
    fun working => Working.healthy (s := { s with failed := _, aof := _ }) working h.layout
  cases result with
  | unavailable failed => exact ⟨h, .unavailable failed⟩
  | @committed _ s₁ alive result =>
    cases result with
    | unencodable e he =>
      have he := needsRewrite_error he
      rw [settle_error (size_error_cls he)]
      exact ⟨healthy h.working, .refused alive e (Or.inl he)⟩
    | @uncompacted r aof full hr result =>
      rcases h.working.rewrite result with ⟨rfl, _⟩ | ⟨⟨what, rfl⟩ | ⟨e, rfl, he⟩, rfl⟩
      · exact absurd rfl hr
      · rw [Res.map, settle_capacity]
        exact ⟨h, .rejected alive (Or.inl rfl) what rfl⟩
      · rw [Res.map, settle_error (size_error_cls he)]
        exact ⟨healthy h.working, .refused alive e (Or.inr he)⟩
    | @unlogged r aof aof' ready hr result =>
      obtain ⟨base, hb, working⟩ := ready.working h
      rcases working.logBatch result with ⟨rfl, _⟩ | ⟨what, rfl, working'⟩ | ⟨e, rfl, he, rfl⟩
      · exact absurd rfl hr
      · rw [Res.map, settle_capacity]
        exact ⟨healthy working', .rejected alive hb what working'.log_eq⟩
      · obtain ⟨n, hn⟩ := ready.size_ok
        rw [hn] at he
        cases he
    | @applied aof aof' ready result =>
      obtain ⟨base, hb, working⟩ := ready.working h
      rcases working.logBatch result with ⟨_, hl, working'⟩ | ⟨_, hr, _⟩ | ⟨_, hr, _⟩
      · refine ⟨?_, .done alive hb hl working'.log_eq rfl⟩
        obtain ⟨c, hc, layout⟩ := h.layout
        refine Healthy.settle ?_ _
        exact Working.healthy working' ⟨c, hc, (layout_applyAll _ _ _ _ _ _).trans layout⟩
      · cases hr
      · cases hr

theorem handleBatch_outcome {s : CacheService} (h : Healthy cfg s) (codec : Codec) (env : Env)
    (inputs : List Bytes) {o : Oracle} (ho : o.NoFailure) :
    Healthy cfg (handleBatch codec env inputs o s).2.2 ∧
      BatchOutcome codec s env inputs (handleBatch codec env inputs o s).1
        (handleBatch codec env inputs o s).2.2 := by
  have faultless : o.In .faultless := ho
  exact ((wp_handleBatch codec env inputs h.ready.live).run faultless).faultless h

/-- A mutation that does not encode disables the service. -/
theorem handleBatch_of_size_error {R : Regime} {s : CacheService} (live : s.aof.Live)
    (alive : s.failed = false) (env : Env) (inputs : List Bytes) {o : Oracle} (ho : o.In R)
    {e : Exception} (he : size (mutations (decodedBatch codec s.cache env inputs)) = .error e) :
    (handleBatch codec env inputs o s).1 = .throw e ∧
      (handleBatch codec env inputs o s).2.2 = { s with failed := true } := by
  have result := (wp_handleBatch codec env inputs live).run ho
  generalize (handleBatch codec env inputs o s).1 = r at result ⊢
  generalize (handleBatch codec env inputs o s).2.2 = s' at result ⊢
  have encodes : ∀ {n : Nat},
      size (mutations (decodedBatch codec s.cache env inputs)) = .ok n → False := by
    intro n hn
    rw [hn] at he
    cases he
  cases result with
  | unavailable failed =>
    rw [alive] at failed
    cases failed
  | committed _ result =>
    cases result with
    | unencodable e' he' =>
      cases (needsRewrite_error he').symm.trans he
      exact ⟨rfl, settle_error (size_error_cls he)⟩
    | uncompacted full => exact ((needsRewrite_ok full).elim fun _ => encodes).elim
    | unlogged ready => exact (ready.size_ok.elim fun _ => encodes).elim
    | applied ready => exact (ready.size_ok.elim fun _ => encodes).elim

theorem Created.healthy {clock : Nat → Millis} {fs : Fs} {trace : List Event} {s : CacheService}
    (h : Created codec cfg clock fs trace s) :
    Healthy cfg s ∧ s.log = logged ((fs.named cfg.path).getD []) := by
  obtain ⟨_, _, encodes, _⟩ := h.cache_replays
  obtain ⟨l, opened, haof⟩ := h.opened
  have log : s.log = logged ((fs.named cfg.path).getD []) := congrArg logged h.file_eq
  refine ⟨⟨h.sound, ?_, ?_⟩, log⟩
  · rw [haof]
    exact opened.failed_eq
  · rw [log, h.file_eq]
    exact encodes

/-- One step of a run without failures. -/
theorem Step.faultless {s s' : CacheService} {a : Action} (step : Step codec cfg .faultless s a s')
    (h : Healthy cfg s) :
    Healthy cfg s' ∧
      ((∃ env inputs r, a = .batch env inputs r ∧ BatchOutcome codec s env inputs r s') ∨
      (∃ clock r, a = .compact clock r ∧ s'.cache = s.cache ∧ s'.failed = s.failed ∧
        Base codec s clock s'.log ∧ (r = .ok () → s'.log = snapshotMutations codec s.cache clock)) ∨
      ∃ clock c, a = .restart clock ∧ s'.failed = false ∧ s'.log = s.log ∧
        ShardedCache.create cfg.hash cfg.capacity cfg.shards cfg.maxCacheBytes = .ok c ∧
        Replays clock 0 (logOps codec s.log) c s'.cache) := by
  rcases step.cases h.toSound with ⟨env, inputs, r, rfl, result⟩ |
    ⟨clock, r, aof, rfl, rfl, result⟩ | ⟨clock, rfl, created⟩
  · obtain ⟨healthy, outcome⟩ := result.faultless h
    exact ⟨healthy, Or.inl ⟨env, inputs, r, rfl, outcome⟩⟩
  · rcases h.working.rewrite result with ⟨rfl, hl, working⟩ | ⟨bad, rfl⟩
    · refine ⟨Working.healthy working h.layout, Or.inr (Or.inl ⟨clock, _, rfl, rfl, rfl, ?_, ?_⟩)⟩
      · exact Or.inr ⟨working.log_eq, by rw [CacheService.log, working.log_eq]; exact hl⟩
      · exact fun _ => working.log_eq
    · refine ⟨h, Or.inr (Or.inl ⟨clock, r, rfl, rfl, rfl, Or.inl rfl, ?_⟩)⟩
      rintro rfl
      rcases bad with ⟨_, hr⟩ | ⟨_, hr, _⟩ <;> cases hr
  · obtain ⟨healthy, log⟩ := created.healthy
    obtain ⟨c, hc, _, _, replays⟩ := created.cache_replays
    rw [h.ready.named_eq] at log replays
    exact ⟨healthy, Or.inr (Or.inr ⟨clock, c, rfl, created.alive, log, hc, replays⟩)⟩

/-! ## Properties of all operations -/

/-- Every operation in the log and every entry in the cache satisfies `P`. -/
structure Throughout (codec : Codec) (P : Op → Prop) (s : CacheService) : Prop where
  log : ∀ op ∈ logOps codec s.log, P op
  held : ∀ e, s.cache.Holds e → P (storing e)

variable {P : Op → Prop} {s s' : CacheService}

theorem Base.throughout (lawful : codec.Lawful) {clock : Nat → Nat → Millis}
    {base : List Mutation} (hb : Base codec s clock base) (h : Throughout codec P s) :
    ∀ op ∈ logOps codec base, P op := by
  rcases hb with rfl | ⟨rfl, hl⟩
  · exact h.log
  · rw [snapshotMutations, logOps_snapshot lawful hl]
    intro op hop
    obtain ⟨e, he, rfl⟩ := List.mem_map.mp hop
    exact h.held e (ShardedCache.holds_of_mem_snapshot he)

theorem held_applied (codec : Codec) (env : Env) (disk : AofStats) {ds : List Decoded} {c : Cache}
    (held : ∀ e, c.Holds e → P (storing e)) (batch : ∀ op ∈ batchOps ds, P op) :
    ∀ e, (applied codec env disk ds c).2.Holds e → P (storing e) := by
  have next : ∀ {ops : List Op} {c : Cache} {op : Option Op} {c' : Cache},
      ((∀ o ∈ ops, P o) → ∀ e, c.Holds e → P (storing e)) → Evolves c op c' →
      (∀ o ∈ ops ++ op.toList, P o) → ∀ e, c'.Holds e → P (storing e) := by
    intro ops c op c' known evolves all e he
    rcases evolves.holds he with rfl | ⟨old, _⟩
    · exact all _ (by simp)
    · exact known (fun o ho => all o (by simp [ho])) e old
  obtain ⟨done, before, reached, _⟩ := applyAll_evolves codec
    (fun ops c => (∀ o ∈ ops, P o) → ∀ e, c.Holds e → P (storing e)) next
    env.applyClock env.metrics disk 0 ds [] (fun _ => held)
  exact reached fun op hop => batch op (before.subset hop)

theorem Replays.held {clock : Nat → Millis} {n : Nat} {ops : List Op} {c c' : Cache}
    (h : Replays clock n ops c c') (held : ∀ e, c.Holds e → P (storing e))
    (all : ∀ op ∈ ops, P op) : ∀ e, c'.Holds e → P (storing e) := by
  induction h with
  | nil => exact held
  | @cons n op ops c c' c'' head _ ih =>
    refine ih (fun e he => ?_) fun o ho => all o (by simp [ho])
    rcases (Evolves.op _ head).holds he with same | ⟨old, _⟩
    · cases same
      exact all _ (by simp)
    · exact held e old

theorem not_holds_create {c : Cache}
    (h : ShardedCache.create cfg.hash cfg.capacity cfg.shards cfg.maxCacheBytes = .ok c)
    (e : Entry Bytes Bytes) : ¬ c.Holds e := by
  rintro ⟨shard, hs, he⟩
  rw [ShardedCache.create_empty h shard hs] at he
  simp at he

theorem BatchOutcome.throughout (lawful : codec.Lawful) {env : Env} {inputs : List Bytes}
    {r : Res Exception (List Reply)} (outcome : BatchOutcome codec s env inputs r s')
    (h : Throughout codec P s)
    (batch : ∀ op ∈ batchOps (decodedBatch codec s.cache env inputs), P op) :
    Throughout codec P s' := by
  cases outcome with
  | unavailable => exact h
  | refused alive e he => exact ⟨h.log, h.held⟩
  | rejected alive hb what log =>
    refine ⟨?_, h.held⟩
    rw [CacheService.log, log]
    exact hb.throughout lawful h
  | @done alive base hb hl aof log r cache happlied =>
    obtain ⟨aof_eq, cache_eq⟩ := settle_cases { s with aof := aof, cache := cache } (.ofExcept r)
    refine ⟨?_, ?_⟩
    · rw [CacheService.log, aof_eq, log, logOps_append,
        logOps_mutations lawful (decodedBatch_from s.cache env inputs) hl]
      intro op hop
      rcases List.mem_append.mp hop with hop | hop
      · exact hb.throughout lawful h op hop
      · exact batch op hop
    · have held := held_applied codec env aof.stats h.held batch
      rw [happlied] at held
      rw [cache_eq]
      exact held

theorem Step.throughout (lawful : codec.Lawful) {a : Action}
    (step : Step codec cfg .faultless s a s') (healthy : Healthy cfg s) (h : Throughout codec P s)
    (batch : ∀ env inputs r, a = .batch env inputs r →
      ∀ op ∈ batchOps (decodedBatch codec s.cache env inputs), P op) : Throughout codec P s' := by
  rcases (step.faultless healthy).2 with ⟨env, inputs, r, rfl, outcome⟩ |
    ⟨clock, r, rfl, cache, _, hb, _⟩ | ⟨clock, c, rfl, _, log, hc, replays⟩
  · exact outcome.throughout lawful h (batch env inputs r rfl)
  · exact ⟨hb.throughout lawful h, cache ▸ h.held⟩
  · exact ⟨log ▸ h.log, replays.held (fun e he => absurd he (not_holds_create hc e)) h.log⟩

theorem Created.throughout {clock : Nat → Millis} {fs : Fs} {trace : List Event}
    (h : Created codec cfg clock fs trace s)
    (all : ∀ op ∈ logOps codec (logged ((fs.named cfg.path).getD [])), P op) :
    Throughout codec P s := by
  obtain ⟨c, hc, _, _, replays⟩ := h.cache_replays
  exact ⟨h.healthy.2 ▸ all, replays.held (fun e he => absurd he (not_holds_create hc e)) all⟩

/-- What holds of the operations in the initial log and of those in every batch holds of
everything in the log and in the cache. -/
theorem Calls.throughout (lawful : codec.Lawful) {clock : Nat → Millis} {fs : Fs}
    {s₀ : CacheService} (created : Created codec cfg clock fs [] s₀)
    (initial : ∀ op ∈ logOps codec (logged ((fs.named cfg.path).getD [])), P op)
    (batch : ∀ c env inputs, ∀ op ∈ batchOps (decodedBatch codec c env inputs), P op)
    {trace : List (CacheService × Action)} (run : Calls codec cfg .faultless s₀ trace s) :
    Healthy cfg s ∧ Throughout codec P s := by
  refine run.invariant (fun _ s => Healthy cfg s ∧ Throughout codec P s) (fun _ _ => True)
    ⟨created.healthy.1, created.throughout initial⟩ ?_ fun _ _ => trivial
  rintro _ s a s' ⟨healthy, throughout⟩ _ step
  exact ⟨(step.faultless healthy).1, step.throughout lawful healthy throughout
    fun env inputs _ _ => batch s.cache env inputs⟩

end KVRPC.Service
