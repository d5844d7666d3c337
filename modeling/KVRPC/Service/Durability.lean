import KVRPC.Service.Runs

/-!
# What survives a crash

The logger's trace tells when an append starts and returns and when a rewrite is published
and returns. `settled` reads off it what the log must hold and `pending` the batch that may
be there in part. Whatever fails and wherever the process is killed, the file is what is
settled followed by some octets of what is pending.
-/
namespace KVRPC.Service

open Library Aof Storage

variable {codec : Codec} {cfg : Config} {R : Regime}

/-! ## Traces -/

/-- Every append that started has returned, and so has every rewrite that was published. -/
inductive Complete : List Event → Prop where
  | nil : Complete []
  | append {es : List Event} (h : Complete es) (ms : List Mutation) :
      Complete (es ++ [.appending ms] ++ [.appended ms])
  | rewrite {es : List Event} (h : Complete es) (snapshot : List Mutation) :
      Complete (es ++ [.published snapshot] ++ [.rewritten snapshot])

/-- The initial log or the last published snapshot, followed by the batches whose append has
returned since. -/
def settled (initial : List Mutation) (es : List Event) : List Mutation :=
  es.foldl (fun log e => match e with
    | .appended ms => log ++ ms
    | .published snapshot => snapshot
    | .appending _ | .rewritten _ => log) initial

/-- The batch of an append that has not returned. -/
def pending (es : List Event) : List Mutation :=
  match es.getLast? with
  | some (.appending ms) => ms
  | _ => []

variable {initial ms snapshot : List Mutation} {es : List Event}

theorem settled_appending : settled initial (es ++ [.appending ms]) = settled initial es := by
  simp [settled]

theorem settled_appended : settled initial (es ++ [.appended ms]) = settled initial es ++ ms := by
  simp [settled]

theorem settled_published : settled initial (es ++ [.published snapshot]) = snapshot := by
  simp [settled]

theorem settled_rewritten : settled initial (es ++ [.rewritten ms]) = settled initial es := by
  simp [settled]

theorem pending_snoc (es : List Event) (e : Event) :
    pending (es ++ [e]) = match e with
      | .appending ms => ms
      | _ => [] := by
  cases e <;> simp [pending]

theorem Complete.pending_eq (h : Complete es) : pending es = [] := by
  cases h with
  | nil => rfl
  | append => rw [pending_snoc]
  | rewrite => rw [pending_snoc]

theorem not_complete_appending : ¬ Complete (es ++ [.appending ms]) := by
  intro h
  generalize heq : es ++ [.appending ms] = es' at h
  cases h <;> simpa using congrArg List.getLast? heq

theorem not_complete_published : ¬ Complete (es ++ [.published snapshot]) := by
  intro h
  generalize heq : es ++ [.published snapshot] = es' at h
  cases h <;> simpa using congrArg List.getLast? heq

/-! ## The logger -/

/-- The file under the log's name holds what is settled and part of what is pending. -/
def Kept (path : String) (initial : List Mutation) (l : AofLogger) : Prop :=
  ∃ whole torn, (l.fs.named path).getD [] = whole ++ torn ∧
    Encodes (settled initial l.trace) whole ∧ torn <+: records (pending l.trace) ∧
    ∀ m ∈ pending l.trace, Loggable m

structure Tracked (cfg : Config) (initial : List Mutation) (l : AofLogger) : Prop where
  ready : Ready cfg l
  kept : Kept cfg.path initial l
  complete_iff : Complete l.trace ↔ l.failed = false

variable {l l' : AofLogger}

theorem Tracked.encodes (h : Tracked cfg initial l) (alive : l.failed = false) :
    Encodes (settled initial l.trace) l.file := by
  obtain ⟨whole, torn, split, encodes, part, _⟩ := h.kept
  rw [(h.complete_iff.mpr alive).pending_eq, records_nil, List.prefix_nil] at part
  rw [h.ready.named_eq, part, List.append_nil] at split
  rwa [split]

/-- A log that is whole and settled. -/
theorem kept_of_encodes (h : Encodes (settled initial l.trace) ((l.fs.named cfg.path).getD []))
    (done : pending l.trace = []) : Kept cfg.path initial l := by
  refine ⟨_, [], (List.append_nil _).symm, h, List.nil_prefix, ?_⟩
  rw [done]
  simp

/-- An append that stopped somewhere. -/
theorem Tracked.kept_torn (h : Tracked cfg initial l) (hf : l.failed = false)
    (hl : ∀ m ∈ ms, Loggable m) {p : Bytes} (hp : p <+: records ms) (failed : Bool) :
    Kept cfg.path initial (l.afterTorn ms p failed) := by
  have attached := h.ready.live.attached.afterTorn ms p failed
  have trace : (l.afterTorn ms p failed).trace = l.trace ++ [.appending ms] := rfl
  refine ⟨l.file, p, ?_, ?_, ?_, ?_⟩
  · rw [← AofLogger.file_afterTorn h.ready.atEnd ms p failed, ← attached.disk_eq,
      ← h.ready.filename_eq]
    rfl
  · rw [trace, settled_appending]
    exact h.encodes hf
  · rw [trace, pending_snoc]
    exact hp
  · rw [trace, pending_snoc]
    exact hl

theorem Tracked.logBatch (h : Tracked cfg initial l) {elapsed : Nat} {r : Res Exception Unit}
    (result : AofLogger.LogBatchResult R l ms elapsed r l') :
    Kept cfg.path initial l' ∧ (r ≠ .crash → Tracked cfg initial l') ∧ l.trace <+: l'.trace ∧
      (r = .ok () → ms ≠ [] → l.failed = false ∧
        l'.trace = l.trace ++ [.appending ms] ++ [.appended ms]) := by
  have ready := h.ready.logBatch result
  cases result with
  | empty hms => exact ⟨h.kept, fun _ => h, List.prefix_rfl, fun _ hne => absurd hms hne⟩
  | unavailable | unencodable | overCapacity =>
    exact ⟨h.kept, fun _ => h, List.prefix_rfl, by simp⟩
  | appended hne hs hf hl fits =>
    have ready := ready (by simp)
    have kept : Kept cfg.path initial (l.afterAppend ms elapsed) := by
      refine kept_of_encodes ?_ (pending_snoc _ _)
      have trace : (l.afterAppend ms elapsed).trace =
        l.trace ++ [.appending ms] ++ [.appended ms] := rfl
      rw [ready.named_eq, AofLogger.file_afterAppend h.ready.atEnd, trace, settled_appended,
        settled_appending]
      exact (h.encodes hf).append (encodes_records hl)
    refine ⟨kept, fun _ => ⟨ready, kept, ?_⟩, ?_, fun _ _ => ⟨hf, rfl⟩⟩
    · exact iff_of_true ((h.complete_iff.mpr hf).append ms) hf
    · exact (List.prefix_append _ _).trans (List.prefix_append _ _)
  | torn hne hs hf hl fits faulty p hp e =>
    have ready := ready (by simp)
    have kept := h.kept_torn hf hl hp true
    refine ⟨kept, fun _ => ⟨ready, kept, ?_⟩, List.prefix_append _ _, by simp⟩
    exact iff_of_false not_complete_appending (by simp [AofLogger.afterTorn])
  | killed hne hs hf hl fits faulty p hp =>
    exact ⟨h.kept_torn hf hl hp false, fun alive => absurd rfl alive, List.prefix_append _ _,
      by simp⟩

theorem Tracked.rewrite (h : Tracked cfg initial l) {r : Res Exception Unit}
    (result : AofLogger.RewriteResult R l snapshot r l') :
    Kept cfg.path initial l' ∧ (r ≠ .crash → Tracked cfg initial l') ∧ l.trace <+: l'.trace ∧
      (r = .ok () → l.failed = false) := by
  have ready := h.ready.rewrite result
  have published := AofLogger.afterPublish_file l snapshot
  have prefixed : l.trace <+: l.trace ++ [.published snapshot] := List.prefix_append _ _
  cases result with
  | unavailable | unencodable | overCapacity =>
    exact ⟨h.kept, fun _ => h, List.prefix_rfl, by simp⟩
  | rewritten hf hl fits =>
    have ready := ready (by simp)
    have kept : Kept cfg.path initial (l.afterRewrite snapshot) := by
      refine kept_of_encodes ?_ (pending_snoc _ _)
      have trace : (l.afterRewrite snapshot).trace =
        l.trace ++ [.published snapshot] ++ [.rewritten snapshot] := rfl
      have file : (l.afterRewrite snapshot).file = records snapshot := published
      rw [ready.named_eq, file, trace, settled_rewritten, settled_published]
      exact encodes_records hl
    refine ⟨kept, fun _ => ⟨ready, kept, ?_⟩, prefixed.trans (List.prefix_append _ _), fun _ => hf⟩
    exact iff_of_true ((h.complete_iff.mpr hf).rewrite snapshot) hf
  | unpublished hf hl fits faulty _ hr fs keeps =>
    have kept : Kept cfg.path initial { l with fs := fs } := by
      have same : (fs.named cfg.path).getD [] = (l.fs.named cfg.path).getD [] := by
        rw [h.ready.named_eq, ← h.ready.filename_eq]
        exact AofLogger.disk_keeps h.ready.live.attached keeps
      obtain ⟨whole, torn, split, rest⟩ := h.kept
      exact ⟨whole, torn, same.trans split, rest⟩
    exact ⟨kept, fun alive => ⟨ready alive, kept, h.complete_iff⟩, List.prefix_rfl,
      fun hok => absurd hok hr⟩
  | unsynced hf hl fits faulty e =>
    have ready := ready (by simp)
    have kept : Kept cfg.path initial { l.afterPublish snapshot with failed := true } := by
      refine kept_of_encodes ?_ (pending_snoc _ _)
      have file : ({ l.afterPublish snapshot with failed := true } : AofLogger).file =
        records snapshot := published
      have trace : ({ l.afterPublish snapshot with failed := true } : AofLogger).trace =
        l.trace ++ [.published snapshot] := rfl
      rw [ready.named_eq, file, trace, settled_published]
      exact encodes_records hl
    refine ⟨kept, fun _ => ⟨ready, kept, ?_⟩, prefixed, by simp⟩
    exact iff_of_false not_complete_published (by simp)
  | killed hf hl fits faulty _ hl' =>
    have kept : l'.trace = l.trace ++ [.published snapshot] →
        (l'.fs.named cfg.path).getD [] = records snapshot → Kept cfg.path initial l' := by
      intro trace disk
      refine kept_of_encodes ?_ (by rw [trace]; exact pending_snoc _ _)
      rw [disk, trace, settled_published]
      exact encodes_records hl
    refine ⟨?_, fun alive => absurd rfl alive, ?_, by simp⟩
    · rcases hl' with rfl | rfl
      · exact kept rfl (h.ready.filename_eq ▸ AofLogger.disk_published l snapshot l.trace)
      · refine kept rfl ?_
        rw [← h.ready.filename_eq, ← published]
        exact (AofLogger.afterPublish_attached l snapshot).disk_eq
    · rcases hl' with rfl | rfl <;> exact prefixed

/-! ## The service -/

/-- The events of a batch that was acknowledged: its append has returned, and everything
before it had. -/
def Acknowledged (before after : List Event) (ms : List Mutation) : Prop :=
  Complete before ∧
    ∃ es, before <+: es ∧ es ++ [.appending ms] ++ [.appended ms] <+: after

theorem Tracked.prepared {s : CacheService} {env : Env} {aof : AofLogger}
    (h : Tracked cfg initial s.aof) (ready : Prepared codec R s env ms aof) :
    Tracked cfg initial aof ∧ s.aof.trace <+: aof.trace ∧
      (aof.failed = false → s.aof.failed = false) := by
  cases ready with
  | kept => exact ⟨h, List.prefix_rfl, id⟩
  | compacted full result =>
    obtain ⟨_, tracked, longer, alive⟩ := h.rewrite result
    exact ⟨tracked (by simp), longer, fun _ => alive rfl⟩

theorem Tracked.commit {s s' : CacheService} {env : Env} {ds : List Decoded}
    {r : Res Exception (List Reply)} (h : Tracked cfg initial s.aof)
    (result : CommitResult codec R s env ds r s') :
    Kept cfg.path initial s'.aof ∧ (r ≠ .crash → Tracked cfg initial s'.aof) ∧
      s.aof.trace <+: s'.aof.trace ∧
      (∀ replies, r = .ok replies → mutations ds ≠ [] →
        Acknowledged s.aof.trace s'.aof.trace (mutations ds)) := by
  cases result with
  | unencodable => exact ⟨h.kept, fun _ => h, List.prefix_rfl, by simp⟩
  | @uncompacted r aof full hr result =>
    obtain ⟨kept, tracked, longer, _⟩ := h.rewrite result
    refine ⟨kept, fun alive => tracked (Res.map_ne_crash alive), longer, ?_⟩
    intro replies hok
    cases r with
    | ok => exact absurd rfl hr
    | throw | crash => cases hok
  | @unlogged r aof aof' ready hr result =>
    obtain ⟨tracked, longer, _⟩ := h.prepared ready
    obtain ⟨kept, tracked', longer', _⟩ := tracked.logBatch result
    refine ⟨kept, fun alive => tracked' (Res.map_ne_crash alive), longer.trans longer', ?_⟩
    intro replies hok
    cases r with
    | ok => exact absurd rfl hr
    | throw | crash => cases hok
  | @applied aof aof' ready result =>
    obtain ⟨tracked, longer, alive⟩ := h.prepared ready
    obtain ⟨kept, tracked', longer', appended⟩ := tracked.logBatch result
    refine ⟨kept, fun _ => tracked' (by simp), longer.trans longer', fun replies _ hne => ?_⟩
    obtain ⟨working, trace⟩ := appended rfl hne
    exact ⟨h.complete_iff.mpr (alive working), aof.trace, longer, trace ▸ List.prefix_rfl⟩

theorem Tracked.handleBatch {s s' : CacheService} {env : Env} {inputs : List Bytes}
    {r : Res Exception (List Reply)} (h : Tracked cfg initial s.aof)
    (result : HandleBatchResult codec R s env inputs r s') :
    Kept cfg.path initial s'.aof ∧ (r ≠ .crash → Tracked cfg initial s'.aof) ∧
      s.aof.trace <+: s'.aof.trace ∧
      (∀ replies, r = .ok replies → mutations (decodedBatch codec s.cache env inputs) ≠ [] →
        Acknowledged s.aof.trace s'.aof.trace
          (mutations (decodedBatch codec s.cache env inputs))) := by
  cases result with
  | unavailable => exact ⟨h.kept, fun _ => h, List.prefix_rfl, by simp⟩
  | @committed _ s₁ alive result =>
    rw [(settle_cases s₁ r).1]
    exact h.commit result

theorem Created.tracked {clock : Nat → Millis} {fs : Fs} {s : CacheService}
    (h : Created codec cfg clock fs [] s) :
    Tracked cfg (logged ((fs.named cfg.path).getD [])) s.aof := by
  obtain ⟨_, _, encodes, _⟩ := h.cache_replays
  obtain ⟨l, opened, haof⟩ := h.opened
  have trace : s.aof.trace = [] := by rw [haof]; exact opened.trace_eq
  refine ⟨h.ready, kept_of_encodes ?_ ?_, iff_of_true ?_ ?_⟩
  · rw [h.ready.named_eq, h.file_eq, trace]
    exact encodes
  · rw [trace]
    rfl
  · rw [trace]
    exact .nil
  · rw [haof]
    exact opened.failed_eq

/-- Every acknowledged batch of a run, with the events that stand for it. -/
def AllAcknowledged (codec : Codec) (trace : List (CacheService × Action)) (events : List Event) :
    Prop :=
  ∀ s env inputs replies, (s, Action.batch env inputs (.ok replies)) ∈ trace →
    mutations (decodedBatch codec s.cache env inputs) ≠ [] →
    Acknowledged s.aof.trace events (mutations (decodedBatch codec s.cache env inputs))

theorem AllAcknowledged.snoc {trace : List (CacheService × Action)} {events events' : List Event}
    (h : AllAcknowledged codec trace events) (longer : events <+: events') {s : CacheService}
    {a : Action} (last : ∀ env inputs replies, a = .batch env inputs (.ok replies) →
      mutations (decodedBatch codec s.cache env inputs) ≠ [] →
      Acknowledged s.aof.trace events' (mutations (decodedBatch codec s.cache env inputs))) :
    AllAcknowledged codec (trace ++ [(s, a)]) events' := by
  intro s₁ env inputs replies mem hne
  rcases List.mem_append.mp mem with mem | mem
  · obtain ⟨complete, es, before, after⟩ := h s₁ env inputs replies mem hne
    exact ⟨complete, es, before, after.trans longer⟩
  · cases List.mem_singleton.mp mem
    exact last env inputs replies rfl hne

/-- A process that lives from its construction to its end, whatever fails on the way. -/
theorem Calls.tracked {clock : Nat → Millis} {fs : Fs} {s₀ : CacheService}
    (created : Created codec cfg clock fs [] s₀) {trace : List (CacheService × Action)}
    {s : CacheService} (run : Calls codec cfg .faulty s₀ trace s)
    (lifetime : ∀ e ∈ trace, ∀ clock, e.2 ≠ .restart clock) :
    Kept cfg.path (logged ((fs.named cfg.path).getD [])) s.aof ∧
      AllAcknowledged codec trace s.aof.trace := by
  refine run.safe
    (fun trace s => Sound cfg s ∧ Tracked cfg (logged ((fs.named cfg.path).getD [])) s.aof ∧
      AllAcknowledged codec trace s.aof.trace)
    (fun trace s => Kept cfg.path (logged ((fs.named cfg.path).getD [])) s.aof ∧
      AllAcknowledged codec trace s.aof.trace)
    (fun _ a => ∀ clock, a ≠ .restart clock) ?_ ?_ ?_ lifetime
  · exact ⟨created.sound, created.tracked, fun _ _ _ _ mem => by simp at mem⟩
  · rintro _ s ⟨_, tracked, acknowledged⟩
    exact ⟨tracked.kept, acknowledged⟩
  · rintro trace s a s' ⟨sound, tracked, acknowledged⟩ alive step
    have sound' := step.sound sound
    rcases step.cases sound with ⟨env, inputs, r, rfl, result⟩ |
      ⟨clock, r, aof, rfl, rfl, result⟩ | ⟨clock, rfl, _⟩
    · obtain ⟨kept, tracked', longer, acks⟩ := tracked.handleBatch result
      have acknowledged' :
          AllAcknowledged codec (trace ++ [(s, .batch env inputs r)]) s'.aof.trace :=
        acknowledged.snoc longer fun _ _ replies heq => by
          cases heq
          exact acks replies rfl
      exact ⟨⟨kept, acknowledged'⟩, fun h => ⟨sound' h, tracked' h, acknowledged'⟩⟩
    · obtain ⟨kept, tracked', longer, _⟩ := tracked.rewrite result
      have acknowledged' : AllAcknowledged codec (trace ++ [(s, .compact clock r)]) aof.trace :=
        acknowledged.snoc longer fun _ _ _ heq => by cases heq
      exact ⟨⟨kept, acknowledged'⟩, fun h => ⟨sound' h, tracked' h, acknowledged'⟩⟩
    · exact absurd rfl (alive clock)

/-! ## Survivors -/

/-- What is read from a log that is kept. -/
theorem Kept.scan {path : String} (h : Kept path initial l) :
    ∃ q whole rest, (l.fs.named path).getD [] = whole ++ rest ∧
      Records.scan parse ((l.fs.named path).getD []) = (settled initial l.trace ++ q, rest) ∧
      Encodes (settled initial l.trace ++ q) whole ∧ q <+: pending l.trace ∧
      (rest ≠ [] → ∃ m, q ++ [m] <+: pending l.trace ∧ rest <+: record m ∧ rest ≠ record m) := by
  obtain ⟨whole, torn, split, encodes, part, loggable⟩ := h
  have each : ∀ m ∈ pending l.trace, Records.Record parse m (record m) :=
    fun m hm => record_iff_isRecord.mpr ⟨loggable m hm, Or.inl rfl⟩
  obtain ⟨q, rest, read, before, rfl, left⟩ := Records.scan_torn parse_selfDelimiting each part
  have done : Encodes q (records q) := encodes_records fun m hm => loggable m (before.subset hm)
  refine ⟨q, whole ++ records q, rest, ?_, ?_, encodes.append done, before, left⟩
  · rw [split, List.append_assoc]
    rfl
  · obtain ⟨rs, hrs, rfl⟩ := encodes
    rw [split, Records.scan_append parse_selfDelimiting (forall₂_record_iff.mpr hrs), read]

/-- **Durability.** However a process ends, its log replays as the last published snapshot,
the batches logged since, and a prefix of at most one more; replay throws exactly if part of
a record is left over. Acknowledged batches are among those logged, and nothing is
acknowledged after an append or a published rewrite that did not return. -/
theorem log_survives {fs : Fs} (hb : fs.Bound cfg.path) {clock : Nat → Millis} {o : Oracle}
    {s₀ : CacheService} (created : (create codec cfg clock fs [] o).1 = .ok s₀)
    {trace : List (CacheService × Action)} {s : CacheService}
    (run : Calls codec cfg .faulty s₀ trace s)
    (lifetime : ∀ e ∈ trace, ∀ clock, e.2 ≠ .restart clock)
    {β : Type} {callback : AofLogger.Callback β} (quiet : ∀ m b, (callback m b).1 = .ok ())
    (f : LogFile ((s.aof.fs.named cfg.path).getD [])) {o' : Oracle} (ho' : o'.NoFailure) (b : β) :
    let result := (f.replay o' (AofLogger.observed callback) ([], b)).1
    let delivered := (f.replay o' (AofLogger.observed callback) ([], b)).2.1
    (∃ q whole rest, (s.aof.fs.named cfg.path).getD [] = whole ++ rest ∧ Encodes delivered whole ∧
      delivered = settled (logged ((fs.named cfg.path).getD [])) s.aof.trace ++ q ∧
      q <+: pending s.aof.trace ∧
      (result = .ok () ∧ rest = [] ∨ (∃ e, result = .throw e) ∧ rest ≠ [] ∧
        ∃ m, q ++ [m] <+: pending s.aof.trace ∧ rest <+: record m ∧ rest ≠ record m)) ∧
    ∀ s₁ env inputs replies, (s₁, Action.batch env inputs (.ok replies)) ∈ trace →
      mutations (decodedBatch codec s₁.cache env inputs) ≠ [] →
      Complete s₁.aof.trace ∧ ∃ es, s₁.aof.trace <+: es ∧
        es ++ [.appending (mutations (decodedBatch codec s₁.cache env inputs))] ++
          [.appended (mutations (decodedBatch codec s₁.cache env inputs))] <+: s.aof.trace := by
  dsimp only
  rw [f.replay_eq ho']
  obtain ⟨result, delivered⟩ :=
    replayOutcome_observed quiet ((s.aof.fs.named cfg.path).getD []) b
  obtain ⟨kept, acknowledged⟩ := run.tracked (created_of_create hb created).1 lifetime
  refine ⟨?_, acknowledged⟩
  obtain ⟨q, whole, rest, split, read, encodes, before, left⟩ := kept.scan
  obtain ⟨_, _, _, stop⟩ :=
    Records.scan_sound parse_selfDelimiting ((s.aof.fs.named cfg.path).getD [])
  rw [result, delivered]
  rw [read] at stop ⊢
  refine ⟨q, whole, rest, split, encodes, rfl, before, ?_⟩
  by_cases hrest : rest = []
  · exact Or.inl ⟨(remainder_ok_iff stop).mpr hrest, hrest⟩
  · exact Or.inr ⟨remainder_throw stop hrest, hrest, left hrest⟩

theorem log_survives_torn : ∃ s₀ r s,
    (create wireCodec small frozen.applyClock AofLogger.emptyFs [] .reliable).1 = .ok s₀ ∧
      Calls wireCodec small .faulty s₀
        [(s₀, .batch frozen [Message.frame .set [1] [2]] r)] s ∧
      ∃ q whole rest, (s.aof.fs.named small.path).getD [] = whole ++ rest ∧
        Encodes (settled [] s.aof.trace ++ q) whole ∧ q <+: pending s.aof.trace := by
  obtain ⟨c, hc, _⟩ := small_cache
  have hb := AofLogger.emptyFs_bound small.path
  obtain ⟨s₀, created, _⟩ := create_on_empty wireCodec hb rfl frozen.applyClock
    (o := .reliable) trivial hc
  have run : Calls wireCodec small .faulty s₀ [_] _ := .snoc .nil (by simp)
    (.batch frozen [Message.frame .set [1] [2]] (.next (.short 4) .crash) trivial)
  have quiet : ∀ m b, ((fun _ b => (.ok (), b) : AofLogger.Callback Unit) m b).1 = .ok () :=
    fun _ _ => rfl
  have reliable : Oracle.reliable.NoFailure := trivial
  have survives := log_survives hb created run (by simp) quiet (LogFile.only _) reliable ()
  obtain ⟨⟨q, whole, rest, split, encodes, delivered, before, _⟩, _⟩ := survives
  have empty : logged ((AofLogger.emptyFs.named small.path).getD []) = [] := logged_nil
  rw [delivered, empty] at encodes
  exact ⟨s₀, _, _, created, run, q, whole, rest, split, encodes, before⟩

end KVRPC.Service
