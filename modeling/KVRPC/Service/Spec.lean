import KVRPC.Aof.Lifetime
import KVRPC.Service.Decode

/-!
# Specifications of the service's methods

One relation for each method lists how a call can end and what it leaves behind. The
results of the logger's methods appear in them as they are.
-/
namespace KVRPC.Service

open Library Aof Storage

variable {codec : Codec} {R : Regime}

/-! ## Batches -/

/-- The logger the batch is handed to: as it was, or after a compaction that returned. -/
inductive Prepared (codec : Codec) (R : Regime) (s : CacheService) (env : Env)
    (ms : List Mutation) : AofLogger → Prop where
  | kept (roomy : s.aof.needsRewrite ms = .ok false) : Prepared codec R s env ms s.aof
  | compacted {aof : AofLogger} (full : s.aof.needsRewrite ms = .ok true)
      (result : AofLogger.RewriteResult R s.aof
        (snapshotMutations codec s.cache env.snapshotClock) (.ok ()) aof) :
      Prepared codec R s env ms aof

/-- The loop after the batch is logged. -/
abbrev applied (codec : Codec) (env : Env) (disk : AofStats) (ds : List Decoded) (cache : Cache) :
    Except Exception (List Reply) × Cache :=
  applyAll codec env.applyClock env.metrics disk 0 ds cache

inductive CommitResult (codec : Codec) (R : Regime) (s : CacheService) (env : Env)
    (ds : List Decoded) : Res Exception (List Reply) → CacheService → Prop where
  | unencodable (e : Exception) (h : s.aof.needsRewrite (mutations ds) = .error e) :
      CommitResult codec R s env ds (.throw e) s
  | uncompacted {r : Res Exception Unit} {aof : AofLogger}
      (full : s.aof.needsRewrite (mutations ds) = .ok true) (hr : r ≠ .ok ())
      (result : AofLogger.RewriteResult R s.aof
        (snapshotMutations codec s.cache env.snapshotClock) r aof) :
      CommitResult codec R s env ds (r.map fun _ => []) { s with aof := aof }
  | unlogged {r : Res Exception Unit} {aof aof' : AofLogger}
      (ready : Prepared codec R s env (mutations ds) aof) (hr : r ≠ .ok ())
      (result : AofLogger.LogBatchResult R aof (mutations ds) env.syncUs r aof') :
      CommitResult codec R s env ds (r.map fun _ => []) { s with aof := aof' }
  | applied {aof aof' : AofLogger} (ready : Prepared codec R s env (mutations ds) aof)
      (result : AofLogger.LogBatchResult R aof (mutations ds) env.syncUs (.ok ()) aof') :
      CommitResult codec R s env ds (.ofExcept (applied codec env aof'.stats ds s.cache).1)
        { s with aof := aof', cache := (applied codec env aof'.stats ds s.cache).2 }

theorem Prepared.live {s : CacheService} {env : Env} {ms : List Mutation} {aof : AofLogger}
    (h : Prepared codec R s env ms aof) (live : s.aof.Live) : aof.Live := by
  cases h with
  | kept => exact live
  | compacted full result => exact (result.bounded live).2 (by simp)

theorem wp_onAof {α : Type} {m : AofM α} {Q : Res Exception α → CacheService → Prop}
    {s : CacheService} (h : Sys.wp R m (fun r aof => Q r { s with aof := aof }) s.aof) :
    Sys.wp R (onAof m) Q s := Sys.wp_zoom h

theorem wp_compactLocked (clock : Nat → Nat → Millis) {s : CacheService} (live : s.aof.Live) :
    Sys.wp R (compactLocked codec clock) (fun r s' => ∃ aof, s' = { s with aof := aof } ∧
      AofLogger.RewriteResult R s.aof (snapshotMutations codec s.cache clock) r aof) s := by
  refine Sys.wp_get_bind (wp_onAof ((AofLogger.wp_rewrite _ live.attached).mono ?_))
  exact fun r aof result => ⟨aof, rfl, result⟩

theorem wp_applyBatch (env : Env) (ds : List Decoded) {s : CacheService}
    {Q : Res Exception (List Reply) → CacheService → Prop}
    (h : Q (.ofExcept (applied codec env s.aof.stats ds s.cache).1)
      { s with cache := (applied codec env s.aof.stats ds s.cache).2 }) :
    Sys.wp R (applyBatch codec env ds) Q s := by
  intro o ho
  unfold applyBatch
  unfold applied at h
  generalize applyAll codec env.applyClock env.metrics s.aof.stats 0 ds s.cache = out at h ⊢
  obtain ⟨_ | _, cache⟩ := out
  · exact ⟨ho, h⟩
  · exact ⟨ho, h⟩

/-- What is left to do once the logger is ready. -/
theorem wp_logAndApply (env : Env) (ds : List Decoded) {s : CacheService} {aof : AofLogger}
    (ready : Prepared codec R s env (mutations ds) aof) (live : aof.Live) :
    Sys.wp R (do
      onAof (AofLogger.logBatch (mutations ds) env.syncUs)
      applyBatch codec env ds) (CommitResult codec R s env ds) { s with aof := aof } := by
  refine Sys.wp_bind (wp_onAof ((AofLogger.wp_logBatch _ env.syncUs live.attached).mono ?_))
  intro r aof' result
  cases r with
  | ok => exact wp_applyBatch env ds (.applied ready result)
  | throw e => exact .unlogged ready (by simp) result
  | crash => exact .unlogged ready (by simp) result

theorem wp_commitBatch (env : Env) (ds : List Decoded) {s : CacheService} (live : s.aof.Live) :
    Sys.wp R (commitBatch codec env ds) (CommitResult codec R s env ds) s := by
  unfold commitBatch
  refine Sys.wp_get_bind (Sys.wp_lift_bind ?_ fun e he => .unencodable e he)
  rintro (_ | _) full
  · exact wp_logAndApply env ds (.kept full) live
  · refine Sys.wp_bind ((wp_compactLocked env.snapshotClock live).mono ?_)
    rintro r _ ⟨aof, rfl, result⟩
    cases r with
    | ok =>
      have ready : Prepared codec R s env (mutations ds) aof := .compacted full result
      exact wp_logAndApply env ds ready (ready.live live)
    | throw e => exact .uncompacted full (by simp) result
    | crash => exact .uncompacted full (by simp) result

/-- What the handlers of `HandleBatch` do to the object. -/
def CacheService.settle (s : CacheService) : Res Exception (List Reply) → CacheService
  | .throw e => if e.cls = .aofCapacityError then s else { s with failed := true }
  | _ => s

inductive HandleBatchResult (codec : Codec) (R : Regime) (s : CacheService) (env : Env)
    (inputs : List Bytes) : Res Exception (List Reply) → CacheService → Prop where
  | unavailable (h : s.failed = true) : HandleBatchResult codec R s env inputs
      (.throw (runtimeError "Storage is unavailable; restart after resolving the failure")) s
  | committed {r : Res Exception (List Reply)} {s' : CacheService} (h : s.failed = false)
      (result : CommitResult codec R s env (decodedBatch codec s.cache env inputs) r s') :
      HandleBatchResult codec R s env inputs r (s'.settle r)

theorem wp_handleBatch (codec : Codec) (env : Env) (inputs : List Bytes) {s : CacheService}
    (live : s.aof.Live) :
    Sys.wp R (handleBatch codec env inputs) (HandleBatchResult codec R s env inputs) s := by
  unfold handleBatch
  refine Sys.wp_get_bind ?_
  split
  · exact Sys.wp_throw (.unavailable ‹_›)
  rename_i alive
  rw [Bool.not_eq_true] at alive
  rw [decodeAll_eq]
  refine Sys.wp_lift_bind ?_ (by simp)
  rintro _ ⟨⟩
  refine Sys.wp_tryCatch ((wp_commitBatch env _ live).mono ?_)
  intro r s' result
  have ended := HandleBatchResult.committed alive result
  cases r with
  | ok replies => exact ended
  | crash => exact ended
  | throw e =>
    unfold CacheService.settle at ended
    dsimp only at ended ⊢
    split
    · rw [if_pos ‹_›] at ended
      exact Sys.wp_throw ended
    · rw [if_neg ‹_›] at ended
      exact Sys.wp_modify_bind (Sys.wp_throw ended)

/-- The handlers of `HandleBatch`. -/
def rethrow (e : Exception) : ServiceM (List Reply) :=
  if e.cls = .aofCapacityError then Sys.throw e
  else do
    Sys.modify fun s => { s with failed := true }
    Sys.throw e

theorem handleBatch_eq (codec : Codec) (env : Env) (inputs : List Bytes) (o : Oracle)
    (s : CacheService) :
    handleBatch codec env inputs o s =
      if s.failed then
        (.throw (runtimeError "Storage is unavailable; restart after resolving the failure"), o, s)
      else Sys.tryCatch (commitBatch codec env (decodedBatch codec s.cache env inputs)) rethrow
        o s := by
  unfold handleBatch
  change (if s.failed = true then _ else _ : ServiceM (List Reply)) o s = _
  rw [decodeAll_eq]
  split <;> rfl

/-! ## Construction -/

/-- The mutations in a log file. -/
abbrev logged (file : Bytes) : List Mutation := (Records.scan parse file).1

theorem logged_nil : logged [] = [] := congrArg Prod.fst (encodes_iff_scan.mp encodes_nil)

/-- The object the constructor leaves when it returns. -/
structure Created (codec : Codec) (cfg : Config) (clock : Nat → Millis) (fs : Fs)
    (trace : List Event) (s : CacheService) : Prop where
  replayed : ∃ cache n,
    ShardedCache.create cfg.hash cfg.capacity cfg.shards cfg.maxCacheBytes = .ok cache ∧
      replayOutcome (replayCallback codec clock) ((fs.named cfg.path).getD []) (cache, 0) =
        (.ok (), (s.cache, n))
  opened : ∃ l, AofLogger.Opened cfg.path cfg.maxAofBytes fs trace l ∧
    s.aof = { l.seek l.fd l.bytes with started := true }
  alive : s.failed = false

theorem wp_startUp (codec : Codec) (clock : Nat → Millis) {filename : String} (maxBytes : Nat)
    {fs : Fs} (trace : List Event) (hb : fs.Bound filename) (b : Cache × Nat) :
    Sys.wp R (startUp codec clock) (fun r s =>
      (r = .ok () → (∃ l, AofLogger.Opened filename maxBytes fs trace l ∧
          s.1 = { l.seek l.fd l.bytes with started := true }) ∧
        replayOutcome (replayCallback codec clock) ((fs.named filename).getD []) b =
          (.ok (), s.2)) ∧
      (R = .faultless → ((fs.named filename).getD []).length ≤ maxBytes →
        (r, s.2) = replayOutcome (replayCallback codec clock) ((fs.named filename).getD []) b))
      (AofLogger.initial filename maxBytes fs trace, b) := by
  refine Sys.wp_bind (Sys.wp_bind (AofLogger.wp_onLogger
    ((AofLogger.wp_construct filename maxBytes trace hb).mono ?_)))
  rintro r l (⟨rfl, opened⟩ | ⟨hne, _, bad⟩)
  · refine (AofLogger.wp_replay (replayCallback codec clock) b).mono ?_
    have whole : 0 + l.bytes = (l.fs.content l.fd).length := by
      rw [Nat.zero_add]
      exact opened.bytes_eq
    have file : l.fs.content l.fd = (fs.named filename).getD [] := opened.file_eq
    rintro r s (⟨rfl, hne, started | faulty⟩ | ⟨_, replayed⟩)
    · rw [opened.started_eq] at started
      cases started
    · cases r with
      | ok => exact absurd rfl hne
      | throw e => exact ⟨by simp, fun hR => absurd (faulty.symm.trans hR) (by decide)⟩
      | crash => exact ⟨by simp, fun hR => absurd (faulty.symm.trans hR) (by decide)⟩
    · have outcome : Conclusive R r → (r, s.2) = _ := fun hc => replayed.outcome hc whole
      rw [List.drop_zero, file] at outcome
      obtain ⟨pos, hpos, _, hend⟩ := replayed.moved
      cases r with
      | ok =>
        obtain rfl : pos = l.bytes := (hend rfl).trans (Nat.zero_add _)
        have done := outcome (Or.inr ⟨(), rfl⟩)
        refine AofLogger.wp_onLogger (Sys.wp_modify ?_)
        exact ⟨fun _ => ⟨⟨l, opened, by rw [hpos]⟩, done.symm⟩, fun _ _ => done⟩
      | throw e => exact ⟨by simp, fun hR _ => outcome (Or.inl hR)⟩
      | crash => exact ⟨by simp, fun hR _ => outcome (Or.inl hR)⟩
  · have long : R = .faultless → ¬ ((fs.named filename).getD []).length ≤ maxBytes := by
      intro hR
      rcases bad with faulty | long
      · exact absurd (faulty.symm.trans hR) (by decide)
      · omega
    cases r with
    | ok => exact absurd rfl hne
    | throw e => exact ⟨by simp, fun hR fits => absurd fits (long hR)⟩
    | crash => exact ⟨by simp, fun hR fits => absurd fits (long hR)⟩

theorem created_of_create {cfg : Config} {clock : Nat → Millis} {fs : Fs} {trace : List Event}
    {o : Oracle} {s : CacheService} (hb : fs.Bound cfg.path)
    (h : (create codec cfg clock fs trace o).1 = .ok s) :
    Created codec cfg clock fs trace s ∧ (create codec cfg clock fs trace o).2.2 = s.aof.fs := by
  unfold create at h ⊢
  split at h
  · cases h
  rename_i cache hc
  have faulty : o.In .faulty := trivial
  have run := ((wp_startUp codec clock cfg.maxAofBytes trace hb (cache, 0)).run faulty).1
  generalize startUp codec clock o _ = stop at h run ⊢
  obtain ⟨_ | _ | _, o', aof, cache', n⟩ := stop
  · obtain ⟨opened, replayed⟩ := run rfl
    cases h
    exact ⟨⟨⟨cache, n, hc, replayed⟩, opened, rfl⟩, rfl⟩
  · cases h
  · cases h

/-- Without faults the contents of the log decide how construction ends. -/
theorem create_of_outcome {cfg : Config} (clock : Nat → Millis) {fs : Fs} (trace : List Event)
    {o : Oracle} (ho : o.NoFailure) (hb : fs.Bound cfg.path) {cache cache' : Cache} {n : Nat}
    (hc : ShardedCache.create cfg.hash cfg.capacity cfg.shards cfg.maxCacheBytes = .ok cache)
    (fits : ((fs.named cfg.path).getD []).length ≤ cfg.maxAofBytes)
    (hr : replayOutcome (replayCallback codec clock) ((fs.named cfg.path).getD []) (cache, 0) =
      (.ok (), (cache', n))) :
    ∃ s, (create codec cfg clock fs trace o).1 = .ok s ∧ s.cache = cache' := by
  have faultless : o.In .faultless := ho
  have run :=
    ((wp_startUp codec clock cfg.maxAofBytes trace hb (cache, 0)).run faultless).2 rfl fits
  unfold create
  rw [hc]
  dsimp only
  rw [hr] at run
  generalize startUp codec clock o _ = stop at run ⊢
  obtain ⟨r, o', aof, out⟩ := stop
  cases run
  exact ⟨_, rfl, rfl⟩

end KVRPC.Service
