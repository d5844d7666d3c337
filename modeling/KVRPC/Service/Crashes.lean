import KVRPC.Aof.Exceptions
import KVRPC.Service.Capacity
import KVRPC.Service.Coherence

/-!
# What a call leaves behind, whatever fails

The log a call leaves on disk continues what was there, or a snapshot of the cache, by some
of the operations of the call, and so does the cache. The two lists of operations may differ
when the call fails, and a service that goes on after a failed call has done nothing in it.
-/
namespace KVRPC.Service

open Library Library.History Aof Storage

variable {codec : Codec} {cfg : Config} {R : Regime} {l l' : AofLogger}
  {ms snapshot : List Mutation}

/-! ## The log on disk -/

/-- The records a process that opens the log reads from it. -/
abbrev onDisk (l : AofLogger) : List Mutation := logged l.disk

/-- A logger that has not failed keeps a log of whole records. -/
def Whole (l : AofLogger) : Prop := l.failed = false → Encodes (onDisk l) l.disk

theorem onDisk_of_encodes (h : Encodes ms l.disk) : onDisk l = ms ∧ Encodes (onDisk l) l.disk := by
  have read : onDisk l = ms := congrArg Prod.fst (encodes_iff_scan.mp h)
  exact ⟨read, read.symm ▸ h⟩

/-- An append that stopped somewhere leaves the records it completed. -/
theorem onDisk_torn (ready : Ready cfg l) (whole : Whole l) (hf : l.failed = false)
    (hl : ∀ m ∈ ms, Loggable m) {p : Bytes} (hp : p <+: records ms) (failed : Bool) :
    ∃ q, q <+: ms ∧ onDisk (l.afterTorn ms p failed) = onDisk l ++ q := by
  have attached := ready.live.attached
  have each : ∀ m ∈ ms, Records.Record parse m (record m) :=
    fun m hm => record_iff_isRecord.mpr ⟨hl m hm, Or.inl rfl⟩
  obtain ⟨q, rest, read, before, -⟩ := Records.scan_torn parse_selfDelimiting each hp
  obtain ⟨rs, hrs, split⟩ := whole hf
  have disk : (l.afterTorn ms p failed).disk = rs.flatten ++ p := by
    rw [(attached.afterTorn ms p failed).disk_eq, AofLogger.file_afterTorn ready.atEnd,
      ← attached.disk_eq, split]
  refine ⟨q, before, ?_⟩
  rw [onDisk, logged, disk, Records.scan_append parse_selfDelimiting (forall₂_record_iff.mpr hrs),
    read]

/-- What `logBatch` adds to the log. -/
structure Appends (l : AofLogger) (ms : List Mutation) (r : Res Exception Unit) (l' : AofLogger)
    (q : List Mutation) : Prop where
  onDisk_eq : onDisk l' = onDisk l ++ q
  part : q <+: ms
  loggable : q ≠ [] → ∀ m ∈ ms, Loggable m
  all : r = .ok () → q = ms
  broken : ∀ e, r = .throw e → q ≠ [] → l.failed = false ∧ l'.failed = true
  whole : r ≠ .crash → Whole l'
  path : l'.filename = l.filename

theorem Appends.nothing {r : Res Exception Unit} (whole : Whole l) (h : r = .ok () → ms = []) :
    Appends l ms r l [] where
  onDisk_eq := (List.append_nil _).symm
  part := List.nil_prefix
  loggable h := absurd rfl h
  all ok := (h ok).symm
  broken _ _ h := absurd rfl h
  whole _ := whole
  path := rfl

theorem logBatch_appends {elapsed : Nat} {r : Res Exception Unit} (ready : Ready cfg l)
    (whole : Whole l) (result : AofLogger.LogBatchResult R l ms elapsed r l') :
    ∃ q, Appends l ms r l' q := by
  cases result with
  | empty h => exact ⟨[], .nothing whole fun _ => h⟩
  | unavailable | unencodable | overCapacity => exact ⟨[], .nothing whole (by simp)⟩
  | appended hne hs hf hl fits =>
    have encodes : Encodes (onDisk l ++ ms) (l.afterAppend ms elapsed).disk := by
      rw [(ready.live.attached.afterAppend ms elapsed).disk_eq,
        AofLogger.file_afterAppend ready.atEnd, ← ready.live.attached.disk_eq]
      exact (whole hf).append (encodes_records hl)
    obtain ⟨read, encodes⟩ := onDisk_of_encodes encodes
    exact ⟨ms, read, List.prefix_rfl, fun _ => hl, fun _ => rfl, by simp, fun _ _ => encodes, rfl⟩
  | torn hne hs hf hl fits faulty p hp e =>
    obtain ⟨q, before, read⟩ := onDisk_torn ready whole hf hl hp true
    refine ⟨q, read, before, fun _ => hl, by simp, fun _ _ _ => ⟨hf, rfl⟩, ?_, rfl⟩
    intro _ alive
    simp [AofLogger.afterTorn] at alive
  | killed hne hs hf hl fits faulty p hp =>
    obtain ⟨q, before, read⟩ := onDisk_torn ready whole hf hl hp false
    exact ⟨q, read, before, fun _ => hl, by simp, by simp, fun h => absurd rfl h, rfl⟩

/-- `rewrite` leaves the log as it was or makes it the snapshot. -/
structure Replaces (l : AofLogger) (snapshot : List Mutation) (r : Res Exception Unit)
    (l' : AofLogger) : Prop where
  onDisk_eq : onDisk l' = onDisk l ∨ onDisk l' = snapshot ∧ ∀ m ∈ snapshot, Loggable m
  whole : r ≠ .crash → Whole l'
  path : l'.filename = l.filename

theorem rewrite_replaces {r : Res Exception Unit} (ready : Ready cfg l) (whole : Whole l)
    (result : AofLogger.RewriteResult R l snapshot r l') : Replaces l snapshot r l' := by
  have same : Replaces l snapshot r l := ⟨Or.inl rfl, fun _ => whole, rfl⟩
  -- Wherever the snapshot is the log, it is whole.
  have new : ∀ l₁ : AofLogger, (∀ m ∈ snapshot, Loggable m) → l₁.disk = records snapshot →
      l₁.filename = l.filename → Replaces l snapshot r l₁ := by
    intro l₁ hl disk path
    obtain ⟨read, encodes⟩ := onDisk_of_encodes (l := l₁) (disk ▸ encodes_records hl)
    exact ⟨Or.inr ⟨read, hl⟩, fun _ _ => encodes, path⟩
  have published : (l.afterPublish snapshot).disk = records snapshot := by
    rw [(AofLogger.afterPublish_attached l snapshot).disk_eq]
    exact AofLogger.afterPublish_file l snapshot
  cases result with
  | unavailable | unencodable | overCapacity => exact same
  | rewritten hf hl fits => exact new _ hl published rfl
  | unsynced hf hl fits faulty e => exact new _ hl published rfl
  | unpublished hf hl fits faulty _ hr fs keeps =>
    have disk : ({ l with fs := fs } : AofLogger).disk = l.disk := by
      rw [AofLogger.disk_keeps ready.live.attached keeps, ready.live.attached.disk_eq]
    refine ⟨Or.inl (congrArg logged disk), fun _ alive => ?_, rfl⟩
    rw [onDisk, disk]
    exact whole alive
  | killed hf hl fits faulty _ hl' =>
    rcases hl' with rfl | rfl
    · exact new _ hl (AofLogger.disk_published l snapshot _) rfl
    · exact new _ hl published rfl

/-! ## Failures that are survived -/

variable {s s' : CacheService} {env : Env} {inputs : List Bytes}

/-- Past the compaction, only a full log is reported as one. -/
theorem wp_logAndApply_notFull (ds : List Decoded) {aof : AofLogger} (live : aof.Live) :
    Sys.wp R (do
      onAof (AofLogger.logBatch (mutations ds) env.syncUs)
      applyBatch codec env ds)
      (fun r s' => ∀ e, r = .throw e → NotFull e ∨ s'.aof.failed = aof.failed)
      { s with aof := aof } := by
  refine Sys.wp_bind (wp_onAof (((AofLogger.wp_logBatch _ env.syncUs live.attached).spares
    (AofLogger.spares_logBatch _ _ _)).mono ?_))
  rintro r aof' ⟨-, spared⟩
  cases r with
  | ok => exact wp_applyBatch env ds fun e thrown =>
      Or.inl (applyAll_error_cls (Res.throw_eq_ofExcept.mp thrown.symm))
  | throw e =>
    rintro _ ⟨⟩
    exact (spared e rfl).imp id (congrArg AofLogger.failed)
  | crash => rintro _ ⟨⟩

theorem wp_commitBatch_notFull (ds : List Decoded) (live : s.aof.Live) :
    Sys.wp R (commitBatch codec env ds)
      (fun r s' => ∀ e, r = .throw e → NotFull e ∨ s'.aof.failed = s.aof.failed) s := by
  refine Sys.wp_get_bind (Sys.wp_lift_bind ?_ fun _ _ _ _ => Or.inr rfl)
  rintro (_ | _) full
  · exact wp_logAndApply_notFull ds live
  · refine Sys.wp_bind (Sys.wp_get_bind (wp_onAof (((AofLogger.wp_rewrite _ live.attached).spares
      (AofLogger.spares_rewrite _ _)).mono ?_)))
    rintro r aof ⟨result, spared⟩
    cases r with
    | ok =>
      have still := (result.bounded live).2 (by simp)
      have alive : aof.failed = s.aof.failed := by
        cases result with
        | rewritten => rfl
        | unpublished => contradiction
      exact alive ▸ wp_logAndApply_notFull ds still
    | throw e =>
      rintro _ ⟨⟩
      exact (spared e rfl).imp id (congrArg AofLogger.failed)
    | crash => rintro _ ⟨⟩

/-- A service that goes on after an exception has a logger that goes on. -/
theorem wp_handleBatch_notFull (codec : Codec) (env : Env) (inputs : List Bytes)
    (live : s.aof.Live) : Sys.wp R (handleBatch codec env inputs)
      (fun r s' => ∀ e, r = .throw e → s'.failed = true ∨ s'.aof.failed = s.aof.failed) s := by
  intro o ho
  rw [handleBatch_eq]
  split
  · exact ⟨ho, fun _ _ => Or.inr rfl⟩
  obtain ⟨ho', commit⟩ :=
    @wp_commitBatch_notFull codec R s env (decodedBatch codec s.cache env inputs) live o ho
  unfold Sys.tryCatch
  generalize commitBatch codec env (decodedBatch codec s.cache env inputs) o s = stop at commit ho'
  obtain ⟨replies | e | _, o', s'⟩ := stop
  · exact ⟨ho', by simp⟩
  · dsimp only [rethrow]
    split
    · rename_i full
      refine ⟨ho', fun _ _ => Or.inr ?_⟩
      exact (commit e rfl).resolve_left (fun notFull => notFull full)
    · exact ⟨ho', fun _ _ => Or.inl rfl⟩
  · exact ⟨ho', by simp⟩

/-! ## Calls -/

/-- The operations a call was asked for. -/
def Action.requested (codec : Codec) (s : CacheService) : Action → List Op
  | .batch env inputs _ => batchOps (decodedBatch codec s.cache env inputs)
  | _ => []

/-- The call returned. -/
def Action.Returned : Action → Prop
  | .batch _ _ r => ∃ replies, r = .ok replies
  | .compact _ r => r = .ok ()
  | .restart _ => True

/-- What a call leaves behind: `logs` follows the log or a snapshot, `does` the cache. -/
structure Effect (codec : Codec) (s : CacheService) (a : Action) (s' : CacheService)
    (logs does : List Op) : Prop where
  log : ∃ base q, onDisk s'.aof = base ++ q ∧ logOps codec q = logs ∧
    (base = onDisk s.aof ∨
      ∃ clock, base = snapshotMutations codec s.cache clock ∧ ∀ m ∈ base, Loggable m)
  cache : ∀ hist, Coherent hist s.cache → Coherent (hist ++ does) s'.cache
  logs_of : logs <+: a.requested codec s
  does_of : does <+: a.requested codec s
  returned : a.Returned → logs = a.requested codec s ∧ does = a.requested codec s
  alive : ¬ a.Fatal → s'.failed = false → s.failed = false ∧ logs = does
  whole : ¬ a.Fatal → Whole s'.aof
  path : s'.aof.filename = s.aof.filename

/-- The log the batch is appended to. -/
theorem Prepared.onDisk {aof : AofLogger} (h : Prepared codec R s env ms aof)
    (ready : Ready cfg s.aof) (whole : Whole s.aof) :
    Whole aof ∧ aof.filename = s.aof.filename ∧ (aof.failed = false → s.aof.failed = false) ∧
      (onDisk aof = onDisk s.aof ∨ ∃ clock, onDisk aof = snapshotMutations codec s.cache clock ∧
        ∀ m ∈ onDisk aof, Loggable m) := by
  cases h with
  | kept => exact ⟨whole, rfl, id, Or.inl rfl⟩
  | compacted full result =>
    have replaces := rewrite_replaces ready whole result
    refine ⟨replaces.whole (by simp), replaces.path, fun _ => ?_, replaces.onDisk_eq.imp id ?_⟩
    · cases result with
      | rewritten hf => exact hf
      | unpublished => contradiction
    · rintro ⟨read, hl⟩
      exact ⟨env.snapshotClock, read, read.symm ▸ hl⟩

/-- What is logged of a batch stands for the first operations of the batch. -/
theorem Appends.ops (lawful : codec.Lawful) {r : Res Exception Unit} {q : List Mutation}
    (h : Appends l (mutations (decodedBatch codec s.cache env inputs)) r l' q) :
    logOps codec q <+: batchOps (decodedBatch codec s.cache env inputs) := by
  by_cases none : q = []
  · subst none
    exact List.nil_prefix
  obtain ⟨rest, split⟩ := h.part
  rw [← logOps_mutations lawful (decodedBatch_from s.cache env inputs) (h.loggable none), ← split,
    logOps_append]
  exact List.prefix_append _ _

theorem Appends.all_ops (lawful : codec.Lawful) {q : List Mutation}
    (h : Appends l (mutations (decodedBatch codec s.cache env inputs)) (.ok ()) l' q) :
    logOps codec q = batchOps (decodedBatch codec s.cache env inputs) := by
  have same := h.all rfl
  rw [same, logOps_mutations lawful (decodedBatch_from s.cache env inputs) fun m hm => ?_]
  exact h.loggable (by rw [same]; exact List.ne_nil_of_mem hm) m hm

/-- A call that does nothing it was asked for, if it was asked for anything. -/
theorem Effect.nothing {a : Action} (idle : a.Returned → a.requested codec s = [])
    (log : onDisk s'.aof = onDisk s.aof ∨
      ∃ clock, onDisk s'.aof = snapshotMutations codec s.cache clock ∧
        ∀ m ∈ onDisk s'.aof, Loggable m)
    (cache : s'.cache = s.cache) (alive : s'.failed = false → s.failed = false)
    (whole : ¬ a.Fatal → Whole s'.aof) (path : s'.aof.filename = s.aof.filename) :
    Effect codec s a s' [] [] where
  log := ⟨onDisk s'.aof, [], (List.append_nil _).symm, rfl, log⟩
  cache hist h := by rwa [List.append_nil, cache]
  logs_of := List.nil_prefix
  does_of := List.nil_prefix
  returned h := ⟨(idle h).symm, (idle h).symm⟩
  alive _ h := ⟨alive h, rfl⟩
  whole := whole
  path := path

theorem settle_failed {r : Res Exception (List Reply)} (h : (s.settle r).failed = false) :
    s.failed = false ∧ ∀ e, r = .throw e → e.cls = .aofCapacityError := by
  unfold CacheService.settle at h
  split at h
  · split at h
    · refine ⟨h, ?_⟩
      rintro _ ⟨⟩
      assumption
    · cases h
  · rename_i other
    exact ⟨h, fun e he => absurd he (other e)⟩

/-- A batch whose records are not all logged leaves the cache alone. -/
theorem effect_unlogged (lawful : codec.Lawful) {aof aof' : AofLogger} {r : Res Exception Unit}
    (prepared : Prepared codec R s env (mutations (decodedBatch codec s.cache env inputs)) aof)
    (hr : r ≠ .ok ()) {q : List Mutation}
    (appends : Appends aof (mutations (decodedBatch codec s.cache env inputs)) r aof' q)
    (ready : Ready cfg s.aof) (whole : Whole s.aof) (alive : s.failed = false)
    (spared : ∀ e, r = .throw e →
      (CacheService.settle { s with aof := aof' } (r.map fun _ => [])).failed = true ∨
        aof'.failed = s.aof.failed) :
    Effect codec s (.batch env inputs (r.map fun _ => []))
      (CacheService.settle { s with aof := aof' } (r.map fun _ => [])) (logOps codec q) [] := by
  obtain ⟨-, path, failed, base⟩ := prepared.onDisk ready whole
  obtain ⟨aof_eq, cache_eq⟩ := settle_cases { s with aof := aof' } (r.map fun _ => [])
  refine ⟨⟨onDisk aof, q, ?_, rfl, base⟩, ?_, appends.ops lawful, List.nil_prefix, ?_, ?_, ?_, ?_⟩
  · rw [aof_eq]
    exact appends.onDisk_eq
  · intro hist h
    rwa [List.append_nil, cache_eq]
  · rintro ⟨replies, returned⟩
    cases r with
    | ok => exact absurd rfl hr
    | throw | crash => cases returned
  · intro living still
    refine ⟨alive, ?_⟩
    by_contra some
    have nonempty : q ≠ [] := by
      rintro rfl
      exact some rfl
    cases r with
    | ok => exact hr rfl
    | crash => exact living rfl
    | throw e =>
      obtain ⟨before, after⟩ := appends.broken e rfl nonempty
      rcases spared e rfl with broken | same
      · simp [still] at broken
      · simp [after, failed before] at same
  · intro living
    rw [aof_eq]
    exact appends.whole (Res.map_ne_crash living)
  · rw [aof_eq]
    exact appends.path.trans path

/-- A batch whose records are all logged has done as much as its replies say. -/
theorem effect_applied (lawful : codec.Lawful) {aof aof' : AofLogger}
    (prepared : Prepared codec R s env (mutations (decodedBatch codec s.cache env inputs)) aof)
    {q : List Mutation}
    (appends : Appends aof (mutations (decodedBatch codec s.cache env inputs)) (.ok ()) aof' q)
    (ready : Ready cfg s.aof) (whole : Whole s.aof) (alive : s.failed = false)
    {out : Except Exception (List Reply) × Cache}
    (ran : applied codec env aof'.stats (decodedBatch codec s.cache env inputs) s.cache = out) :
    ∃ does, Effect codec s (.batch env inputs (.ofExcept out.1))
      (CacheService.settle { s with aof := aof', cache := out.2 } (.ofExcept out.1))
      (logOps codec q) does := by
  obtain ⟨-, path, -, base⟩ := prepared.onDisk ready whole
  obtain ⟨aof_eq, cache_eq⟩ :=
    settle_cases { s with aof := aof', cache := out.2 } (.ofExcept out.1)
  -- The loop may end early, so the operations it has performed are a part of the batch.
  obtain ⟨does, part, reached, complete⟩ := applyAll_evolves codec
    (fun ops c => ∀ hist, Coherent hist s.cache → Coherent (hist ++ ops) c)
    (fun h evolves hist coherent => by
      rw [← List.append_assoc]
      exact (h hist coherent).evolves evolves)
    env.applyClock env.metrics aof'.stats 0 (decodedBatch codec s.cache env inputs) []
    (fun hist coherent => by rwa [List.append_nil])
  rw [applied] at ran
  rw [ran] at reached complete
  rw [List.nil_append] at reached
  have ops := appends.all_ops lawful
  refine ⟨does, ⟨onDisk aof, q, ?_, rfl, base⟩, ?_, appends.ops lawful, part, ?_, ?_, ?_, ?_⟩
  · rw [aof_eq]
    exact appends.onDisk_eq
  · rw [cache_eq]
    exact reached
  · rintro ⟨replies, returned⟩
    exact ⟨ops, complete ⟨replies, Res.ok_eq_ofExcept.mp returned.symm⟩⟩
  · intro _ still
    refine ⟨alive, ops.trans (complete ?_).symm⟩
    cases returned : out.1 with
    | ok replies => exact ⟨replies, rfl⟩
    | error e =>
      have thrown : Res.ofExcept out.1 = .throw e := by rw [returned]; rfl
      exact absurd ((settle_failed still).2 e thrown)
        (applyAll_error_cls ((congrArg Prod.fst ran).trans returned))
  · intro _
    rw [aof_eq]
    exact appends.whole (by simp)
  · rw [aof_eq]
    exact appends.path.trans path

theorem CommitResult.effect (lawful : codec.Lawful) {r : Res Exception (List Reply)}
    (result : CommitResult codec R s env (decodedBatch codec s.cache env inputs) r s')
    (ready : Ready cfg s.aof) (whole : Whole s.aof) (alive : s.failed = false)
    (spared : ∀ e, r = .throw e → (s'.settle r).failed = true ∨ s'.aof.failed = s.aof.failed) :
    ∃ logs does, Effect codec s (.batch env inputs r) (s'.settle r) logs does := by
  obtain ⟨aof_eq, cache_eq⟩ := settle_cases s' r
  cases result with
  | unencodable e he =>
    refine ⟨[], [], .nothing ?_ (Or.inl (by rw [aof_eq])) cache_eq (fun _ => alive)
      (fun _ => by rwa [aof_eq]) (by rw [aof_eq])⟩
    rintro ⟨_, ⟨⟩⟩
  | @uncompacted r aof full hr result =>
    have replaces := rewrite_replaces ready whole result
    refine ⟨[], [], .nothing ?_ ?_ cache_eq (fun _ => alive) ?_ ?_⟩
    · rintro ⟨_, returned⟩
      cases r with
      | ok => exact absurd rfl hr
      | throw | crash => cases returned
    · rw [aof_eq]
      exact replaces.onDisk_eq.imp id fun ⟨read, hl⟩ =>
        ⟨env.snapshotClock, read, read.symm ▸ hl⟩
    · intro living
      rw [aof_eq]
      exact replaces.whole (Res.map_ne_crash living)
    · rw [aof_eq]
      exact replaces.path
  | @unlogged r aof aof' prepared hr result =>
    obtain ⟨whole', -⟩ := prepared.onDisk ready whole
    obtain ⟨q, appends⟩ := logBatch_appends (prepared.ready ready) whole' result
    refine ⟨_, _, effect_unlogged lawful prepared hr appends ready whole alive ?_⟩
    rintro e rfl
    exact spared e rfl
  | @applied aof aof' prepared result =>
    obtain ⟨whole', -⟩ := prepared.onDisk ready whole
    obtain ⟨q, appends⟩ := logBatch_appends (prepared.ready ready) whole' result
    obtain ⟨does, effect⟩ := effect_applied lawful prepared appends ready whole alive rfl
    exact ⟨_, does, effect⟩

theorem Step.effect (lawful : codec.Lawful) {a : Action} (step : Step codec cfg R s a s')
    (sound : Sound cfg s) (whole : Whole s.aof) (same : ∀ clock, a ≠ .restart clock) :
    ∃ logs does, Effect codec s a s' logs does := by
  have live := sound.ready.live
  cases step with
  | batch env inputs o ho =>
    have result := (wp_handleBatch codec env inputs live).run ho
    have spared := (wp_handleBatch_notFull codec env inputs live).run ho
    generalize hr : (handleBatch codec env inputs o s).1 = r at result spared ⊢
    generalize hs : (handleBatch codec env inputs o s).2.2 = s' at result spared ⊢
    cases result with
    | unavailable h =>
      refine ⟨[], [], .nothing ?_ (Or.inl rfl) rfl id (fun _ => whole) rfl⟩
      rintro ⟨_, ⟨⟩⟩
    | committed alive result =>
      refine result.effect lawful sound.ready whole alive fun e he => ?_
      have spared := spared e he
      rwa [(settle_cases _ r).1] at spared
  | compact clock o ho =>
    obtain ⟨aof, hs, result⟩ := (wp_compactLocked clock live).run ho
    have replaces := rewrite_replaces sound.ready whole result
    have left : (Service.compact codec clock o s).2.2 = { s with aof := aof } := hs
    rw [left]
    refine ⟨[], [], .nothing (fun _ => rfl) ?_ rfl id replaces.whole replaces.path⟩
    exact replaces.onDisk_eq.imp id fun ⟨read, hl⟩ => ⟨clock, read, read.symm ▸ hl⟩
  | restart clock => exact absurd rfl (same clock)

/-- Also a call that was killed leaves a log that can be opened. -/
theorem Step.bounded {a : Action} (step : Step codec cfg R s a s') (sound : Sound cfg s) :
    s'.aof.Bounded := by
  have live := sound.ready.live
  rcases step.cases sound with ⟨env, inputs, r, rfl, result⟩ | ⟨clock, r, aof, rfl, rfl, result⟩ |
    ⟨clock, rfl, created⟩
  · cases result with
    | unavailable => exact live.bounded
    | committed alive result =>
      rw [(settle_cases _ r).1]
      cases result with
      | unencodable => exact live.bounded
      | uncompacted full hr result => exact (result.bounded live).1
      | unlogged prepared hr result => exact (result.bounded (prepared.live live)).1
      | applied prepared result => exact (result.bounded (prepared.live live)).1
  · exact (result.bounded live).1
  · exact created.ready.live.bounded

end KVRPC.Service
