import KVRPC.Service.Capacity
import KVRPC.Service.Coherence

/-!
# Compaction never grows the log

A log that was written by the service has a record for every entry a snapshot would contain,
and the snapshot describes the entry in no more octets. So a compaction makes room, and what
fits into the log as it is fits into the compacted log.

This needs a clock that does not run backwards. A compaction drops the records of expired
entries, which stay in the cache, and an earlier clock brings such an entry back to life.
-/
namespace KVRPC.Service

open Library Library.History Aof Storage

variable {codec : Codec} {cfg : Config} {now : Millis} {s s' : CacheService}

/-! ## Logs without legacy records -/

/-- The file consists of checksummed records only. -/
def Tagged (file : Bytes) : Prop := ∃ ms, (∀ m ∈ ms, Loggable m) ∧ file = records ms

theorem Tagged.eq_records {file : Bytes} (h : Tagged file) : file = records (logged file) := by
  obtain ⟨ms, hl, rfl⟩ := h
  rw [logged, encodes_iff_scan.mp (encodes_records hl)]

variable {l l' : AofLogger} {ms : List Mutation}

theorem Tagged.logBatch (h : Tagged l.file) (ready : Ready cfg l) {elapsed : Nat}
    {r : Res Exception Unit} (result : AofLogger.LogBatchResult .faultless l ms elapsed r l') :
    Tagged l'.file := by
  cases result with
  | empty | unavailable | unencodable | overCapacity => exact h
  | appended _ _ _ hl _ =>
    obtain ⟨old, hold, file⟩ := h
    refine ⟨old ++ ms, fun m hm => ?_, ?_⟩
    · exact (List.mem_append.mp hm).elim (hold m) (hl m)
    · rw [AofLogger.file_afterAppend ready.atEnd, file, records_append]
  | torn | killed => contradiction

theorem Tagged.rewrite (h : Tagged l.file) {snapshot : List Mutation} {r : Res Exception Unit}
    (result : AofLogger.RewriteResult .faultless l snapshot r l') : Tagged l'.file := by
  cases result with
  | unavailable | unencodable | overCapacity => exact h
  | rewritten _ hl _ => exact ⟨snapshot, hl, AofLogger.afterPublish_file l snapshot⟩
  | unpublished | unsynced | killed => contradiction

theorem Tagged.prepared {env : Env} (h : Tagged s.aof.file)
    (prepared : Prepared codec .faultless s env ms l) : Tagged l.file := by
  cases prepared with
  | kept => exact h
  | compacted _ result => exact h.rewrite result

theorem Tagged.handleBatch {env : Env} {inputs : List Bytes} {r : Res Exception (List Reply)}
    (h : Tagged s.aof.file) (ready : Ready cfg s.aof)
    (result : HandleBatchResult codec .faultless s env inputs r s') : Tagged s'.aof.file := by
  cases result with
  | unavailable => exact h
  | committed _ result =>
    rw [(settle_cases _ r).1]
    cases result with
    | unencodable => exact h
    | uncompacted _ _ result => exact h.rewrite result
    | unlogged prepared _ result | applied prepared result =>
      exact (h.prepared prepared).logBatch (prepared.ready ready) result

theorem Step.tagged {a : Action} (step : Step codec cfg .faultless s a s') (sound : Sound cfg s)
    (h : Tagged s.aof.file) : Tagged s'.aof.file := by
  rcases step.cases sound with ⟨env, inputs, r, rfl, result⟩ | ⟨clock, r, aof, rfl, rfl, result⟩ |
    ⟨clock, rfl, created⟩
  · exact h.handleBatch sound.ready result
  · exact h.rewrite result
  · rw [created.file_eq, sound.ready.named_eq]
    exact h

/-! ## Snapshots are no longer than the log -/

theorem length_records_eq (ms : List Mutation) :
    (records ms).length = (ms.map fun m => (record m).length).sum := by
  rw [records, List.length_flatten, List.map_map]
  rfl

/-- Every entry that has not expired is stored by the latest record of its key. -/
abbrev Recorded (codec : Codec) (now : Millis) (ms : List Mutation) (c : Cache) : Prop :=
  CoherentOn (fun e => ¬ e.Expired now.value) (logOps codec ms) c

theorem Recorded.length_snapshot_le (lawful : codec.Lawful) {c : Cache}
    (h : Recorded codec now ms c) {clock : Nat → Nat → Millis}
    (late : ∀ i j, now.value ≤ (clock i j).value) :
    (records (snapshotMutations codec c clock)).length ≤ (records ms).length := by
  rw [length_records_eq, length_records_eq, snapshotMutations, List.map_map]
  refine sum_le_of_covers Mutation.key (c.nodup_snapshot _) fun e he => ?_
  obtain ⟨i, j, alive⟩ := ShardedCache.alive_of_mem_snapshot he
  have alive : ¬ e.Expired now.value :=
    fun expired => alive ⟨expired.1, UInt64.le_trans expired.2 (late i j)⟩
  obtain ⟨mem, _⟩ := latest_eq_some (h e (ShardedCache.holds_of_mem_snapshot he) alive)
  obtain ⟨m, hm, stores⟩ := List.mem_filterMap.mp mem
  obtain ⟨sameKey, short⟩ := length_snapshotMutation_le lawful stores
  refine ⟨m, hm, ?_, ?_⟩
  · rw [← sameKey, snapshotMutation]
    split <;> rfl
  · simp only [Function.comp_apply, length_record, sameKey]
    omega

theorem Base.recorded (lawful : codec.Lawful) {clock : Nat → Nat → Millis} {base : List Mutation}
    (hb : Base codec s clock base) (h : Recorded codec now s.log s.cache)
    (early : ∀ i j, (clock i j).value ≤ now.value) : Recorded codec now base s.cache := by
  rcases hb with rfl | ⟨rfl, loggable⟩
  · exact h
  intro e he alive
  have mem : e ∈ s.cache.snapshot fun i j => (clock i j).value :=
    he.mem_snapshot fun i j expired =>
      alive ⟨expired.1, UInt64.le_trans expired.2 (early i j)⟩
  rw [snapshotMutations, logOps_snapshot lawful loggable]
  refine latest_of_mem ?_ (List.mem_map_of_mem (f := storing) mem)
  rw [List.map_map]
  exact s.cache.nodup_snapshot _

/-! ## Reachable states -/

/-- A working service on a log without legacy records that still has a record of every entry
alive at `now`. -/
structure Current (codec : Codec) (cfg : Config) (now : Millis) (s : CacheService) : Prop extends
    Healthy cfg s where
  modest : Throughout codec Op.Modest s
  tagged : Tagged s.aof.file
  recorded : Recorded codec now s.log s.cache

theorem Current.length_log (h : Current codec cfg now s) :
    (records s.log).length = s.aof.bytes := by
  rw [h.ready.bytes_eq h.aof_alive]
  exact congrArg List.length h.tagged.eq_records.symm

/-- No snapshot was taken by a later clock. -/
def Action.SnapshotsBy (now : Millis) : Action → Prop
  | .batch env _ _ => ∀ i j, (env.snapshotClock i j).value ≤ now.value
  | .compact clock _ => ∀ i j, (clock i j).value ≤ now.value
  | .restart _ => True

variable {env : Env} {inputs : List Bytes} {r : Res Exception (List Reply)}

theorem BatchOutcome.recorded (lawful : codec.Lawful)
    (outcome : BatchOutcome codec s env inputs r s')
    (modest : Throughout codec Op.Modest s) (h : Recorded codec now s.log s.cache)
    (early : ∀ i j, (env.snapshotClock i j).value ≤ now.value) :
    Recorded codec now s'.log s'.cache := by
  cases outcome with
  | unavailable => exact h
  | refused => exact h
  | rejected _ hb what log =>
    rw [CacheService.log, log]
    exact hb.recorded lawful h early
  | @done _ base hb hl aof log r cache happlied =>
    have ok := applied_ok lawful modest.held env aof.stats inputs
    have next := coherent_applied (hb.recorded lawful h early) ok
    rw [happlied] at next
    obtain ⟨sameAof, sameCache⟩ := settle_cases { s with aof := aof, cache := cache } (.ofExcept r)
    rw [CacheService.log, sameAof, sameCache, log, Recorded, logOps_append,
      logOps_mutations lawful (decodedBatch_from s.cache env inputs) hl]
    exact next

theorem HandleBatchResult.current (lawful : codec.Lawful)
    (result : HandleBatchResult codec .faultless s env inputs r s') (h : Current codec cfg now s)
    (early : ∀ i j, (env.snapshotClock i j).value ≤ now.value) : Current codec cfg now s' := by
  obtain ⟨healthy, outcome⟩ := result.faultless h.toHealthy
  exact ⟨healthy, outcome.throughout lawful h.modest (decodedBatch_modest s.cache env inputs),
    h.tagged.handleBatch h.ready result, outcome.recorded lawful h.modest h.recorded early⟩

theorem Step.recorded (lawful : codec.Lawful) {a : Action}
    (step : Step codec cfg .faultless s a s') (h : Current codec cfg now s)
    (early : a.SnapshotsBy now) : Recorded codec now s'.log s'.cache := by
  rcases (step.faultless h.toHealthy).2 with ⟨env, inputs, r, rfl, outcome⟩ |
    ⟨clock, r, rfl, cache, _, hb, _⟩ | ⟨clock, c, rfl, _, log, hc, replays⟩
  · exact outcome.recorded lawful h.modest h.recorded early
  · rw [cache]
    exact hb.recorded lawful h.recorded early
  · rw [log]
    exact coherent_rebuilt hc replays

theorem Step.current (lawful : codec.Lawful) {a : Action} (step : Step codec cfg .faultless s a s')
    (h : Current codec cfg now s) (early : a.SnapshotsBy now) : Current codec cfg now s' :=
  ⟨(step.faultless h.toHealthy).1, step.throughout lawful h.toHealthy h.modest
    fun env inputs _ _ => decodedBatch_modest s.cache env inputs,
    step.tagged h.toSound h.tagged, step.recorded lawful h early⟩

theorem Created.current {clock : Nat → Millis} {fs : Fs} {trace : List Event}
    (h : Created codec cfg clock fs trace s) (empty : (fs.named cfg.path).getD [] = []) :
    Current codec cfg now s := by
  obtain ⟨healthy, log⟩ := h.healthy
  obtain ⟨c, hc, _, _, replays⟩ := h.cache_replays
  refine ⟨healthy, h.throughout ?_, ⟨[], by simp, by rw [h.file_eq, empty]; rfl⟩, ?_⟩
  · rw [empty, logged_nil]
    simp [logOps]
  · rw [log]
    exact coherent_rebuilt hc replays

theorem Calls.current (lawful : codec.Lawful) {clock : Nat → Millis} {fs : Fs} {s₀ : CacheService}
    (created : Created codec cfg clock fs [] s₀) (empty : (fs.named cfg.path).getD [] = [])
    {trace : List (CacheService × Action)} (run : Calls codec cfg .faultless s₀ trace s)
    (early : ∀ e ∈ trace, e.2.SnapshotsBy now) : Current codec cfg now s := by
  refine run.invariant (fun _ s => Current codec cfg now s) (fun _ a => a.SnapshotsBy now)
    (created.current empty) ?_ early
  intro _ s a s' h early step
  exact step.current lawful h early

/-! ## Room -/

/-- Lack of space is no obstacle for what fits into the log as it is. -/
theorem HandleBatchResult.not_rejected (lawful : codec.Lawful)
    (result : HandleBatchResult codec .faultless s env inputs r s') (h : Current codec cfg now s)
    (alive : s.failed = false) (late : ∀ i j, now.value ≤ (env.snapshotClock i j).value)
    (loggable : ∀ m ∈ mutations (decodedBatch codec s.cache env inputs), Loggable m)
    (room : s.aof.bytes + (records (mutations (decodedBatch codec s.cache env inputs))).length ≤
      cfg.maxAofBytes) :
    ¬ Rejected r ∧ ∃ base, base.length ≤ s.aof.bytes ∧
      s'.aof.file = base ++ records (mutations (decodedBatch codec s.cache env inputs)) := by
  have writable : Writable codec s.cache := fun e he => (h.modest.held e he).writable lawful
  have exact := result.exact h.ready alive h.aof_alive writable (size_of_loggable loggable)
  have whole := h.length_log
  have short := h.recorded.length_snapshot_le lawful late
  have accepted : ¬ Rejected r := by
    rw [exact.rejected_iff]
    rintro ⟨_, large⟩
    omega
  obtain ⟨base, which, file⟩ := exact.appended accepted
  refine ⟨accepted, base, ?_, file⟩
  rcases which with rfl | rfl
  · exact (h.ready.bytes_eq h.aof_alive).ge
  · omega

/-- **Compaction never grows the log.** In any state reached from an empty log without failures,
if no snapshot was taken by a clock later than `now`: a snapshot taken at `now` or later takes
no more octets than the log, and a batch whose records fit into what is left of the log is
not rejected for lack of space, whether it asks for a rewrite or not. -/
theorem compaction_never_grows (lawful : codec.Lawful) {fs : Fs} (hb : fs.Bound cfg.path)
    (empty : (fs.named cfg.path).getD [] = []) {clock : Nat → Millis} {o : Oracle}
    {s₀ : CacheService} (created : (create codec cfg clock fs [] o).1 = .ok s₀)
    {trace : List (CacheService × Action)} (run : Calls codec cfg .faultless s₀ trace s)
    (early : ∀ e ∈ trace, e.2.SnapshotsBy now) :
    (∀ snapshotClock, (∀ i j, now.value ≤ (snapshotClock i j).value) →
      ∃ k, size (snapshotMutations codec s.cache snapshotClock) = .ok k ∧ k ≤ s.aof.bytes) ∧
    ∀ env inputs n, (∀ i j, now.value ≤ (env.snapshotClock i j).value) →
      size (mutations (decodedBatch codec s.cache env inputs)) = .ok n →
      n ≤ s.aof.maxBytes - s.aof.bytes → ∀ o', Oracle.NoFailure o' →
        ¬ Rejected (handleBatch codec env inputs o' s).1 := by
  have h := run.current lawful (created_of_create hb created).1 empty early
  refine ⟨fun snapshotClock late => ?_, fun env inputs n late hn fits o' ho' => ?_⟩
  · have loggable := snapshotMutations_loggable lawful h.modest.held snapshotClock
    refine ⟨_, size_of_loggable loggable, ?_⟩
    have short := h.recorded.length_snapshot_le lawful late
    rwa [h.length_log] at short
  · obtain ⟨loggable, rfl⟩ := size_ok_iff.mp hn
    have faultless : o'.In .faultless := ho'
    have result := (wp_handleBatch codec env inputs h.ready.live).run faultless
    cases failed : s.failed with
    | true =>
      rintro ⟨e, thrown, cls⟩
      rw [handleBatch_eq, if_pos failed] at thrown
      cases thrown
      cases cls
    | false =>
      have bounded := h.ready.live.bytes_le
      rw [h.ready.maxBytes_eq] at fits bounded
      exact (result.not_rejected lawful h failed late loggable (by omega)).1

/-- After a write, its record is the snapshot. -/
theorem compaction_never_grows_set : ∃ s₀ r s k,
    (create wireCodec small frozen.applyClock AofLogger.emptyFs [] .reliable).1 = .ok s₀ ∧
      Calls wireCodec small .faultless s₀
        [(s₀, .batch frozen [Message.frame .set [1] [2]] r)] s ∧
      size (snapshotMutations wireCodec s.cache frozen.snapshotClock) = .ok k ∧
      0 < k ∧ k ≤ s.aof.bytes ∧
      ¬ Rejected (handleBatch wireCodec frozen [Message.frame .set [3] [4]] .reliable s).1 := by
  obtain ⟨s₀, created, snapshot, n, hn, fits⟩ := Res.returns_iff.mp (show
    (create wireCodec small frozen.applyClock AofLogger.emptyFs [] .reliable).1.Returns fun s₀ =>
      let s := (handleBatch wireCodec frozen [Message.frame .set [1] [2]] .reliable s₀).2.2
      snapshotMutations wireCodec s.cache frozen.snapshotClock = [⟨.set, [1], [2]⟩] ∧
      ∃ n < 100, size (mutations (decodedBatch wireCodec s.cache frozen
        [Message.frame .set [3] [4]])) = .ok n ∧ n ≤ s.aof.maxBytes - s.aof.bytes
    by decide +kernel)
  have run : Calls wireCodec small .faultless s₀ [_] _ :=
    .snoc .nil (by simp) (.batch frozen [Message.frame .set [1] [2]] .reliable trivial)
  have standing : ∀ i j, (frozen.applyClock 0).value ≤ (frozen.snapshotClock i j).value :=
    fun _ _ => UInt64.le_refl _
  have early : ∀ e ∈ [(s₀, Action.batch frozen [Message.frame .set [1] [2]]
      (handleBatch wireCodec frozen [Message.frame .set [1] [2]] .reliable s₀).1)],
      e.2.SnapshotsBy (frozen.applyClock 0) := by
    rw [List.forall_mem_singleton]
    exact fun _ _ => UInt64.le_refl _
  obtain ⟨short, room⟩ := compaction_never_grows wireCodec_lawful
    (AofLogger.emptyFs_bound small.path) rfl created run early
  obtain ⟨k, hk, le⟩ := short frozen.snapshotClock standing
  refine ⟨s₀, _, _, k, created, run, hk, ?_, le,
    room frozen _ n standing fits.1 fits.2 .reliable trivial⟩
  rw [snapshot] at hk
  cases hk
  decide

/-! ## When the clock runs backwards -/

/-- A log with room for three small records. -/
def tight : Config := { small with maxAofBytes := 100 }

/-- Three years later. -/
def late : Nat → Nat → Millis := fun _ _ => ⟨1800000000000, by decide⟩

/-- An entry that lives for a second. -/
def shortLived : Bytes := Message.frame .setTtl [0] (wireCodec.serialize
  { value := List.replicate 30 7, ttlMs := 1000, unknown := wireCodec.noUnknown })

/-- After a compaction by a later clock, the snapshot contains an entry that has come back to
life and outgrows the log, and a write that would fit is rejected. -/
theorem backwards_clock_grows : ∃ s₀ r s₁ s₂ r' s k n,
    (create wireCodec tight frozen.applyClock AofLogger.emptyFs [] .reliable).1 = .ok s₀ ∧
      Calls wireCodec tight .faultless s₀
        [(s₀, .batch frozen [shortLived] r), (s₁, .compact late (.ok ())),
          (s₂, .batch frozen [Message.frame .set [1] (List.replicate 30 7)] r')] s ∧
      size (snapshotMutations wireCodec s.cache frozen.snapshotClock) = .ok k ∧
      s.aof.bytes < k ∧
      size (mutations (decodedBatch wireCodec s.cache frozen [Message.frame .set [2] [3]])) =
        .ok n ∧
      n ≤ s.aof.maxBytes - s.aof.bytes ∧
      Rejected (handleBatch wireCodec frozen [Message.frame .set [2] [3]] .reliable s).1 := by
  obtain ⟨s₀, created, answered, ok, answered', grows, fits, rejected⟩ := Res.returns_iff.mp (show
    (create wireCodec tight frozen.applyClock AofLogger.emptyFs [] .reliable).1.Returns fun s₀ =>
      let first := handleBatch wireCodec frozen [shortLived] .reliable s₀
      let compaction := compact wireCodec late .reliable first.2.2
      let second := handleBatch wireCodec frozen [Message.frame .set [1] (List.replicate 30 7)]
        .reliable compaction.2.2
      let s := second.2.2
      (first.1.Returns fun _ => True) ∧ compaction.1 = .ok () ∧
        (second.1.Returns fun _ => True) ∧
        (Res.ofExcept (size (snapshotMutations wireCodec s.cache frozen.snapshotClock))).Returns
          (s.aof.bytes < ·) ∧
        (Res.ofExcept (size (mutations (decodedBatch wireCodec s.cache frozen
          [Message.frame .set [2] [3]])))).Returns (· ≤ s.aof.maxBytes - s.aof.bytes) ∧
        (handleBatch wireCodec frozen [Message.frame .set [2] [3]] .reliable s).1 =
          .throw (aofCapacityError "Snapshot exceeds AOF limit")
    by decide +kernel)
  obtain ⟨_, answered, _⟩ := Res.returns_iff.mp answered
  obtain ⟨_, answered', _⟩ := Res.returns_iff.mp answered'
  obtain ⟨k, hk, grows⟩ := Res.returns_iff.mp grows
  obtain ⟨n, hn, fits⟩ := Res.returns_iff.mp fits
  have first : Calls wireCodec tight .faultless s₀ [_] _ :=
    .snoc .nil (by simp) (.batch frozen [shortLived] .reliable trivial)
  have step : ∀ s₁, Step wireCodec tight .faultless s₁ _ _ :=
    fun s₁ => .compact late .reliable trivial
  have second := step (handleBatch wireCodec frozen [shortLived] .reliable s₀).2.2
  rw [ok] at second
  have both := Run.snoc first (by simp [Action.Fatal, answered]) second
  refine ⟨s₀, _, _, _, _, _, k, n, created, .snoc both (by simp [Action.Fatal, answered])
    (.batch frozen [Message.frame .set [1] (List.replicate 30 7)] .reliable trivial),
    Res.ok_eq_ofExcept.mp hk.symm, grows, Res.ok_eq_ofExcept.mp hn.symm, fits, _, rejected, rfl⟩

end KVRPC.Service
