import KVRPC.Service.Availability

/-!
# Batches that find no room

A batch is turned away when the log could not take it even right after a compaction, and
then the cache is as it was. The exception can come from the compaction or from the append
that follows it; in the second case the log has become the snapshot.
-/
namespace KVRPC.Service

open Library Aof Storage

variable {codec : Codec} {cfg : Config} {R : Regime} {s s' : CacheService}

/-! ## Snapshots -/

/-- An entry stored by the operation can be written to a snapshot. -/
def Op.Writable (codec : Codec) (op : Op) : Prop :=
  ∀ e, op = storing e → Loggable (snapshotMutation codec e)

theorem Op.Modest.writable (lawful : codec.Lawful) {op : Op} (h : op.Modest) :
    op.Writable codec := by
  rintro e rfl
  exact snapshotMutation_loggable lawful h

/-- A snapshot describes an entry in no more octets than the record it comes from. -/
theorem length_snapshotMutation_le (lawful : codec.Lawful) {m : Mutation}
    {e : Entry Bytes Bytes} (h : mutationOp? codec m = some (storing e)) :
    (snapshotMutation codec e).key = m.key ∧
      (snapshotMutation codec e).value.length ≤ m.value.length := by
  unfold mutationOp? at h
  split at h
  · obtain ⟨hk, hv, he⟩ : m.key = e.key ∧ m.value = e.value ∧ 0 = e.expires := by
      simpa [storing] using h
    simp [snapshotMutation, ← he, hk, hv]
  · split at h
    · cases h
    rename_i item parsed
    split at h
    · cases h
    rename_i dated
    obtain ⟨hk, hv, he⟩ : m.key = e.key ∧ item.value = e.value ∧
        item.expiresUnixMs = e.expires := by simpa [storing] using h
    rw [snapshotMutation, if_pos (he ▸ dated)]
    refine ⟨hk.symm, le_trans ?_ (lawful.length_parse _ _ parsed)⟩
    rw [lawful.length_serialize, lawful.length_serialize item, lawful.serialize_empty]
    simp [CacheValue.knownLength, CacheValue.lengthOf, hv, he]
    omega
  · simp [storing] at h

theorem writable_of_mutationOp (lawful : codec.Lawful) {m : Mutation} (loggable : Loggable m)
    {op : Op} (h : mutationOp? codec m = some op) : op.Writable codec := by
  rintro e rfl
  obtain ⟨hk, hv⟩ := length_snapshotMutation_le lawful h
  obtain ⟨_, _, shortKey, shortValue⟩ := loggable
  refine ⟨?_, ?_, hk ▸ shortKey, hv.trans shortValue⟩ <;> unfold snapshotMutation <;> split <;> simp

theorem logOps_writable (lawful : codec.Lawful) {ms : List Mutation}
    (loggable : ∀ m ∈ ms, Loggable m) : ∀ op ∈ logOps codec ms, op.Writable codec := by
  intro op hop
  obtain ⟨m, hm, hop⟩ := List.mem_filterMap.mp hop
  exact writable_of_mutationOp lawful (loggable m hm) hop

/-- A snapshot of the cache can be written. -/
def Writable (codec : Codec) (c : Cache) : Prop := ∀ e, c.Holds e → (storing e).Writable codec

theorem Writable.loggable {c : Cache} (h : Writable codec c) (clock : Nat → Nat → Millis) :
    ∀ m ∈ snapshotMutations codec c clock, Loggable m := by
  intro m hm
  obtain ⟨e, he, rfl⟩ := List.mem_map.mp hm
  exact h e (ShardedCache.holds_of_mem_snapshot he) e rfl

theorem Created.writable (lawful : codec.Lawful) {clock : Nat → Millis} {fs : Fs}
    {trace : List Event} (h : Created codec cfg clock fs trace s) : Writable codec s.cache := by
  obtain ⟨c, hc, encodes, _, replays⟩ := h.cache_replays
  exact replays.held (fun e he => absurd he (not_holds_create hc e))
    (logOps_writable lawful encodes.loggable)

theorem Step.writable (lawful : codec.Lawful) {a : Action} (step : Step codec cfg R s a s')
    (sound : Sound cfg s) (h : Writable codec s.cache) : Writable codec s'.cache := by
  rcases step.cases sound with ⟨env, inputs, r, rfl, result⟩ | ⟨clock, r, aof, rfl, rfl, result⟩ |
    ⟨clock, rfl, created⟩
  · cases result with
    | unavailable => exact h
    | committed _ result =>
      rw [(settle_cases _ r).2]
      cases result with
      | unencodable | uncompacted | unlogged => exact h
      | applied =>
        exact held_applied codec env _ h fun op hop =>
          (decodedBatch_modest s.cache env inputs op hop).writable lawful
  · exact h
  · exact created.writable lawful

/-- In every run, with I/O failures or without, a snapshot of the cache can be written. -/
theorem Calls.writable (lawful : codec.Lawful) {clock : Nat → Millis} {fs : Fs}
    {s₀ : CacheService} (created : Created codec cfg clock fs [] s₀)
    {trace : List (CacheService × Action)} (run : Calls codec cfg R s₀ trace s)
    (alive : ∀ e ∈ trace, ¬ e.2.Fatal) : Sound cfg s ∧ Writable codec s.cache := by
  refine run.invariant (fun _ s => Sound cfg s ∧ Writable codec s.cache) (fun _ a => ¬ a.Fatal)
    ⟨created.sound, created.writable lawful⟩ ?_ alive
  rintro _ s a s' ⟨sound, writable⟩ alive step
  exact ⟨step.sound sound alive, step.writable lawful sound writable⟩

/-! ## Replies -/

theorem execute_error_cls {now : Millis} {metrics : Option TransportStats} {disk : AofStats}
    {request : Request} {c : Cache} {e : Exception}
    (h : (execute codec now metrics disk request c).1 = .error e) : e.cls ≠ .aofCapacityError := by
  obtain ⟨command, key, value, expires⟩ := request
  cases command with
  | set | setTtl =>
    by_cases hs : c.CanStore key value
    · obtain ⟨_, hp, _⟩ := c.put_ok expires now.value hs
      simp [execute, hp] at h
    · simp [execute, c.put_error expires now.value hs] at h
      rw [← h]
      decide
  | del | get | lookup | stats | unknown => cases h

theorem applyOne_error_cls {now : Millis} {metrics : Option TransportStats} {disk : AofStats}
    {d : Decoded} {c : Cache} {e : Exception}
    (h : (applyOne codec now metrics disk d c).1 = .error e) : e.cls ≠ .aofCapacityError := by
  unfold applyOne at h
  split at h
  · cases h
  rename_i accepted
  have cls := @execute_error_cls codec now metrics disk d.request c
  generalize execute codec now metrics disk d.request c = out at cls h
  obtain ⟨e' | response, c'⟩ := out
  · cases h
    exact cls rfl
  · dsimp only at h
    cases encoded : Message.encode d.request.command d.request.key response with
    | error e' =>
      rw [encoded] at h
      cases h
      exact Message.encode_error_cls encoded
    | ok bytes =>
      rw [encoded] at h
      cases h

/-- Once the batch is logged, nothing reports a full log. -/
theorem applyAll_error_cls {clock : Nat → Millis} {metrics : Option TransportStats}
    {disk : AofStats} {i : Nat} {ds : List Decoded} {c : Cache} {e : Exception}
    (h : (applyAll codec clock metrics disk i ds c).1 = .error e) :
    e.cls ≠ .aofCapacityError := by
  induction ds generalizing i c with
  | nil => cases h
  | cons d ds ih =>
    unfold applyAll at h
    have cls := @applyOne_error_cls codec (clock i) metrics disk d c
    generalize applyOne codec (clock i) metrics disk d c = out at cls h
    obtain ⟨e' | reply, c'⟩ := out
    · cases h
      exact cls rfl
    · dsimp only at h
      have rest := @ih (i + 1) c'
      generalize applyAll codec clock metrics disk (i + 1) ds c' = out at rest h
      obtain ⟨e' | replies, c''⟩ := out
      · cases h
        exact rest rfl
      · cases h

/-! ## Room -/

/-- Thrown for lack of space. -/
def Rejected (r : Res Exception (List Reply)) : Prop :=
  ∃ e, r = .throw e ∧ e.cls = .aofCapacityError

theorem rejected_capacity (what : String) : Rejected (.throw (aofCapacityError what)) :=
  ⟨_, rfl, rfl⟩

theorem not_rejected_applied (env : Env) (disk : AofStats) (ds : List Decoded) (c : Cache) :
    ¬ Rejected (.ofExcept (applied codec env disk ds c).1) := by
  rintro ⟨e, he, cls⟩
  cases hr : (applied codec env disk ds c).1 with
  | ok replies => rw [hr] at he; cases he
  | error e' =>
    rw [hr] at he
    cases he
    exact applyAll_error_cls hr cls

theorem size_le_of_roomy {l : AofLogger} {ms : List Mutation} {n : Nat} (hn : size ms = .ok n)
    (roomy : l.needsRewrite ms = .ok false) : n ≤ usub l.maxBytes l.bytes := by
  unfold AofLogger.needsRewrite at roomy
  split at roomy
  · rename_i empty
    subst empty
    cases hn
    exact Nat.zero_le _
  · rw [hn] at roomy
    simp [bind, Except.bind, pure, Except.pure] at roomy
    exact roomy.1

variable {env : Env} {ms : List Mutation} {n : Nat}

/-- The append finds no room exactly if the log has been compacted and is too large still. -/
theorem Prepared.room {aof : AofLogger} (h : Prepared codec .faultless s env ms aof)
    (ready : Ready cfg s.aof) (alive : s.aof.failed = false) (hn : size ms = .ok n) :
    Ready cfg aof ∧ aof.failed = false ∧
      (aof.file = s.aof.file ∨
        aof.file = records (snapshotMutations codec s.cache env.snapshotClock)) ∧
      (usub aof.maxBytes aof.bytes < n ↔ s.aof.needsRewrite ms = .ok true ∧ cfg.maxAofBytes <
        (records (snapshotMutations codec s.cache env.snapshotClock)).length + n) := by
  have ready' := h.ready ready
  cases h with
  | kept roomy =>
    refine ⟨ready, alive, Or.inl rfl, iff_of_false ?_ (by simp [roomy])⟩
    exact Nat.not_lt.mpr (size_le_of_roomy hn roomy)
  | compacted full result =>
    cases result with
    | rewritten hf hl fits =>
      refine ⟨ready', alive, Or.inr (AofLogger.afterPublish_file _ _), ?_⟩
      have bytes : (s.aof.afterRewrite (snapshotMutations codec s.cache env.snapshotClock)).bytes =
        (records (snapshotMutations codec s.cache env.snapshotClock)).length := rfl
      have maxBytes :
        (s.aof.afterRewrite (snapshotMutations codec s.cache env.snapshotClock)).maxBytes =
          s.aof.maxBytes := rfl
      rw [bytes, maxBytes, usub_of_le fits, ← ready.maxBytes_eq, and_iff_right full]
      omega
    | unpublished => contradiction

/-- What a batch leaves of the service: all of it, except for the log if it was rejected, and
a log that ends with the batch if it was not. -/
structure Exact (cfg : Config) (s : CacheService) (snapshot ms : List Mutation) (n : Nat)
    (r : Res Exception (List Reply)) (s' : CacheService) : Prop where
  ready : Ready cfg s'.aof
  rejected_iff : Rejected r ↔ s.aof.needsRewrite ms = .ok true ∧
    cfg.maxAofBytes < (records snapshot).length + n
  unchanged : Rejected r → s'.cache = s.cache ∧ s'.failed = false ∧ s'.aof.failed = false ∧
    (s'.aof.file = s.aof.file ∨ s'.aof.file = records snapshot)
  appended : ¬ Rejected r → ∃ base, (base = s.aof.file ∨ base = records snapshot) ∧
    s'.aof.file = base ++ records ms

theorem HandleBatchResult.exact {inputs : List Bytes} {r : Res Exception (List Reply)}
    (result : HandleBatchResult codec .faultless s env inputs r s') (ready : Ready cfg s.aof)
    (alive : s.failed = false) (aof_alive : s.aof.failed = false)
    (writable : Writable codec s.cache)
    (hn : size (mutations (decodedBatch codec s.cache env inputs)) = .ok n) :
    Exact cfg s (snapshotMutations codec s.cache env.snapshotClock)
      (mutations (decodedBatch codec s.cache env inputs)) n r s' := by
  have hsnapshot := size_of_loggable (writable.loggable env.snapshotClock)
  obtain ⟨hms, rfl⟩ := size_ok_iff.mp hn
  cases result with
  | unavailable failed => simp [alive] at failed
  | committed _ result =>
    cases result with
    | unencodable e he => simp [needsRewrite_error he] at hn
    | uncompacted full hr result =>
      cases result with
      | unavailable failed => simp [aof_alive] at failed
      | unencodable _ e he => simp [he] at hsnapshot
      | overCapacity _ _ large =>
        rw [ready.maxBytes_eq] at large
        rw [Res.map, settle_capacity]
        refine ⟨ready, iff_of_true (rejected_capacity _) ⟨full, by omega⟩,
          fun _ => ⟨rfl, alive, aof_alive, Or.inl rfl⟩, fun h => absurd (rejected_capacity _) h⟩
      | rewritten => exact absurd rfl hr
      | unpublished | unsynced | killed => contradiction
    | unlogged prepared hr result =>
      obtain ⟨ready', alive', file, room⟩ := prepared.room ready aof_alive hn
      cases result with
      | unavailable _ failed => simp [ready'.started, alive'] at failed
      | unencodable _ _ _ e he => simp [he] at hn
      | overCapacity _ _ _ _ large =>
        rw [Res.map, settle_capacity]
        exact ⟨ready', iff_of_true (rejected_capacity _) (room.mp large),
          fun _ => ⟨rfl, alive, alive', file⟩, fun h => absurd (rejected_capacity _) h⟩
      | empty | appended => exact absurd rfl hr
      | torn | killed => contradiction
    | applied prepared result =>
      obtain ⟨ready', alive', file, room⟩ := prepared.room ready aof_alive hn
      have still := ready'.logBatch result (by simp)
      have accepted := @not_rejected_applied codec env
      cases result with
      | empty none =>
        refine ⟨?_, iff_of_false (accepted _ _ _) fun h => ?_, fun h => absurd h (accepted _ _ _),
          fun _ => ⟨_, file, ?_⟩⟩
        · rw [(settle_cases _ _).1]
          exact still
        · simp [none, AofLogger.needsRewrite] at h
        · rw [(settle_cases _ _).1, none, records_nil, List.append_nil]
      | appended _ _ _ _ fits =>
        refine ⟨?_, iff_of_false (accepted _ _ _) fun h => ?_, fun h => absurd h (accepted _ _ _),
          fun _ => ⟨_, file, ?_⟩⟩
        · rw [(settle_cases _ _).1]
          exact still
        · exact absurd (room.mpr h) (by omega)
        · rw [(settle_cases _ _).1]
          exact AofLogger.file_afterAppend ready'.atEnd _ _

/-- **Exact and atomic rejection.** In any state of any run in which neither the service nor
its logger has failed, a batch whose mutations encode is rejected for lack of space exactly
if the log asks for a rewrite and the snapshot and the batch together exceed the limit.
Then the cache is unchanged, the service goes on, and the log is as before or the snapshot.
Otherwise the log ends with the whole batch. -/
theorem rejection_exact (lawful : codec.Lawful) {fs : Fs} (hb : fs.Bound cfg.path)
    {clock : Nat → Millis} {o : Oracle} {s₀ : CacheService}
    (created : (create codec cfg clock fs [] o).1 = .ok s₀)
    {trace : List (CacheService × Action)} (run : Calls codec cfg .faulty s₀ trace s)
    (survives : ∀ e ∈ trace, ¬ e.2.Fatal) (alive : s.failed = false)
    (aof_alive : s.aof.failed = false) (env : Env) (inputs : List Bytes)
    (hn : size (mutations (decodedBatch codec s.cache env inputs)) = .ok n)
    {o' : Oracle} (ho' : o'.NoFailure) :
    let ms := mutations (decodedBatch codec s.cache env inputs)
    let snapshot := snapshotMutations codec s.cache env.snapshotClock
    let r := (handleBatch codec env inputs o' s).1
    let s' := (handleBatch codec env inputs o' s).2.2
    let disk := (s.aof.fs.named cfg.path).getD []
    let disk' := (s'.aof.fs.named cfg.path).getD []
    ∃ k, size snapshot = .ok k ∧ Encodes snapshot (records snapshot) ∧
      (Rejected r ↔ s.aof.needsRewrite ms = .ok true ∧ cfg.maxAofBytes < k + n) ∧
      (Rejected r → s'.cache = s.cache ∧ s'.failed = false ∧ s'.aof.failed = false ∧
        (disk' = disk ∨ disk' = records snapshot)) ∧
      (¬ Rejected r → ∃ base, (base = disk ∨ base = records snapshot) ∧
        disk' = base ++ records ms) := by
  dsimp only
  obtain ⟨sound, writable⟩ := run.writable lawful (created_of_create hb created).1 survives
  have faultless : o'.In .faultless := ho'
  have result := (wp_handleBatch codec env inputs sound.ready.live).run faultless
  have exact := result.exact sound.ready alive aof_alive writable hn
  have loggable := writable.loggable env.snapshotClock
  rw [sound.ready.named_eq, exact.ready.named_eq]
  exact ⟨_, size_of_loggable loggable, encodes_records loggable, exact.rejected_iff,
    exact.unchanged, exact.appended⟩

/-- A log with room for one small record. -/
def cramped : Config := { small with maxAofBytes := 40 }

/-- The second record is rejected and the cache keeps the first. -/
theorem rejection_exact_second : ∃ s₀ r s,
    (create wireCodec cramped frozen.applyClock AofLogger.emptyFs [] .reliable).1 = .ok s₀ ∧
      Calls wireCodec cramped .faulty s₀
        [(s₀, .batch frozen [Message.frame .set [1] [2]] r)] s ∧
      Rejected (handleBatch wireCodec frozen [Message.frame .set [3] [4]] .reliable s).1 ∧
      (handleBatch wireCodec frozen [Message.frame .set [3] [4]] .reliable s).2.2.cache =
        s.cache := by
  obtain ⟨s₀, created, survives, alive, aof_alive, ms, snapshot, full⟩ := Res.returns_iff.mp (show
    (create wireCodec cramped frozen.applyClock AofLogger.emptyFs [] .reliable).1.Returns
      fun s₀ =>
        let call := handleBatch wireCodec frozen [Message.frame .set [1] [2]] .reliable s₀
        let s := call.2.2
        (call.1.Returns fun _ => True) ∧ s.failed = false ∧ s.aof.failed = false ∧
        mutations (decodedBatch wireCodec s.cache frozen [Message.frame .set [3] [4]]) =
          [⟨.set, [3], [4]⟩] ∧
        snapshotMutations wireCodec s.cache frozen.snapshotClock = [⟨.set, [1], [2]⟩] ∧
        s.aof.needsRewrite [⟨.set, [3], [4]⟩] = .ok true by decide +kernel)
  obtain ⟨replies, answered, _⟩ := Res.returns_iff.mp survives
  have run : Calls wireCodec cramped .faulty s₀ [_] _ :=
    .snoc .nil (by simp) (.batch frozen [Message.frame .set [1] [2]] .reliable trivial)
  have reliable : Oracle.reliable.NoFailure := trivial
  have single : ∀ key value, size [⟨.set, [key], [value]⟩] = .ok 26 := fun _ _ => rfl
  obtain ⟨k, hk, _, exact, unchanged, _⟩ := rejection_exact wireCodec_lawful
    (AofLogger.emptyFs_bound cramped.path) created run (by simp [Action.Fatal, answered]) alive
    aof_alive frozen [Message.frame .set [3] [4]] (by rw [ms]; exact single 3 4) reliable
  rw [snapshot, single] at hk
  cases hk
  have rejected := exact.mpr ⟨by rw [ms]; exact full, by decide⟩
  exact ⟨s₀, _, _, created, run, rejected, (unchanged rejected).1⟩

/-- A service that has failed throws something else, however full the log is. -/
theorem failed_not_rejected : ∃ s₀ e s n k,
    (create wireCodec cramped frozen.applyClock AofLogger.emptyFs [] .reliable).1 = .ok s₀ ∧
      Calls wireCodec cramped .faultless s₀ [(s₀, .batch frozen [paddedRequest] (.throw e))] s ∧
      let inputs := [Message.frame .set [1] [2], Message.frame .set [3] [4]]
      let ms := mutations (decodedBatch wireCodec s.cache frozen inputs)
      ms ≠ [] ∧ size ms = .ok n ∧
        size (snapshotMutations wireCodec s.cache frozen.snapshotClock) = .ok k ∧
        s.aof.needsRewrite ms = .ok true ∧ cramped.maxAofBytes < k + n ∧
        ¬ Rejected (handleBatch wireCodec frozen inputs .reliable s).1 := by
  obtain ⟨s₀, created, storable, ms, snapshot, full⟩ := Res.returns_iff.mp (show
    (create wireCodec cramped frozen.applyClock AofLogger.emptyFs [] .reliable).1.Returns
      fun s =>
        let inputs := [Message.frame .set [1] [2], Message.frame .set [3] [4]]
        s.cache.CanStore [] [] ∧
        mutations (decodedBatch wireCodec s.cache frozen inputs) =
          [⟨.set, [1], [2]⟩, ⟨.set, [3], [4]⟩] ∧
        snapshotMutations wireCodec s.cache frozen.snapshotClock = [] ∧
        s.aof.needsRewrite [⟨.set, [1], [2]⟩, ⟨.set, [3], [4]⟩] = .ok true by decide +kernel)
  have start := (created_of_create (AofLogger.emptyFs_bound cramped.path) created).1
  obtain ⟨e, step, _⟩ := paddedRequest_disables start.ready.live start.alive storable
  refine ⟨s₀, e, { s₀ with failed := true }, 52, 0, created, .snoc .nil (by simp) step, ?_⟩
  dsimp only
  rw [ms, snapshot]
  refine ⟨by simp, rfl, rfl, full, by decide, ?_⟩
  rintro ⟨e, thrown, cls⟩
  cases thrown
  cases cls

end KVRPC.Service
