import KVRPC.Library.History
import KVRPC.Service.Startup

/-!
# Reads return the last acknowledged value

Evictions, expiry and lookups are not logged, and a compaction forgets history, so the log
and the cache drift apart. Both stay below the history of acknowledged operations: an entry
of the cache was stored by the latest operation for its key, and the log agrees with the
history on every key it mentions. A restart turns the second fact into the first.

There is one proviso. A batch is logged before it is executed, and a `LOOKUP` of a value that
is too long for the reply ends its execution with an exception. Then the log holds operations
that were never acknowledged, and a restart makes them visible.
-/
namespace KVRPC.Service

open Library Library.History Aof Storage

variable {codec : Codec} {cfg : Config}

/-! ## Caches and histories -/

/-- Among the entries that matter, the cache holds only what the latest operation for its
key has stored. -/
def CoherentOn (P : Entry Bytes Bytes → Prop) (ops : List Op) (c : Cache) : Prop :=
  ∀ e, c.Holds e → P e → latest Op.key e.key ops = some (storing e)

/-- The cache holds only what the latest operation for its key has stored. -/
abbrev Coherent (ops : List Op) (c : Cache) : Prop := CoherentOn (fun _ => True) ops c

variable {P : Entry Bytes Bytes → Prop}

theorem CoherentOn.evolves {ops : List Op} {c c' : Cache} {op : Option Op}
    (h : CoherentOn P ops c) (evolves : Evolves c op c') : CoherentOn P (ops ++ op.toList) c' := by
  intro e he matters
  rcases evolves.holds he with rfl | ⟨old, other⟩
  · exact latest_concat_self ops (storing e)
  · cases op with
    | none => simpa using h e old matters
    | some o => exact (latest_concat_of_ne ops (other o rfl)).trans (h e old matters)

theorem CoherentOn.replays {clock : Nat → Millis} {n : Nat} {hist ops : List Op} {c c' : Cache}
    (h : CoherentOn P hist c) (replays : Replays clock n ops c c') :
    CoherentOn P (hist ++ ops) c' := by
  induction replays generalizing hist with
  | nil => simpa using h
  | cons head _ ih => simpa using ih (h.evolves (.op _ head))

theorem CoherentOn.agrees {xs ys : List Op} {c : Cache} (h : CoherentOn P xs c)
    (agrees : Agrees Op.key xs ys) : CoherentOn P ys c :=
  fun e he matters => agrees _ _ (h e he matters)

/-- Entries of a coherent cache tell nothing new. -/
theorem CoherentOn.agrees_storing {ops : List Op} {c : Cache} (h : Coherent ops c)
    {es : List (Entry Bytes Bytes)} (held : ∀ e ∈ es, c.Holds e) :
    Agrees Op.key (es.map storing) ops := by
  refine agrees_of_forall fun a ha => ?_
  obtain ⟨e, he, rfl⟩ := List.mem_map.mp ha
  exact h e (held e he) trivial

/-- A cache rebuilt from a log is coherent with it. -/
theorem coherent_rebuilt {clock : Nat → Millis} {n : Nat} {ops : List Op} {c c' : Cache}
    (h : ShardedCache.create cfg.hash cfg.capacity cfg.shards cfg.maxCacheBytes = .ok c)
    (replays : Replays clock n ops c c') : CoherentOn P ops c' := by
  have empty : CoherentOn P [] c := fun e he => absurd he (not_holds_create h e)
  exact empty.replays replays

/-! ## Services and histories -/

/-- Cache and log are explained by the history. -/
structure Explains (codec : Codec) (hist : List Op) (s : CacheService) : Prop where
  cache : Coherent hist s.cache
  log : Agrees Op.key (logOps codec s.log) hist

variable {hist : List Op} {s s' : CacheService}

theorem Base.agrees (lawful : codec.Lawful) {clock : Nat → Nat → Millis} {base : List Mutation}
    (hb : Base codec s clock base) (h : Explains codec hist s) :
    Agrees Op.key (logOps codec base) hist := by
  rcases hb with rfl | ⟨rfl, hl⟩
  · exact h.log
  · rw [snapshotMutations, logOps_snapshot lawful hl]
    exact h.cache.agrees_storing fun e he => ShardedCache.holds_of_mem_snapshot he

/-- The operations a batch adds to the history. -/
def Action.acknowledges (codec : Codec) (s : CacheService) : Action → List Op
  | .batch env inputs (.ok _) => batchOps (decodedBatch codec s.cache env inputs)
  | _ => []

@[simp] theorem Action.acknowledges_compact (clock : Nat → Nat → Millis) (r : Res Exception Unit) :
    (Action.compact clock r).acknowledges codec s = [] := rfl

@[simp] theorem Action.acknowledges_restart (clock : Nat → Millis) :
    (Action.restart clock).acknowledges codec s = [] := rfl

/-- The operations acknowledged in a run, in order. -/
def acknowledgedOps (codec : Codec) (trace : List (CacheService × Action)) : List Op :=
  trace.flatMap fun e => e.2.acknowledges codec e.1

theorem acknowledgedOps_snoc (trace : List (CacheService × Action)) (s : CacheService)
    (a : Action) :
    acknowledgedOps codec (trace ++ [(s, a)]) =
      acknowledgedOps codec trace ++ a.acknowledges codec s := by
  simp [acknowledgedOps]

/-- The proviso: a batch that has been logged meets no value too long for a `LOOKUP` reply.
Nothing is asked of a batch that has no mutations or that never comes to be logged. -/
def Action.LookupsFit (codec : Codec) (s : CacheService) : Action → Prop
  | .batch env inputs r =>
    let ds := decodedBatch codec s.cache env inputs
    s.failed = false → mutations ds ≠ [] → (∀ m ∈ mutations ds, Loggable m) → ¬ Rejected r →
      Service.LookupsFit codec env.applyClock 0 ds s.cache
  | _ => True

theorem coherent_applied {env : Env} {disk : AofStats} {ds : List Decoded} {c : Cache}
    (h : CoherentOn P hist c) (ok : ∃ replies, (applied codec env disk ds c).1 = .ok replies) :
    CoherentOn P (hist ++ batchOps ds) (applied codec env disk ds c).2 := by
  obtain ⟨done, _, reached, complete⟩ := applyAll_evolves codec (CoherentOn P)
    (fun h evolves => h.evolves evolves) env.applyClock env.metrics disk 0 ds hist h
  rwa [complete ok] at reached

/-- A batch that has no operations changes nothing that was stored, even if it fails. -/
theorem coherent_applied_nil {env : Env} {disk : AofStats} {ds : List Decoded} {c : Cache}
    (h : CoherentOn P hist c) (silent : batchOps ds = []) :
    CoherentOn P hist (applied codec env disk ds c).2 := by
  obtain ⟨done, before, reached, _⟩ := applyAll_evolves codec (CoherentOn P)
    (fun h evolves => h.evolves evolves) env.applyClock env.metrics disk 0 ds hist h
  rw [silent, List.prefix_nil] at before
  rwa [before, List.append_nil] at reached

/-- Everything in the log and in the cache can be written to a snapshot. -/
abbrev AllWritable (codec : Codec) (s : CacheService) : Prop :=
  Throughout codec (Op.Writable codec) s

theorem Op.Writable.short (lawful : codec.Lawful) {e : Entry Bytes Bytes}
    (h : (storing e).Writable codec) : (storing e).Short := (h.lengths lawful).2

/-- A logged batch is answered exactly if all its `LOOKUP` replies fit. -/
theorem applied_ok_iff (lawful : codec.Lawful) {c : Cache} (writable : Writable codec c)
    (env : Env) (disk : AofStats) (inputs : List Bytes) :
    (∃ replies, (applied codec env disk (decodedBatch codec c env inputs) c).1 = .ok replies) ↔
      LookupsFit codec env.applyClock 0 (decodedBatch codec c env inputs) c :=
  applyAll_ok_iff lawful rfl (fun e he => (writable e he).short lawful)
    (decodedBatch_from c env inputs) _ _ _ _

/-- A batch that is executed and fails has by the proviso put nothing into the log. -/
theorem Action.LookupsFit.silent (lawful : codec.Lawful) {env : Env} {inputs : List Bytes}
    {e : Exception} (fits : (Action.batch env inputs (.throw e)).LookupsFit codec s)
    (writable : Writable codec s.cache) (alive : s.failed = false)
    (loggable : ∀ m ∈ mutations (decodedBatch codec s.cache env inputs), Loggable m)
    {disk : AofStats} (thrown : (applied codec env disk (decodedBatch codec s.cache env inputs)
      s.cache).1 = .error e) :
    mutations (decodedBatch codec s.cache env inputs) = [] := by
  by_contra writes
  have accepted : ¬ Rejected (.ofExcept (.error e)) :=
    thrown ▸ not_rejected_applied env disk _ s.cache
  obtain ⟨replies, ok⟩ := (applied_ok_iff lawful writable env disk inputs).mpr
    (fits alive writes loggable accepted)
  rw [thrown] at ok
  cases ok

theorem BatchOutcome.explains (lawful : codec.Lawful) {env : Env} {inputs : List Bytes}
    {r : Res Exception (List Reply)} (outcome : BatchOutcome codec s env inputs r s')
    (writable : AllWritable codec s) (fits : (Action.batch env inputs r).LookupsFit codec s)
    (h : Explains codec hist s) :
    Explains codec (hist ++ (Action.batch env inputs r).acknowledges codec s) s' := by
  cases outcome with
  | unavailable => exact ⟨by simpa [Action.acknowledges] using h.cache, by
      simpa [Action.acknowledges] using h.log⟩
  | refused => exact ⟨by simpa [Action.acknowledges] using h.cache, by
      simpa [Action.acknowledges, CacheService.log] using h.log⟩
  | rejected alive hb what log =>
    refine ⟨by simpa [Action.acknowledges] using h.cache, ?_⟩
    rw [CacheService.log, log]
    simpa [Action.acknowledges] using hb.agrees lawful h
  | @done alive base hb hl aof log r cache happlied =>
    obtain ⟨aof_eq, cache_eq⟩ := settle_cases { s with aof := aof, cache := cache } (.ofExcept r)
    have ops := logOps_mutations lawful (decodedBatch_from s.cache env inputs) hl
    have whole : Agrees Op.key (logOps codec (CacheService.log (CacheService.settle
        { s with aof := aof, cache := cache } (.ofExcept r))))
        (hist ++ batchOps (decodedBatch codec s.cache env inputs)) := by
      rw [CacheService.log, aof_eq, log, logOps_append, ops]
      exact (hb.agrees lawful h).append _
    cases r with
    | ok replies =>
      have coherent := coherent_applied h.cache ⟨replies, congrArg Prod.fst happlied⟩
      rw [happlied] at coherent
      exact ⟨by rw [cache_eq]; exact coherent, whole⟩
    | error e =>
      rw [fits.silent lawful writable.held alive hl (congrArg Prod.fst happlied)] at ops
      have coherent : CoherentOn _ _ (applied codec env aof.stats
          (decodedBatch codec s.cache env inputs) s.cache).2 :=
        coherent_applied_nil h.cache ops.symm
      rw [happlied] at coherent
      have nothing : (Action.batch env inputs (.ofExcept (.error e))).acknowledges codec s = [] :=
        rfl
      rw [← ops] at whole
      refine ⟨?_, whole⟩
      rw [nothing, List.append_nil, cache_eq]
      exact coherent

theorem Step.explains (lawful : codec.Lawful) {a : Action}
    (step : Step codec cfg .faultless s a s') (healthy : Healthy cfg s)
    (writable : AllWritable codec s) (fits : a.LookupsFit codec s) (h : Explains codec hist s) :
    Explains codec (hist ++ a.acknowledges codec s) s' := by
  rcases (step.faultless healthy).2 with ⟨env, inputs, r, rfl, outcome⟩ |
    ⟨clock, r, rfl, cache, _, hb, _⟩ | ⟨clock, c, rfl, _, log, hc, replays⟩
  · exact outcome.explains lawful writable fits h
  · rw [Action.acknowledges_compact, List.append_nil]
    exact ⟨cache ▸ h.cache, hb.agrees lawful h⟩
  · rw [Action.acknowledges_restart, List.append_nil]
    refine ⟨?_, log ▸ h.log⟩
    exact (coherent_rebuilt hc replays).agrees h.log

theorem Created.allWritable (lawful : codec.Lawful) {clock : Nat → Millis} {fs : Fs}
    {trace : List Event} (created : Created codec cfg clock fs trace s) : AllWritable codec s := by
  obtain ⟨_, _, encodes, _⟩ := created.cache_replays
  exact created.throughout (logOps_writable lawful encodes.loggable)

/-- In a run without failures that meets the proviso, the operations of the initial log and
those acknowledged since explain every state. -/
theorem Calls.explained (lawful : codec.Lawful) {clock : Nat → Millis} {fs : Fs}
    {s₀ : CacheService} (created : Created codec cfg clock fs [] s₀)
    {trace : List (CacheService × Action)} (run : Calls codec cfg .faultless s₀ trace s)
    (fits : ∀ e ∈ trace, e.2.LookupsFit codec e.1) :
    Healthy cfg s ∧ AllWritable codec s ∧
      Explains codec (logOps codec (logged ((fs.named cfg.path).getD [])) ++
        acknowledgedOps codec trace) s := by
  refine run.invariant
    (fun trace s => Healthy cfg s ∧ AllWritable codec s ∧
      Explains codec (logOps codec (logged ((fs.named cfg.path).getD [])) ++
        acknowledgedOps codec trace) s)
    (fun s a => a.LookupsFit codec s) ?_ ?_ fits
  · obtain ⟨healthy, log⟩ := created.healthy
    obtain ⟨c, hc, _, _, replays⟩ := created.cache_replays
    refine ⟨healthy, created.allWritable lawful, ?_, ?_⟩
    · simpa [acknowledgedOps] using coherent_rebuilt hc replays
    · rw [log]
      simpa [acknowledgedOps] using Agrees.refl _
  · rintro trace s a s' ⟨healthy, writable, explained⟩ fits step
    have next := step.explains lawful healthy writable fits explained
    rw [List.append_assoc, ← acknowledgedOps_snoc] at next
    exact ⟨(step.faultless healthy).1, step.throughout lawful healthy writable
      fun env inputs r _ op hop => (decodedBatch_modest s.cache env inputs op hop).writable lawful,
      next⟩

/-! ## Reads -/

/-- Each reply of the loop was made on the cache its predecessors left. -/
theorem applyAll_reply {clock : Nat → Millis} {metrics : Option TransportStats} {disk : AofStats}
    {i : Nat} {ds : List Decoded} {c c' : Cache} {replies : List Reply}
    (h : applyAll codec clock metrics disk i ds c = (.ok replies, c')) {j : Nat} {d : Decoded}
    (hd : ds[j]? = some d) :
    ∃ reply before cⱼ, replies[j]? = some reply ∧
      applyAll codec clock metrics disk i (ds.take j) c = (.ok before, cⱼ) ∧
      (applyOne codec (clock (i + j)) metrics disk d cⱼ).1 = .ok reply := by
  induction ds generalizing i j c replies with
  | nil => simp at hd
  | cons d' ds ih =>
    obtain ⟨reply, rest, c₁, one, tail, rfl⟩ := applyAll_cons_eq_ok.mp h
    cases j with
    | zero =>
      obtain rfl : d' = d := by simpa using hd
      exact ⟨reply, [], c, rfl, rfl, by rw [Nat.add_zero, one]⟩
    | succ j =>
      obtain ⟨reply', before, cⱼ, hreply, first, made⟩ := ih tail (by simpa using hd)
      rw [show i + 1 + j = i + (j + 1) by omega] at made
      exact ⟨reply', reply :: before, cⱼ, by simpa using hreply,
        applyAll_cons_eq_ok.mpr ⟨reply, before, c₁, one, first, rfl⟩, made⟩

/-- The reply to an accepted request holds the frame of the response. -/
theorem applyOne_answered {now : Millis} {metrics : Option TransportStats} {disk : AofStats}
    {d : Decoded} {c : Cache} {reply : Reply}
    (h : (applyOne codec now metrics disk d c).1 = .ok reply) (accepted : d.Accepted) :
    ∃ response, (execute codec now metrics disk d.request c).1 = .ok response ∧
      Message.encode d.request.command d.request.key response = .ok reply.bytes ∧
      reply.consumed = d.reply.consumed ∧ reply.close = d.reply.close := by
  unfold applyOne at h
  rw [if_neg (by rwa [Decoded.not_accepted_iff, not_not])] at h
  generalize execute codec now metrics disk d.request c = out at h ⊢
  obtain ⟨_ | response, c'⟩ := out
  · cases h
  · refine ⟨response, rfl, ?_⟩
    dsimp only at h
    cases encoded : Message.encode d.request.command d.request.key response with
    | error e => rw [encoded] at h; cases h
    | ok bytes =>
      rw [encoded] at h
      cases h
      exact ⟨rfl, rfl, rfl⟩

theorem applyOne_read {now : Millis} {metrics : Option TransportStats} {disk : AofStats}
    {d : Decoded} {c : Cache} {reply : Reply}
    (h : (applyOne codec now metrics disk d c).1 = .ok reply) (accepted : d.Accepted)
    (reads : d.request.command = .get ∨ d.request.command = .lookup) :
    Message.encode d.request.command d.request.key
      (readResponse codec d.request.command (c.get d.request.key now.value).1) =
        .ok reply.bytes := by
  have executed : (execute codec now metrics disk d.request c).1 =
      .ok (readResponse codec d.request.command (c.get d.request.key now.value).1) := by
    unfold execute readResponse
    rcases reads with reads | reads <;> simp [reads]
  obtain ⟨response, ran, encoded, -⟩ := applyOne_answered h accepted
  cases executed.symm.trans ran
  exact encoded

/-- A hit in a coherent cache returns what the latest operation stored. -/
theorem CoherentOn.get_found {ops : List Op} {c : Cache} (h : Coherent ops c) {key value : Bytes}
    {now : Millis} (found : (c.get key now.value).1 = some value) :
    ∃ expires, latest Op.key key ops = some (.put key value expires) ∧
      (expires ≠ 0 → now.value < expires) := by
  obtain ⟨e, he, rfl, rfl, alive⟩ := ShardedCache.get_found found
  refine ⟨e.expires, h e he trivial, fun dated => ?_⟩
  by_contra late
  exact alive ⟨dated, UInt64.not_lt.mp late⟩

/-- **Coherence.** In a run without I/O failures in which no logged batch meets a value too long
for a `LOOKUP` reply, over any interleaving of batches, compactions and restarts, a read that
finds its key returns the value of the last acknowledged operation for it, which is not a
removal and whose expiry is in the future. -/
theorem reads_latest (lawful : codec.Lawful) {fs : Fs} (hb : fs.Bound cfg.path)
    {clock : Nat → Millis} {o : Oracle} {s₀ : CacheService}
    (created : (create codec cfg clock fs [] o).1 = .ok s₀)
    {trace : List (CacheService × Action)} (run : Calls codec cfg .faultless s₀ trace s)
    (fits : ∀ e ∈ trace, e.2.LookupsFit codec e.1)
    (env : Env) (inputs : List Bytes) {o' : Oracle} (ho' : o'.NoFailure) {replies : List Reply}
    (answered : (handleBatch codec env inputs o' s).1 = .ok replies) {j : Nat} {d : Decoded}
    (hd : (decodedBatch codec s.cache env inputs)[j]? = some d) (accepted : d.Accepted)
    (reads : d.request.command = .get ∨ d.request.command = .lookup) :
    let before := (applied codec env (handleBatch codec env inputs o' s).2.2.aof.stats
      ((decodedBatch codec s.cache env inputs).take j) s.cache).2
    let found := (before.get d.request.key (env.applyClock j).value).1
    (∃ reply, replies[j]? = some reply ∧
      Message.encode d.request.command d.request.key
        (readResponse codec d.request.command found) = .ok reply.bytes) ∧
    ∀ value, found = some value → ∃ expires,
      latest Op.key d.request.key (logOps codec (logged ((fs.named cfg.path).getD [])) ++
        acknowledgedOps codec trace ++
        batchOps ((decodedBatch codec s.cache env inputs).take j)) =
          some (.put d.request.key value expires) ∧
      (expires ≠ 0 → (env.applyClock j).value < expires) := by
  dsimp only
  obtain ⟨healthy, _, explained⟩ := run.explained lawful (created_of_create hb created).1 fits
  have outcome := (handleBatch_outcome healthy codec env inputs ho').2
  rw [answered] at outcome
  generalize (handleBatch codec env inputs o' s).2.2 = s' at outcome ⊢
  generalize hr : (Res.ok replies : Res Exception (List Reply)) = r at outcome
  cases outcome with
  | unavailable | refused | rejected => cases hr
  | @done _ _ _ _ aof _ r cache happlied =>
    have ok := Res.ok_eq_ofExcept.mp hr
    subst ok
    have stats : (CacheService.settle { s with aof := aof, cache := cache }
      (.ofExcept (.ok replies))).aof.stats = aof.stats := rfl
    rw [stats]
    obtain ⟨reply, before, c, hreply, earlier, made⟩ := applyAll_reply happlied hd
    rw [Nat.zero_add] at made
    have coherent := coherent_applied explained.cache ⟨before, congrArg Prod.fst earlier⟩
    rw [applied, earlier] at coherent ⊢
    exact ⟨⟨reply, hreply, applyOne_read made accepted reads⟩, fun value => coherent.get_found⟩

/-- A write, a compaction and a restart, then a read. -/
theorem reads_latest_restarted : ∃ s₀ done s₁ s₂ s replies reply found expires,
    let trace := [(s₀, Action.batch frozen [Message.frame .set [1] [2]] (.ok done)),
      (s₁, .compact frozen.snapshotClock (.ok ())), (s₂, .restart frozen.applyClock)]
    (create wireCodec small frozen.applyClock AofLogger.emptyFs [] .reliable).1 = .ok s₀ ∧
      Calls wireCodec small .faultless s₀ trace s ∧
      (handleBatch wireCodec frozen [Message.frame .get [1] []] .reliable s).1 = .ok replies ∧
      replies[0]? = some reply ∧
      Message.encode .get [1] (readResponse wireCodec .get (some found)) = .ok reply.bytes ∧
      latest Op.key [1] (acknowledgedOps wireCodec trace) = some (.put [1] found expires) := by
  obtain ⟨s₀, created, written, compacted, restarted⟩ := Res.returns_iff.mp (show
    (create wireCodec small frozen.applyClock AofLogger.emptyFs [] .reliable).1.Returns fun s₀ =>
      let call := handleBatch wireCodec frozen [Message.frame .set [1] [2]] .reliable s₀
      let compaction := compact wireCodec frozen.snapshotClock .reliable call.2.2
      (call.1.Returns fun _ => True) ∧ compaction.1 = .ok () ∧
      ((create wireCodec small frozen.applyClock compaction.2.2.aof.fs compaction.2.2.aof.trace
        .reliable).1.Returns fun s =>
          ((handleBatch wireCodec frozen [Message.frame .get [1] []] .reliable s).1.Returns
            fun _ => True) ∧
          ((decodedBatch wireCodec s.cache frozen [Message.frame .get [1] []])[0]? =
            some { request := ⟨.get, [1], [], 0⟩, reply := { consumed := headerSize + 1 + 0 } }) ∧
          (s.cache.get [1] (frozen.applyClock 0).value).1 = some [2]) by decide +kernel)
  obtain ⟨done, written, _⟩ := Res.returns_iff.mp written
  obtain ⟨s, restarted, answered, hd, hfound⟩ := Res.returns_iff.mp restarted
  obtain ⟨replies, answered, _⟩ := Res.returns_iff.mp answered
  have reliable : Oracle.reliable.In .faultless := trivial
  have first : Step wireCodec small .faultless s₀ _ _ :=
    .batch frozen [Message.frame .set [1] [2]] .reliable reliable
  rw [written] at first
  generalize (handleBatch wireCodec frozen [Message.frame .set [1] [2]] .reliable s₀).2.2 = s₁
    at first compacted restarted
  have second : Step wireCodec small .faultless s₁ _ _ :=
    .compact frozen.snapshotClock .reliable reliable
  rw [compacted] at second
  generalize (compact wireCodec frozen.snapshotClock .reliable s₁).2.2 = s₂ at second restarted
  have run : Calls wireCodec small .faultless s₀ _ s :=
    .snoc (.snoc (.snoc .nil (by simp) first) (by simp [Action.Fatal]) second)
      (by simp [Action.Fatal]) (.restart frozen.applyClock .reliable reliable s restarted)
  have hb := AofLogger.emptyFs_bound small.path
  have empty : logged ((AofLogger.emptyFs.named small.path).getD []) = [] := logged_nil
  have modest : Throughout wireCodec Op.Modest s₀ :=
    (created_of_create hb created).1.throughout (by rw [empty]; simp [logOps])
  obtain ⟨⟨reply, hreply, encoded⟩, read⟩ := reads_latest wireCodec_lawful hb created run (by
    simp only [List.forall_mem_append, List.forall_mem_singleton, List.nil_append]
    refine ⟨⟨fun _ _ _ _ => ?_, trivial⟩, trivial⟩
    exact lookupsFit_of_modest wireCodec_lawful modest.held (decodedBatch_from _ _ _) _ _) frozen
    [Message.frame .get [1] []] reliable answered hd (by decide) (Or.inl rfl)
  change Message.encode _ _ (readResponse _ _ (s.cache.get [1] _).1) = _ at encoded
  rw [hfound] at encoded
  obtain ⟨expires, last, _⟩ := read [2] hfound
  rw [empty] at last
  exact ⟨s₀, done, s₁, s₂, s, replies, reply, [2], expires, created, run, answered, hreply, encoded,
    by simpa [logOps, batchOps] using last⟩

/-! ## Without the proviso -/

/-- A batch that does not meet the proviso ends with an exception, and its mutations are in the
log. -/
theorem HandleBatchResult.unacknowledged (lawful : codec.Lawful) {env : Env} {inputs : List Bytes}
    {r : Res Exception (List Reply)}
    (result : HandleBatchResult codec .faultless s env inputs r s') (healthy : Healthy cfg s)
    (writable : Writable codec s.cache)
    (unfit : ¬ (Action.batch env inputs r).LookupsFit codec s) :
    (∃ e, r = .throw e) ∧ ∃ aof,
      Prepared codec .faultless s env (mutations (decodedBatch codec s.cache env inputs)) aof ∧
        s'.log = logged aof.file ++ mutations (decodedBatch codec s.cache env inputs) := by
  simp only [Action.LookupsFit, Classical.not_imp] at unfit
  obtain ⟨alive, _, loggable, accepted, unfit⟩ := unfit
  have batch := size_of_loggable loggable
  have snapshot := size_of_loggable (writable.loggable env.snapshotClock)
  cases result with
  | unavailable failed => simp [alive] at failed
  | committed _ result =>
    cases result with
    | unencodable e he => simp [needsRewrite_error he] at batch
    | uncompacted full hr result =>
      rcases healthy.working.rewrite result with ⟨rfl, _⟩ | ⟨⟨what, rfl⟩ | ⟨e, rfl, he⟩, _⟩
      · exact absurd rfl hr
      · exact absurd (rejected_capacity what) accepted
      · simp [he] at snapshot
    | unlogged ready hr result =>
      obtain ⟨base, _, working⟩ := ready.working healthy
      rcases working.logBatch result with ⟨rfl, _⟩ | ⟨what, rfl, _⟩ | ⟨e, rfl, he, _⟩
      · exact absurd rfl hr
      · exact absurd (rejected_capacity what) accepted
      · simp [he] at batch
    | @applied aof aof' ready result =>
      obtain ⟨base, _, working⟩ := ready.working healthy
      rcases working.logBatch result with ⟨_, _, working'⟩ | ⟨_, hr, _⟩ | ⟨_, hr, _⟩
      · refine ⟨?_, aof, ready, ?_⟩
        · cases ends : (applied codec env aof'.stats (decodedBatch codec s.cache env inputs)
            s.cache).1 with
          | ok replies =>
            exact absurd ((applied_ok_iff lawful writable env _ inputs).mp ⟨_, ends⟩) unfit
          | error e => exact ⟨e, rfl⟩
        · rw [CacheService.log, (settle_cases _ _).1, working'.log_eq, working.log_eq]
      · cases hr
      · cases hr

/-- A batch that looks up the empty key and writes another one. -/
def lookupThenSet : List Bytes := [Message.frame .lookup [] [], Message.frame .set [1] [2]]

theorem decodedBatch_lookupThenSet {c : Cache} (hs : c.CanStore [1] [2]) :
    decodedBatch wireCodec c frozen lookupThenSet = [
      { request := { command := .lookup, key := [] }, reply := { consumed := headerSize } },
      { request := { command := .set, key := [1], value := [2] }
        reply := { consumed := headerSize + 1 + 1 }
        mutation := some ⟨.set, [1], [2]⟩ }] := by
  have short : ([] : Bytes).length ≤ maxKeySize := Nat.zero_le _
  have read := decodedInput_read wireCodec (Or.inr rfl) short c (frozen.decodeClock 0)
  have write : decodedInput wireCodec c (frozen.decodeClock 1) (Message.frame .set [1] [2]) =
      { request := { command := .set, key := [1], value := [2] }
        reply := { consumed := headerSize + 1 + 1 }
        mutation := some ⟨.set, [1], [2]⟩ } := by
    have frame := decodeFrame_frame wireCodec c (frozen.decodeClock 1) .set [1] [2]
      ⟨by simp, by decide, by decide⟩ (Or.inl rfl) (by simp)
    have body : decodeBody wireCodec c (frozen.decodeClock 1) ⟨.set, [1], [2], 0⟩ =
        .ok (⟨.set, [1], [2], 0⟩, some ⟨.set, [1], [2]⟩) := by
      rw [decodeBody]
      dsimp only
      rw [if_neg (by simp [hs, maxValueSize])]
    rw [body] at frame
    rw [decodedInput, decodeInput, frame]
    rfl
  rw [decodedBatch_eq_mapIdx, lookupThenSet]
  simp only [List.mapIdx_cons, List.mapIdx_nil, read, write]
  rfl

theorem loggable_set_one : ∀ m ∈ [(⟨.set, [1], [2]⟩ : Mutation)], Loggable m := by
  rw [List.forall_mem_singleton]
  exact ⟨Or.inl rfl, by simp, by decide, by decide⟩

theorem mutations_lookupThenSet {c : Cache} (storable : c.CanStore [1] [2]) :
    mutations (decodedBatch wireCodec c frozen lookupThenSet) = [⟨.set, [1], [2]⟩] := by
  rw [decodedBatch_lookupThenSet storable]
  rfl

theorem roomy_stores {c : Cache} (limits : ∀ key, (c.getShard key).limits = ⟨4, 2097152⟩) :
    c.CanStore [1] [2] := by
  rw [ShardedCache.canStore_iff, limits]
  decide

section Longest

variable {v : Bytes} (hv : v.length = maxWireValueSize)

include hv

theorem roomy_keeps {fs : Fs} (file : (fs.named roomy.path).getD [] = payload ⟨.set, [], v⟩)
    {clock : Nat → Millis} (start : Created wireCodec roomy clock fs [] s) :
    s.aof.needsRewrite [⟨.set, [1], [2]⟩] = .ok false := by
  obtain ⟨l, opened, haof⟩ := start.opened
  have wire : v.length = 1048640 := hv
  have bytes : s.aof.bytes = 1048652 := by
    rw [haof]
    change l.bytes = _
    rw [opened.bytes_eq, opened.file_eq, file, payload, Message.length_frame, wire]
    simp [headerSize]
  have maxBytes : s.aof.maxBytes = 4194304 := start.ready.maxBytes_eq
  have single : size [(⟨.set, [1], [2]⟩ : Mutation)] = .ok 26 := rfl
  rw [AofLogger.needsRewrite, if_neg (by simp), single, bytes, maxBytes]
  simp [bind, Except.bind, pure, Except.pure, usub]

/-- The batch is not rejected, and its `LOOKUP` finds a value that is too long. -/
theorem lookupThenSet_unfit {fs : Fs} (file : (fs.named roomy.path).getD [] = payload ⟨.set, [], v⟩)
    {clock : Nat → Millis} (start : Created wireCodec roomy clock fs [] s)
    (held : s.cache.Holds (lasting [] v)) (storable : s.cache.CanStore [1] [2])
    {r : Res Exception (List Reply)}
    (result : HandleBatchResult wireCodec .faultless s frozen lookupThenSet r s') :
    ¬ (Action.batch frozen lookupThenSet r).LookupsFit wireCodec s := by
  intro fits
  have healthy := start.healthy.1
  have batch := mutations_lookupThenSet storable
  have exact_ := result.exact healthy.ready start.alive healthy.aof_alive
    (start.writable wireCodec_lawful) (by rw [batch]; exact size_of_loggable loggable_set_one)
  have accepted : ¬ Rejected r := fun rejected => by
    have := (exact_.rejected_iff.mp rejected).1
    rw [batch, roomy_keeps hv file start] at this
    cases this
  have all := fits start.alive (by rw [batch]; simp) (by rw [batch]; exact loggable_set_one)
    accepted
  rw [decodedBatch_lookupThenSet storable] at all
  refine not_lookupFits hv wireCodec_lawful (all.1 (by decide) rfl v ?_)
  exact held.get_eq (lasting_unexpired [] v _)

/-- The batch is appended to the log and then fails. -/
theorem lookupThenSet_fails {fs : Fs} (file : (fs.named roomy.path).getD [] = payload ⟨.set, [], v⟩)
    {clock : Nat → Millis} (start : Created wireCodec roomy clock fs [] s)
    (held : s.cache.Holds (lasting [] v)) (storable : s.cache.CanStore [1] [2]) :
    ∃ err s', Step wireCodec roomy .faultless s (.batch frozen lookupThenSet (.throw err)) s' ∧
      s'.log = [⟨.set, [], v⟩, ⟨.set, [1], [2]⟩] := by
  obtain ⟨healthy, log⟩ := start.healthy
  rw [file, logged, encodes_iff_scan.mp (encodes_longest hv)] at log
  have reliable : Oracle.reliable.In .faultless := trivial
  have step : Step wireCodec roomy .faultless s _ _ :=
    .batch frozen lookupThenSet .reliable reliable
  have result := step.result healthy.ready.live
  generalize (handleBatch wireCodec frozen lookupThenSet .reliable s).1 = r at step result
  generalize (handleBatch wireCodec frozen lookupThenSet .reliable s).2.2 = s' at step result
  obtain ⟨⟨err, rfl⟩, aof, prepared, log'⟩ := result.unacknowledged wireCodec_lawful healthy
    (start.writable wireCodec_lawful) (lookupThenSet_unfit hv file start held storable result)
  rw [mutations_lookupThenSet storable] at prepared log'
  cases prepared with
  | kept => exact ⟨err, s', step, log'.trans (congrArg (· ++ _) log)⟩
  | compacted full =>
    rw [roomy_keeps hv file start] at full
    cases full

/-- A restart on the log with both records finds the second one. -/
theorem roomy_restarts (healthy : Healthy roomy s)
    (log : s.log = [⟨.set, [], v⟩, ⟨.set, [1], [2]⟩]) :
    ∃ s', (create wireCodec roomy frozen.applyClock s.aof.fs s.aof.trace .reliable).1 = .ok s' ∧
      s'.failed = false ∧ s'.cache.Holds (lasting [1] [2]) := by
  obtain ⟨c, hc, limits⟩ := roomy_cache
  obtain ⟨c₁, first, _⟩ := c.put_ok 0 (frozen.applyClock 0).value (canStore_longest hv limits)
  have limits₁ := ShardedCache.limits_eq_of_layout (ShardedCache.layout_put first)
  obtain ⟨c₂, second, _⟩ := c₁.put_ok 0 (frozen.applyClock 1).value
    (roomy_stores fun key => (limits₁ key).trans (limits key))
  have replays : Replays frozen.applyClock 0
      (logOps wireCodec [⟨.set, [], v⟩, ⟨.set, [1], [2]⟩]) c c₂ :=
    .cons first (.cons second (.nil _ _))
  have bound := healthy.ready.live.attached.bound
  rw [healthy.ready.filename_eq] at bound
  have whole := healthy.whole
  rw [log, ← healthy.ready.named_eq] at whole
  have fits := healthy.ready.live.file_le
  rw [← healthy.ready.named_eq, healthy.ready.maxBytes_eq] at fits
  have reliable : Oracle.reliable.In .faultless := trivial
  obtain ⟨s', restarted, rfl⟩ := create_of_replays bound s.aof.trace reliable hc whole fits
    (by simp [mutationOp?]) replays
  refine ⟨s', restarted, (created_of_create bound restarted).1.alive, ?_⟩
  refine ShardedCache.put_holds second ?_ (by simp)
  rw [limits₁, limits]
  decide

end Longest

/-- A batch that was never acknowledged is in the log and is read after a restart. -/
theorem reads_unacknowledged : ∃ v s₀ err s₁ s,
    let trace := [(s₀, Action.batch frozen lookupThenSet (.throw err)),
      (s₁, .restart frozen.applyClock)]
    let fs := (LogFile.only (payload ⟨.set, [], v⟩)).fs
    (create wireCodec roomy frozen.applyClock fs [] .reliable).1 = .ok s₀ ∧
      Calls wireCodec roomy .faultless s₀ trace s ∧
      (handleBatch wireCodec frozen [Message.frame .get [1] []] .reliable s).1 =
        .ok [{ consumed := 13, bytes := Message.frame .get [1] [2] }] ∧
      latest Op.key [1] (logOps wireCodec (logged ((fs.named roomy.path).getD [])) ++
        acknowledgedOps wireCodec trace) = none := by
  obtain ⟨v, hv⟩ : ∃ v : Bytes, v.length = maxWireValueSize :=
    ⟨.replicate _ 0, List.length_replicate⟩
  have file : ((LogFile.only (payload ⟨.set, [], v⟩)).fs.named roomy.path).getD [] =
    payload ⟨.set, [], v⟩ := rfl
  obtain ⟨s₀, created, held⟩ := roomy_admits hv
  have start := (created_of_create (LogFile.only _).bound created).1
  obtain ⟨c, hc, limits⟩ := roomy_cache
  obtain ⟨_, hc', layout⟩ := start.sound.layout
  cases hc'.symm.trans hc
  have storable : s₀.cache.CanStore [1] [2] :=
    roomy_stores fun key => (ShardedCache.limits_eq_of_layout layout key).trans (limits key)
  obtain ⟨err, s₁, step, log⟩ := lookupThenSet_fails hv file start held storable
  have healthy := (step.faultless start.healthy.1).1
  obtain ⟨s, restarted, alive, present⟩ := roomy_restarts hv healthy log
  have reliable : Oracle.reliable.In .faultless := trivial
  have read := (handleBatch_read wireCodec alive present
    (lasting_unexpired [1] [2] (frozen.applyClock 0).value) (by decide) (Or.inl rfl) .reliable).1
    (Message.frame .get [1] [2]) rfl
  refine ⟨v, s₀, err, s₁, s, created, ?_, read, ?_⟩
  · exact .snoc (.snoc .nil (by simp) step) (by simp [Action.Fatal])
      (.restart frozen.applyClock .reliable reliable s restarted)
  · rw [file, logged, encodes_iff_scan.mp (encodes_longest hv)]
    rfl

end KVRPC.Service
