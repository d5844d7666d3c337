import KVRPC.Service.Faultless

/-!
# Exact recovery

Right after a compaction the log is the contents of the cache, shard by shard and oldest
entry first. Until a lookup changes the order of use, or an entry expires, every batch acts
on the cache as its records will when they are replayed, so a restart finds the same cache.

Times are compared with a `deadline`: every reading of the clock comes before it and no
entry expires before it.
-/
namespace KVRPC.Service

open Library Aof Storage ShardedCache

variable {codec : Codec} {cfg : Config} {deadline : UInt64}

/-! ## Effects -/

/-- What an operation does to the entries while nothing expires. -/
def Op.effect (slot : Bytes → Nat) (s : Shape Bytes Bytes) : Op → Shape Bytes Bytes
  | .put key value expires => insertEntry slot s ⟨key, value, expires, entryBytes key value⟩
  | .remove key => s.update (slot key) fun _ => Recency.without Entry.key key

def Op.Lasting (deadline : UInt64) : Op → Prop
  | .put _ _ expires => expires = 0 ∨ deadline ≤ expires
  | .remove _ => True

instance (op : Op) : Decidable (op.Lasting deadline) := by
  cases op <;> unfold Op.Lasting <;> infer_instance

def Op.Storable (c : Cache) : Op → Prop
  | .put key value _ => c.CanStore key value
  | .remove _ => True

theorem Op.storable_congr {c c' : Cache} (h : c.layout = c'.layout) (op : Op) :
    op.Storable c ↔ op.Storable c' := by
  cases op with
  | put key value expires => exact canStore_congr h key value
  | remove key => exact Iff.rfl

theorem storing_storable {c : Cache} {e : Entry Bytes Bytes} (h : c.Holds e) :
    (storing e).Storable c := h.canStore

theorem Op.apply_ok {c : Cache} {op : Op} (h : op.Storable c) (now : Millis) :
    ∃ c', op.apply now c = .ok c' := by
  cases op with
  | put key value expires =>
    obtain ⟨c', hc', _⟩ := c.put_ok expires now.value h
    exact ⟨c', hc'⟩
  | remove key => exact ⟨_, rfl⟩

/-- Before the deadline what lasts until then has not expired. -/
theorem not_expired {expires now : UInt64} (lasting : expires = 0 ∨ deadline ≤ expires)
    (early : now < deadline) : ¬ (expires ≠ 0 ∧ expires ≤ now) := by
  rintro ⟨dated, late⟩
  rcases lasting with undated | later
  · exact dated undated
  · exact UInt64.not_lt.mpr (UInt64.le_trans later late) early

theorem Op.shape_apply {c c' : Cache} {op : Op} {now : Millis} (h : op.apply now c = .ok c')
    (lasting : op.Lasting deadline) (early : now.value < deadline) :
    c'.shape = op.effect c.slot c.shape := by
  cases op with
  | put key value expires =>
    by_cases hs : c.CanStore key value
    · obtain ⟨_, hok, _, _, shaped⟩ := c.put_ok expires now.value hs
      cases hok.symm.trans h
      rw [shaped, Op.effect, insertEntry]
      congr 1
      funext lim es
      rw [LRUCache.Members.putView, if_neg (not_expired lasting early)]
    · rw [Op.apply, c.put_error expires now.value hs] at h
      cases h
  | remove key =>
    cases h
    exact c.remove_shape key

theorem slot_congr {c c' : Cache} (h : c.layout = c'.layout) : c.slot = c'.slot :=
  funext (slot_eq_of_layout h)

theorem Replays.shape {clock : Nat → Millis} {n : Nat} {ops : List Op} {c c' : Cache}
    (h : Replays clock n ops c c') (lasting : ∀ op ∈ ops, op.Lasting deadline)
    (early : ∀ n, (clock n).value < deadline) :
    c'.shape = ops.foldl (Op.effect c.slot) c.shape := by
  induction h with
  | nil => rfl
  | @cons n op ops c c₁ c' head _ ih =>
    rw [ih fun o ho => lasting o (by simp [ho]), slot_congr (Op.layout_apply head),
      Op.shape_apply head (lasting op (by simp)) (early n), List.foldl_cons]

theorem exists_replays (clock : Nat → Millis) (n : Nat) {ops : List Op} {c : Cache}
    (h : ∀ op ∈ ops, op.Storable c) : ∃ c', Replays clock n ops c c' := by
  induction ops generalizing n c with
  | nil => exact ⟨c, .nil n c⟩
  | cons op ops ih =>
    obtain ⟨c₁, head⟩ := Op.apply_ok (h op (by simp)) (clock n)
    obtain ⟨c', tail⟩ := ih (n + 1) fun o ho =>
      (o.storable_congr (Op.layout_apply head)).mpr (h o (by simp [ho]))
    exact ⟨c', .cons head tail⟩

/-! ## Batches -/

/-- A lookup that was not rejected. -/
def Decoded.Reads (d : Decoded) : Prop :=
  d.Accepted ∧ (d.request.command = .get ∨ d.request.command = .lookup)

instance (d : Decoded) : Decidable d.Reads := inferInstanceAs (Decidable (_ ∧ _))

theorem execute_writes {now : Millis} {metrics : Option TransportStats} {disk : AofStats}
    {request : Request} {c c' : Cache} {response : Bytes}
    (h : execute codec now metrics disk request c = (.ok response, c'))
    (writes : ¬ (request.command = .get ∨ request.command = .lookup)) :
    request.op? = none ∧ c' = c ∨ ∃ op, request.op? = some op ∧ op.apply now c = .ok c' := by
  obtain ⟨command, key, value, expires⟩ := request
  cases command with
  | set | setTtl =>
    refine Or.inr ⟨_, rfl, ?_⟩
    cases hp : c.put key value expires now.value with
    | error e => simp [execute, hp] at h
    | ok c₁ =>
      obtain ⟨_, rfl⟩ : [] = response ∧ c₁ = c' := by simpa [execute, hp] using h
      exact hp
  | del =>
    cases h
    exact Or.inr ⟨_, rfl, rfl⟩
  | get | lookup => simp at writes
  | stats | unknown => exact Or.inl ⟨rfl, (congrArg Prod.snd h).symm⟩

theorem applyOne_writes {now : Millis} {metrics : Option TransportStats} {disk : AofStats}
    {d : Decoded} {c c' : Cache} {reply : Reply}
    (h : applyOne codec now metrics disk d c = (.ok reply, c')) (writes : ¬ d.Reads) :
    d.op? = none ∧ c' = c ∨ ∃ op, d.op? = some op ∧ op.apply now c = .ok c' := by
  unfold applyOne at h
  by_cases taken : d.Accepted
  · rw [if_neg (by rwa [Decoded.not_accepted_iff, not_not])] at h
    rw [Decoded.op?, if_pos taken]
    cases hx : execute codec now metrics disk d.request c with
    | mk r c₁ =>
      cases r with
      | error e => rw [hx] at h; cases h
      | ok response =>
        rw [hx] at h
        dsimp only at h
        split at h
        · cases h
        · cases h
          exact execute_writes hx fun reads => writes ⟨taken, reads⟩
  · rw [if_pos (Decoded.not_accepted_iff.mpr taken)] at h
    cases h
    exact Or.inl ⟨if_neg taken, rfl⟩

theorem applyAll_shape {clock : Nat → Millis} {metrics : Option TransportStats} {disk : AofStats}
    {i : Nat} {ds : List Decoded} {c c' : Cache} {replies : List Reply}
    (h : applyAll codec clock metrics disk i ds c = (.ok replies, c'))
    (writes : ∀ d ∈ ds, ¬ d.Reads) (lasting : ∀ op ∈ batchOps ds, op.Lasting deadline)
    (early : ∀ n, (clock n).value < deadline) :
    c'.shape = (batchOps ds).foldl (Op.effect c.slot) c.shape := by
  induction ds generalizing i c replies with
  | nil => cases h; rfl
  | cons d ds ih =>
    obtain ⟨reply, rest, c₁, one, tail, rfl⟩ := applyAll_cons_eq_ok.mp h
    rw [batchOps_cons] at lasting ⊢
    have later := ih tail (fun x hx => writes x (by simp [hx])) fun op hop =>
      lasting op (by simp [hop])
    rcases applyOne_writes one (writes d (by simp)) with ⟨none, rfl⟩ | ⟨op, some, applies⟩
    · rw [later, none]
      rfl
    · rw [later, some, slot_congr (Op.layout_apply applies),
        Op.shape_apply applies (lasting op (by simp [some])) (early i)]
      rfl

/-- A request is logged exactly if it is an operation. -/
theorem DecodedAs.mutation_isSome {cache : Cache} {now : Millis} {data : Bytes} {d : Decoded}
    (h : DecodedAs codec cache now data d) : d.mutation.isSome = d.op?.isSome := by
  cases h with
  | incomplete => rfl
  | rejected => rfl
  | read command key total ht hc hk =>
    rcases hc with rfl | rfl | rfl <;> simp [Decoded.op?, Request.op?]
  | set key value total ht | setTtl key item total ht | del key total ht =>
    have accepted : total ≠ 0 := by omega
    simp [Decoded.op?, Decoded.Accepted, Request.op?, accepted]

theorem mutations_parsed (lawful : codec.Lawful) {cache : Cache} {env : Env} {inputs : List Bytes}
    (loggable : ∀ m ∈ mutations (decodedBatch codec cache env inputs), Loggable m) :
    ∀ m ∈ mutations (decodedBatch codec cache env inputs), (mutationOp? codec m).isSome := by
  intro m hm
  obtain ⟨d, hd, logged⟩ := List.mem_filterMap.mp hm
  obtain ⟨_, _, _, decoded⟩ := (decodedBatch_from cache env inputs).each hd
  have same := decoded.mutationOp_eq lawful fun m' hm' => by
    cases hm'.symm.trans logged
    exact loggable m hm
  rw [logged, Option.bind_some] at same
  rw [same, ← decoded.mutation_isSome, logged]
  rfl

theorem batchOps_storable (cache : Cache) (env : Env) (inputs : List Bytes) :
    ∀ op ∈ batchOps (decodedBatch codec cache env inputs), op.Storable cache := by
  intro op hop
  rcases mem_batchOps hop with ⟨key, value, expires, rfl, _, _, hs⟩ | ⟨key, rfl⟩
  · exact hs
  · trivial

/-! ## Logs that recreate a cache -/

/-- Replaying the log before the deadline results in the same cache. -/
structure Recreates (codec : Codec) (deadline : UInt64) (ms : List Mutation) (c : Cache) :
    Prop where
  parsed : ∀ m ∈ ms, (mutationOp? codec m).isSome
  storable : ∀ op ∈ logOps codec ms, op.Storable c
  lasting : ∀ op ∈ logOps codec ms, op.Lasting deadline
  held : ∀ e, c.Holds e → (storing e).Lasting deadline
  shape_eq : c.shape = (logOps codec ms).foldl (Op.effect c.slot) c.blank

variable {ms : List Mutation} {c c' c₀ : Cache}

theorem recreates_nil
    (h : ShardedCache.create cfg.hash cfg.capacity cfg.shards cfg.maxCacheBytes = .ok c) :
    Recreates codec deadline [] c :=
  ⟨by simp, by simp [logOps], by simp [logOps], fun e he => absurd he (not_holds_create h e),
    shape_create h⟩

/-- A snapshot recreates the cache it was taken of. -/
theorem recreates_snapshot (lawful : codec.Lawful)
    (held : ∀ e, c.Holds e → (storing e).Lasting deadline) {clock : Nat → Nat → Millis}
    (early : ∀ i j, (clock i j).value < deadline)
    (loggable : ∀ m ∈ snapshotMutations codec c clock, Loggable m) :
    Recreates codec deadline (snapshotMutations codec c clock) c := by
  have all : c.snapshot (fun i j => (clock i j).value) = c.entries :=
    snapshot_eq_entries fun e he i j => not_expired (held e he) (early i j)
  have ops : logOps codec (snapshotMutations codec c clock) = c.entries.map storing := by
    rw [snapshotMutations, logOps_snapshot lawful loggable, all]
  refine ⟨fun m hm => ?_, fun op hop => ?_, fun op hop => ?_, held, ?_⟩
  · obtain ⟨e, _, rfl⟩ := List.mem_map.mp hm
    rw [mutationOp_snapshot lawful (loggable _ hm)]
    rfl
  · rw [ops] at hop
    obtain ⟨e, he, rfl⟩ := List.mem_map.mp hop
    exact storing_storable (mem_entries.mp he)
  · rw [ops] at hop
    obtain ⟨e, he, rfl⟩ := List.mem_map.mp hop
    exact held e (mem_entries.mp he)
  · rw [ops, List.foldl_map, ← foldl_entries]
    refine (List.foldl_ext _ _ _ fun s e he => ?_).symm
    rw [storing, Op.effect, ← (mem_entries.mp he).cost_eq]

theorem Recreates.congr (h : Recreates codec deadline ms c) (shape : c'.shape = c.shape)
    (layout : c'.layout = c.layout) : Recreates codec deadline ms c' := by
  refine ⟨h.parsed, fun op hop => (op.storable_congr layout).mpr (h.storable op hop), h.lasting,
    fun e he => h.held e ?_, ?_⟩
  · rw [holds_iff_shape] at he ⊢
    rwa [← shape]
  · rw [shape, slot_congr layout, blank, layout]
    exact h.shape_eq

/-- A batch that only writes is recreated by its records. -/
theorem Recreates.batch (lawful : codec.Lawful) (h : Recreates codec deadline ms c) {env : Env}
    {inputs : List Bytes} {disk : AofStats} {replies : List Reply}
    (happlied : applied codec env disk (decodedBatch codec c env inputs) c = (.ok replies, c'))
    (loggable : ∀ m ∈ mutations (decodedBatch codec c env inputs), Loggable m)
    (writes : ∀ d ∈ decodedBatch codec c env inputs, ¬ d.Reads)
    (lasting : ∀ op ∈ batchOps (decodedBatch codec c env inputs), op.Lasting deadline)
    (early : ∀ n, (env.applyClock n).value < deadline) :
    Recreates codec deadline (ms ++ mutations (decodedBatch codec c env inputs)) c' := by
  have layout : (applied codec env disk (decodedBatch codec c env inputs) c).2.layout = c.layout :=
    layout_applyAll _ _ _ _ _ _
  have ops := logOps_mutations lawful (decodedBatch_from c env inputs) loggable
  have held := held_applied codec env disk h.held lasting
  rw [happlied] at layout held
  refine ⟨?_, ?_, ?_, held, ?_⟩
  · intro m hm
    rcases List.mem_append.mp hm with hm | hm
    · exact h.parsed m hm
    · exact mutations_parsed lawful loggable m hm
  · intro op hop
    rw [logOps_append, ops] at hop
    rw [op.storable_congr layout]
    rcases List.mem_append.mp hop with hop | hop
    · exact h.storable op hop
    · exact batchOps_storable c env inputs op hop
  · intro op hop
    rw [logOps_append, ops] at hop
    rcases List.mem_append.mp hop with hop | hop
    · exact h.lasting op hop
    · exact lasting op hop
  · rw [logOps_append, ops, List.foldl_append, slot_congr layout, blank, layout,
      ← blank, ← h.shape_eq]
    exact applyAll_shape happlied writes lasting early

theorem Recreates.rebuilt (h : Recreates codec deadline ms c)
    (hc : ShardedCache.create cfg.hash cfg.capacity cfg.shards cfg.maxCacheBytes = .ok c₀)
    (layout : c.layout = c₀.layout) {clock : Nat → Millis} {n : Nat}
    (replays : Replays clock n (logOps codec ms) c₀ c')
    (early : ∀ n, (clock n).value < deadline) : c'.shape = c.shape := by
  rw [replays.shape h.lasting early, h.shape_eq, shape_create hc, slot_congr layout, blank, blank,
    layout]

/-! ## Runs -/

/-- A batch without lookups, before the deadline and with no entry that expires before it. -/
structure Writes (codec : Codec) (deadline : UInt64) (s : CacheService) (env : Env)
    (inputs : List Bytes) : Prop where
  noReads : ∀ d ∈ decodedBatch codec s.cache env inputs, ¬ d.Reads
  lasting : ∀ op ∈ batchOps (decodedBatch codec s.cache env inputs), op.Lasting deadline
  applyEarly : ∀ n, (env.applyClock n).value < deadline
  snapshotEarly : ∀ i j, (env.snapshotClock i j).value < deadline

def Action.Writes (codec : Codec) (deadline : UInt64) (s : CacheService) : Action → Prop
  | .batch env inputs r => (∃ replies, r = .ok replies) ∧ Service.Writes codec deadline s env inputs
  | .compact clock _ => ∀ i j, (clock i j).value < deadline
  | .restart clock => ∀ n, (clock n).value < deadline

/-- A working log that recreates the cache. -/
structure Recoverable (codec : Codec) (cfg : Config) (deadline : UInt64) (s : CacheService) :
    Prop extends Healthy cfg s where
  recreates : Recreates codec deadline s.log s.cache

variable {s s' : CacheService}

theorem Working.recoverable (h : Working cfg s.aof ms)
    (layout : ∃ c : Cache,
      ShardedCache.create cfg.hash cfg.capacity cfg.shards cfg.maxCacheBytes = .ok c ∧
        s.cache.layout = c.layout)
    (recreates : Recreates codec deadline ms s.cache) : Recoverable codec cfg deadline s :=
  ⟨h.healthy layout, by rw [CacheService.log, h.log_eq]; exact recreates⟩

/-- The logger a batch is handed to recreates the cache if it did before or was rewritten. -/
theorem Prepared.recreates (lawful : codec.Lawful) {env : Env} {aof : AofLogger}
    (prepared : Prepared codec .faultless s env ms aof) (sound : Sound cfg s)
    (start : Recoverable codec cfg deadline s ∨ s.aof.needsRewrite ms = .ok true)
    (held : ∀ e, s.cache.Holds e → (storing e).Lasting deadline)
    (early : ∀ i j, (env.snapshotClock i j).value < deadline) :
    ∃ base, Working cfg aof base ∧ Recreates codec deadline base s.cache := by
  cases prepared with
  | kept roomy =>
    rcases start with h | full
    · exact ⟨s.log, h.toHealthy.working, h.recreates⟩
    · cases roomy.symm.trans full
  | compacted _ result =>
    obtain ⟨loggable, working⟩ := sound.ready.rewritten result
    exact ⟨_, working, recreates_snapshot lawful held early loggable⟩

theorem HandleBatchResult.recoverable (lawful : codec.Lawful) {env : Env} {inputs : List Bytes}
    {r : Res Exception (List Reply)}
    (result : HandleBatchResult codec .faultless s env inputs r s') (sound : Sound cfg s)
    (start : Recoverable codec cfg deadline s ∨
      s.aof.needsRewrite (mutations (decodedBatch codec s.cache env inputs)) = .ok true)
    (held : ∀ e, s.cache.Holds e → (storing e).Lasting deadline)
    (writes : Writes codec deadline s env inputs) (answered : ∃ replies, r = .ok replies) :
    Recoverable codec cfg deadline s' := by
  obtain ⟨replies, hr⟩ := answered
  cases result with
  | unavailable => cases hr
  | committed _ result =>
    cases result with
    | unencodable => cases hr
    | @uncompacted r _ _ hne | @unlogged r _ _ _ hne =>
      cases r with
      | ok => exact absurd rfl hne
      | throw | crash => cases hr
    | @applied aof aof' prepared result =>
      obtain ⟨base, working, recreates⟩ :=
        prepared.recreates lawful sound start held writes.snapshotEarly
      rcases working.logBatch result with ⟨_, loggable, working'⟩ | ⟨_, bad, _⟩ | ⟨_, bad, _⟩
      · have ok := Res.ok_eq_ofExcept.mp hr.symm
        have happlied : applied codec env aof'.stats (decodedBatch codec s.cache env inputs)
          s.cache = (.ok replies, _) := Prod.ext ok rfl
        have next := recreates.batch lawful happlied loggable writes.noReads writes.lasting
          writes.applyEarly
        obtain ⟨c, hc, layout⟩ := sound.layout
        rw [hr]
        exact Working.recoverable (s := { s with aof := aof', cache := _ }) working'
          ⟨c, hc, (layout_applyAll _ _ _ _ _ _).trans layout⟩ next
      · cases bad
      · cases bad

theorem Step.recoverable (lawful : codec.Lawful) {a : Action}
    (step : Step codec cfg .faultless s a s') (h : Recoverable codec cfg deadline s)
    (writes : a.Writes codec deadline s) : Recoverable codec cfg deadline s' := by
  obtain ⟨healthy, ends⟩ := step.faultless h.toHealthy
  rcases ends with ⟨env, inputs, r, rfl, _⟩ | ⟨clock, r, rfl, cache, _, base, _⟩ |
    ⟨clock, c, rfl, _, log, hc, replays⟩
  · have result := step.result h.ready.live
    exact result.recoverable lawful h.toSound (Or.inl h) h.recreates.held writes.2 writes.1
  · refine ⟨healthy, ?_⟩
    rw [cache]
    rcases base with log | ⟨log, loggable⟩
    · rw [log]
      exact h.recreates
    · rw [log] at loggable ⊢
      exact recreates_snapshot lawful h.recreates.held writes loggable
  · obtain ⟨_, hc', layout⟩ := h.layout
    cases hc'.symm.trans hc
    refine ⟨healthy, ?_⟩
    rw [log]
    exact h.recreates.congr (h.recreates.rebuilt hc layout replays writes)
      (replays.layout.trans layout.symm)

/-- Where exact recovery begins: a service constructed on an empty log, and any state of any
run right after a compaction, explicit or made for a batch. -/
inductive Compacted (codec : Codec) (cfg : Config) (deadline : UInt64) : CacheService → Prop where
  | created {fs : Fs} (hb : fs.Bound cfg.path) (empty : (fs.named cfg.path).getD [] = [])
      {clock : Nat → Millis} {o : Oracle} {s₀ : CacheService}
      (created : (create codec cfg clock fs [] o).1 = .ok s₀) : Compacted codec cfg deadline s₀
  | compacted {fs : Fs} (hb : fs.Bound cfg.path) {clock : Nat → Millis} {o : Oracle}
      {s₀ s : CacheService} (created : (create codec cfg clock fs [] o).1 = .ok s₀)
      {trace : List (CacheService × Action)} (run : Calls codec cfg .faulty s₀ trace s)
      (survives : ∀ e ∈ trace, ¬ e.2.Fatal)
      (resident : ∀ e, s.cache.Holds e → (storing e).Lasting deadline)
      (snapshotClock : Nat → Nat → Millis)
      (early : ∀ i j, (snapshotClock i j).value < deadline) {o' : Oracle}
      (ok : (compact codec snapshotClock o' s).1 = .ok ()) :
      Compacted codec cfg deadline (compact codec snapshotClock o' s).2.2
  | rewritten {fs : Fs} (hb : fs.Bound cfg.path) {clock : Nat → Millis} {o : Oracle}
      {s₀ s : CacheService} (created : (create codec cfg clock fs [] o).1 = .ok s₀)
      {trace : List (CacheService × Action)} (run : Calls codec cfg .faulty s₀ trace s)
      (survives : ∀ e ∈ trace, ¬ e.2.Fatal)
      (resident : ∀ e, s.cache.Holds e → (storing e).Lasting deadline) (env : Env)
      (inputs : List Bytes) (writes : Writes codec deadline s env inputs)
      (full : s.aof.needsRewrite (mutations (decodedBatch codec s.cache env inputs)) = .ok true)
      {o' : Oracle} (ho' : o'.NoFailure)
      (ok : ∃ replies, (handleBatch codec env inputs o' s).1 = .ok replies) :
      Compacted codec cfg deadline (handleBatch codec env inputs o' s).2.2

theorem Compacted.recoverable (lawful : codec.Lawful) (h : Compacted codec cfg deadline s) :
    Recoverable codec cfg deadline s := by
  cases h with
  | created hb empty created =>
    have created := (created_of_create hb created).1
    obtain ⟨healthy, log⟩ := created.healthy
    obtain ⟨c, hc, _, _, replays⟩ := created.cache_replays
    rw [empty, logged_nil] at log replays
    refine ⟨healthy, ?_⟩
    cases replays
    rw [log]
    exact recreates_nil hc
  | @compacted _ hb _ _ _ s created _ run survives resident snapshotClock early o' ok =>
    have sound := run.sound (created_of_create hb created).1 survives
    have faulty : o'.In .faulty := trivial
    obtain ⟨aof, hs, result⟩ := (wp_compactLocked snapshotClock sound.ready.live).run faulty
    unfold compact at ok ⊢
    rw [ok] at result
    rw [hs]
    obtain ⟨loggable, working⟩ := sound.ready.rewritten result
    exact Working.recoverable (s := { s with aof := aof }) working sound.layout
      (recreates_snapshot lawful resident early loggable)
  | @rewritten _ hb _ _ _ s created _ run survives resident env inputs writes full o' ho' ok =>
    have sound := run.sound (created_of_create hb created).1 survives
    have faultless : o'.In .faultless := ho'
    have result := (wp_handleBatch codec env inputs sound.ready.live).run faultless
    exact result.recoverable lawful sound (Or.inr full) resident writes ok

/-- **Exact recovery.** From such a state on, as long as batches only write and nothing
expires, a restart without I/O failures succeeds and finds in every shard the entries of
the live cache in the same order. -/
theorem recovery_exact (lawful : codec.Lawful) {s₁ : CacheService}
    (start : Compacted codec cfg deadline s₁) {trace : List (CacheService × Action)}
    (run : Calls codec cfg .faultless s₁ trace s)
    (writes : ∀ e ∈ trace, e.2.Writes codec deadline e.1) {clock : Nat → Millis}
    (early : ∀ n, (clock n).value < deadline) {o : Oracle} (ho : o.NoFailure) :
    ∃ s', (create codec cfg clock s.aof.fs s.aof.trace o).1 = .ok s' ∧
      s'.cache.shape = s.cache.shape := by
  have recoverable : Recoverable codec cfg deadline s := by
    refine run.invariant (fun _ s => Recoverable codec cfg deadline s)
      (fun s a => a.Writes codec deadline s) (start.recoverable lawful) ?_ writes
    intro _ s a s' h writes step
    exact step.recoverable lawful h writes
  obtain ⟨c, hc, layout⟩ := recoverable.layout
  have recreates := recoverable.recreates
  have bound := recoverable.ready.live.attached.bound
  rw [recoverable.ready.filename_eq] at bound
  obtain ⟨c', replays⟩ := exists_replays clock 0 fun op hop =>
    (op.storable_congr layout).mp (recreates.storable op hop)
  obtain ⟨s', created, cache⟩ := create_of_replays bound s.aof.trace ho hc
    (by rw [recoverable.ready.named_eq]; exact recoverable.whole)
    (by rw [recoverable.ready.named_eq, ← recoverable.ready.maxBytes_eq]
        exact recoverable.ready.live.file_le)
    recreates.parsed replays
  exact ⟨s', created, cache ▸ recreates.rebuilt hc layout replays early⟩

/-- After a lookup and a compaction, a write and a restart. -/
theorem recovery_exact_written : ∃ s₁ r s s',
    Compacted wireCodec small 1800000000000 s₁ ∧
      Calls wireCodec small .faultless s₁
        [(s₁, .batch frozen [Message.frame .set [5] [6]] r)] s ∧
      (create wireCodec small frozen.applyClock s.aof.fs s.aof.trace .reliable).1 = .ok s' ∧
      s'.cache.shape = s.cache.shape := by
  obtain ⟨s₀, created, answered, resident, ok, answered', noReads, lasting⟩ :=
    Res.returns_iff.mp (show
      (create wireCodec small frozen.applyClock AofLogger.emptyFs [] .reliable).1.Returns fun s₀ =>
        let call := handleBatch wireCodec frozen [Message.frame .set [1] [2],
          Message.frame .set [3] [4], Message.frame .get [1] []] .reliable s₀
        let compaction := compact wireCodec frozen.snapshotClock .reliable call.2.2
        let s₁ := compaction.2.2
        let ds := decodedBatch wireCodec s₁.cache frozen [Message.frame .set [5] [6]]
        (call.1.Returns fun _ => True) ∧
        (∀ p ∈ call.2.2.cache.shape, ∀ e ∈ p.2, (storing e).Lasting 1800000000000) ∧
        compaction.1 = .ok () ∧
        ((handleBatch wireCodec frozen [Message.frame .set [5] [6]] .reliable s₁).1.Returns
          fun _ => True) ∧
        (∀ d ∈ ds, ¬ d.Reads) ∧ (∀ op ∈ batchOps ds, op.Lasting 1800000000000) by decide +kernel)
  obtain ⟨_, answered, _⟩ := Res.returns_iff.mp answered
  obtain ⟨replies, answered', _⟩ := Res.returns_iff.mp answered'
  have early : (1700000000000 : UInt64) < 1800000000000 := by decide
  have before : Calls wireCodec small .faulty s₀ [_] _ := .snoc .nil (by simp)
    (.batch frozen [Message.frame .set [1] [2], Message.frame .set [3] [4],
      Message.frame .get [1] []] .reliable trivial)
  have start : Compacted wireCodec small 1800000000000 _ :=
    .compacted (AofLogger.emptyFs_bound small.path) created before
      (by simp [Action.Fatal, answered]) (fun e he => by
        obtain ⟨p, hp, he⟩ := holds_iff_shape.mp he
        exact resident p hp e he) frozen.snapshotClock (fun _ _ => early) ok
  have run : ∀ s₁, Calls wireCodec small .faultless s₁ [(s₁, _)] _ := fun s₁ =>
    .snoc .nil (by simp) (.batch frozen [Message.frame .set [5] [6]] .reliable trivial)
  have reliable : Oracle.reliable.NoFailure := trivial
  have early' : ∀ n, (frozen.applyClock n).value < 1800000000000 := fun _ => early
  obtain ⟨s', restarted, same⟩ := recovery_exact wireCodec_lawful start (run _) (by
    rw [List.forall_mem_singleton]
    exact ⟨⟨replies, answered'⟩, noReads, lasting, fun _ => early, fun _ _ => early⟩)
    early' reliable
  exact ⟨_, _, _, s', start, run _, restarted, same⟩

end KVRPC.Service
