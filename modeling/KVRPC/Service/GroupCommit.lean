import KVRPC.Service.Compaction

/-!
# Group commit

`HandleBatch` decodes all inputs, logs their mutations at once and then applies them. Handed
over one by one, the same inputs go through the three phases in turn, and the log may be
rewritten between them. Replies and cache are the same as long as those rewrites find room,
and they do: every entry a snapshot contains has a record in the log that is no shorter.

This needs a clock that does not run backwards, as the length of a snapshot does.
-/
namespace KVRPC.Service

open Library Aof Storage

variable {codec : Codec} {cfg : Config} {now : Millis} {s s' : CacheService} {env : Env}
  {inputs : List Bytes} {r : Res Exception (List Reply)}

/-- `HandleBatch` on one input after the other. -/
def serially (codec : Codec) (env : Nat → Env) : Nat → List Bytes → ServiceM (List Reply)
  | _, [] => pure []
  | i, data :: inputs => do
    let first ← handleBatch codec (env i) [data]
    let rest ← serially codec env (i + 1) inputs
    return first ++ rest

/-! ## Replies without counters -/

/-- A request whose reply shows no counters. -/
def Decoded.Plain (d : Decoded) : Prop :=
  d.request.command ≠ .stats ∧ d.request.command ≠ .unknown

theorem DecodedAs.plain {cache : Cache} {data : Bytes} {d : Decoded}
    (h : DecodedAs codec cache now data d) (other : d.request.command ≠ .stats) : d.Plain := by
  refine ⟨other, ?_⟩
  cases h with
  | read command key total ht hc hk => rcases hc with rfl | rfl | rfl <;> simp
  | incomplete | rejected | set | setTtl | del => simp

theorem applyOne_congr {d : Decoded} (plain : d.Plain) (metrics metrics' : Option TransportStats)
    (disk disk' : AofStats) (c : Cache) :
    applyOne codec now metrics disk d c = applyOne codec now metrics' disk' d c := by
  have same : ∀ request : Request, request.command ≠ .stats → request.command ≠ .unknown →
      execute codec now metrics disk request c = execute codec now metrics' disk' request c := by
    rintro ⟨command, key, value, expires⟩ stats unknown
    cases command with
    | set | setTtl | del | get | lookup => rfl
    | stats => exact absurd rfl stats
    | unknown => exact absurd rfl unknown
  rw [applyOne, applyOne, same d.request plain.1 plain.2]

/-! ## One input -/

/-- Whether a batch that was answered had the log rewritten shows in the counter. -/
theorem HandleBatchResult.rewrites (result : HandleBatchResult codec .faultless s env inputs r s')
    (ready : Ready cfg s.aof) (answered : ∃ replies, r = .ok replies) :
    (s.aof.needsRewrite (mutations (decodedBatch codec s.cache env inputs)) = .ok false ∧
      s'.aof.stats.rewrites = s.aof.stats.rewrites ∧
      s'.aof.file = s.aof.file ++ records (mutations (decodedBatch codec s.cache env inputs))) ∨
    s'.aof.stats.rewrites = s.aof.stats.rewrites + 1 := by
  obtain ⟨replies, hr⟩ := answered
  cases result with
  | unavailable => cases hr
  | committed _ result =>
    rw [(settle_cases _ r).1]
    cases result with
    | unencodable => cases hr
    | @uncompacted r _ _ hne | @unlogged r _ _ _ hne =>
      cases r with
      | ok => exact absurd rfl hne
      | throw | crash => cases hr
    | @applied aof aof' prepared result =>
      have counted : aof'.stats.rewrites = aof.stats.rewrites := by cases result <;> rfl
      cases prepared with
      | kept roomy =>
        refine Or.inl ⟨roomy, counted, ?_⟩
        cases result with
        | empty none => rw [none, records_nil, List.append_nil]
        | appended => exact AofLogger.file_afterAppend ready.atEnd _ _
      | compacted _ rewritten =>
        refine Or.inr (counted.trans ?_)
        cases rewritten with
        | rewritten => rfl
        | unpublished => contradiction

/-- The service has logged `ms`, possibly after a rewrite, and its cache is `c`. -/
structure Advanced (codec : Codec) (cfg : Config) (now : Millis) (s : CacheService)
    (ms : List Mutation) (c : Cache) (s' : CacheService) : Prop where
  current : Current codec cfg now s'
  alive : s'.failed = false
  cache_eq : s'.cache = c
  bytes_le : s'.aof.bytes ≤ s.aof.bytes + (records ms).length
  rewrites_le : s.aof.stats.rewrites ≤ s'.aof.stats.rewrites
  file_eq : s'.aof.stats.rewrites = s.aof.stats.rewrites → s'.aof.file = s.aof.file ++ records ms

theorem Advanced.trans {ms' : List Mutation} {c c' : Cache} {s'' : CacheService}
    (h : Advanced codec cfg now s ms c s') (h' : Advanced codec cfg now s' ms' c' s'') :
    Advanced codec cfg now s (ms ++ ms') c' s'' := by
  refine ⟨h'.current, h'.alive, h'.cache_eq, ?_, h.rewrites_le.trans h'.rewrites_le, fun same => ?_⟩
  · have := h.bytes_le
    have := h'.bytes_le
    rw [records_append, List.length_append]
    omega
  · have := h.rewrites_le
    have := h'.rewrites_le
    rw [h'.file_eq (by omega), h.file_eq (by omega), records_append, List.append_assoc]

/-- A single input for which there is room is answered as in a batch. -/
theorem wp_single (lawful : codec.Lawful) (h : Current codec cfg now s) (alive : s.failed = false)
    (frozen : env.Frozen now) {data : Bytes}
    (plain : (decodedInput codec s.cache now data).Plain)
    (loggable : ∀ m ∈ mutations [decodedInput codec s.cache now data], Loggable m)
    (room : s.aof.bytes + (records (mutations [decodedInput codec s.cache now data])).length ≤
      cfg.maxAofBytes) {metrics : Option TransportStats} {disk : AofStats} {reply : Reply}
    {c : Cache}
    (one : applyOne codec now metrics disk (decodedInput codec s.cache now data) s.cache =
      (.ok reply, c)) :
    Sys.wp .faultless (handleBatch codec env [data]) (fun r s' => r = .ok [reply] ∧
      Advanced codec cfg now s (mutations [decodedInput codec s.cache now data]) c s') s := by
  refine (wp_handleBatch codec env [data] h.ready.live).mono fun r s' result => ?_
  have decoded : decodedBatch codec s.cache env [data] = [decodedInput codec s.cache now data] :=
    decodedBatch_frozen frozen [data]
  rw [← decoded] at loggable room ⊢
  obtain ⟨accepted, base, short, file⟩ :=
    result.not_rejected lawful h alive (fun i j => (frozen.snapshot i j ▸ UInt64.le_refl _))
      loggable room
  have current := result.current lawful h fun i j => by rw [frozen.snapshot]; exact UInt64.le_refl _
  have rewrites := result.rewrites h.ready
  have answered : r = .ok [reply] ∧ s'.failed = false ∧ s'.cache = c := by
    cases (result.faultless h.toHealthy).2 with
    | unavailable failed => simp [alive] at failed
    | refused _ e he =>
      rw [size_of_loggable loggable, size_of_loggable
        (snapshotMutations_loggable lawful h.modest.held env.snapshotClock)] at he
      simp at he
    | rejected => exact absurd (rejected_capacity _) accepted
    | @done _ _ _ _ aof _ r cache happlied =>
      rw [decoded] at happlied
      have both : applied codec env aof.stats [decodedInput codec s.cache now data] s.cache =
          (.ok [reply], c) := by
        refine applyAll_cons_eq_ok.mpr ⟨reply, [], c, ?_, rfl, rfl⟩
        rw [frozen.apply, applyOne_congr plain env.metrics metrics aof.stats disk]
        exact one
      cases happlied.symm.trans both
      exact ⟨rfl, alive, rfl⟩
  obtain ⟨hr, alive', cache⟩ := answered
  refine ⟨hr, current, alive', cache, ?_, ?_, ?_⟩
  · rw [current.ready.bytes_eq current.aof_alive, file, List.length_append]
    omega
  · rcases rewrites ⟨_, hr⟩ with ⟨_, same, _⟩ | more
    · exact same.ge
    · omega
  · intro same
    rcases rewrites ⟨_, hr⟩ with ⟨_, _, file⟩ | more
    · exact file
    · omega

/-! ## All inputs -/

theorem Sound.layout_eq (h : Sound cfg s) (h' : Sound cfg s') :
    s'.cache.layout = s.cache.layout := by
  obtain ⟨c, hc, layout⟩ := h.layout
  obtain ⟨c', hc', layout'⟩ := h'.layout
  cases hc.symm.trans hc'
  exact layout'.trans layout.symm

theorem wp_serially (lawful : codec.Lawful) {envs : Nat → Env}
    (frozen : ∀ i, (envs i).Frozen now) {cache c : Cache} {clock : Nat → Millis}
    (stopped : ∀ i, clock i = now) {metrics : Option TransportStats} {disk : AofStats} (i k : Nat)
    (h : Current codec cfg now s) (alive : s.failed = false)
    (layout : s.cache.layout = cache.layout)
    (plain : ∀ data ∈ inputs, (decodedInput codec cache now data).Plain)
    (loggable : ∀ m ∈ mutations (inputs.map (decodedInput codec cache now)), Loggable m)
    (room : s.aof.bytes +
      (records (mutations (inputs.map (decodedInput codec cache now)))).length ≤ cfg.maxAofBytes)
    {replies : List Reply}
    (happlied : applyAll codec clock metrics disk k (inputs.map (decodedInput codec cache now))
      s.cache = (.ok replies, c)) :
    Sys.wp .faultless (serially codec envs i inputs) (fun r s' => r = .ok replies ∧
      Advanced codec cfg now s (mutations (inputs.map (decodedInput codec cache now))) c s') s := by
  induction inputs generalizing i k s replies with
  | nil =>
    cases happlied
    exact Sys.wp_pure ⟨rfl, h, alive, rfl, Nat.le_refl _, Nat.le_refl _, fun _ => by
      rw [List.map_nil, mutations, List.filterMap_nil, records_nil, List.append_nil]⟩
  | cons data inputs ih =>
    rw [List.map_cons] at loggable room happlied ⊢
    rw [mutations_cons] at loggable room ⊢
    rw [records_append, List.length_append] at room
    obtain ⟨reply, rest, c₁, one, tail, rfl⟩ := applyAll_cons_eq_ok.mp happlied
    rw [stopped] at one
    have same := decodedInput_congr codec layout now data
    rw [← same] at loggable room one ⊢
    refine Sys.wp_bind ((wp_single lawful h alive (frozen i) ?_ ?_ ?_ one).mono ?_)
    · rw [same]
      exact plain data List.mem_cons_self
    · exact fun m hm => loggable m (List.mem_append_left _ hm)
    · omega
    · rintro _ s₁ ⟨rfl, advanced⟩
      have bytes := advanced.bytes_le
      have later := ih (i + 1) (k + 1) advanced.current advanced.alive
        ((h.toSound.layout_eq advanced.current.toSound).trans layout)
        (fun x hx => plain x (List.mem_cons_of_mem _ hx))
        (fun m hm => loggable m (List.mem_append_right _ hm)) (by omega)
        (by rw [advanced.cache_eq]; exact tail)
      refine Sys.wp_bind (later.mono ?_)
      rintro _ s₂ ⟨rfl, advanced'⟩
      exact Sys.wp_pure ⟨rfl, advanced.trans advanced'⟩

/-- **Group commit.** In any state reached from an empty log without failures, under a clock
that stands still at a value no snapshot was taken after: inputs that are answered as one
batch without a rewrite get the same replies one by one and leave the same cache, and the
same log if it is not rewritten then either. -/
theorem group_commit (lawful : codec.Lawful) {fs : Fs} (hb : fs.Bound cfg.path)
    (empty : (fs.named cfg.path).getD [] = []) {clock : Nat → Millis} {o : Oracle}
    {s₀ : CacheService} (created : (create codec cfg clock fs [] o).1 = .ok s₀)
    {trace : List (CacheService × Action)} (run : Calls codec cfg .faultless s₀ trace s)
    (early : ∀ e ∈ trace, e.2.SnapshotsBy now) (frozen : env.Frozen now) (inputs : List Bytes)
    (noStats : ∀ d ∈ decodedBatch codec s.cache env inputs, d.request.command ≠ .stats)
    {o₁ : Oracle} (ho₁ : o₁.NoFailure) {replies : List Reply}
    (answered : (handleBatch codec env inputs o₁ s).1 = .ok replies)
    (kept : (handleBatch codec env inputs o₁ s).2.2.aof.stats.rewrites = s.aof.stats.rewrites)
    {envs : Nat → Env} (frozens : ∀ i, (envs i).Frozen now) {o₂ : Oracle} (ho₂ : o₂.NoFailure) :
    let together := (handleBatch codec env inputs o₁ s).2.2
    let apart := (serially codec envs 0 inputs o₂ s).2.2
    (serially codec envs 0 inputs o₂ s).1 = .ok replies ∧ apart.cache = together.cache ∧
      (apart.aof.stats.rewrites = s.aof.stats.rewrites →
        (apart.aof.fs.named cfg.path).getD [] = (together.aof.fs.named cfg.path).getD []) := by
  dsimp only
  have current := run.current lawful (created_of_create hb created).1 empty early
  have faultless : o₁.In .faultless := ho₁
  have faultless' : o₂.In .faultless := ho₂
  have result := (wp_handleBatch codec env inputs current.ready.live).run faultless
  rw [answered] at result
  generalize (handleBatch codec env inputs o₁ s).2.2 = s₁ at result kept ⊢
  obtain ⟨healthy, outcome⟩ := result.faultless current.toHealthy
  obtain ⟨roomy, _, file⟩ | more := result.rewrites current.ready ⟨replies, rfl⟩
  swap
  · omega
  generalize hr : (Res.ok replies : Res Exception (List Reply)) = r at outcome
  cases outcome with
  | unavailable | refused | rejected => cases hr
  | @done alive _ _ loggable aof _ r cache happlied =>
    obtain rfl := Res.ok_eq_ofExcept.mp hr
    have room := size_le_of_roomy (size_of_loggable loggable) roomy
    rw [usub_of_le current.ready.live.bytes_le, current.ready.maxBytes_eq] at room
    have bounded := current.ready.live.bytes_le
    rw [current.ready.maxBytes_eq] at bounded
    rw [decodedBatch_frozen frozen] at loggable room happlied noStats file
    have serial := (wp_serially lawful frozens frozen.apply 0 0 current alive rfl
      (fun data hd => (decodedInput_as codec s.cache now data).plain
        (noStats _ (List.mem_map_of_mem hd))) loggable (by omega) happlied).run faultless'
    obtain ⟨ok, advanced⟩ := serial
    refine ⟨ok, advanced.cache_eq, fun same => ?_⟩
    rw [advanced.current.ready.named_eq, healthy.ready.named_eq, advanced.file_eq same, file]

/-- A write, a read of it and an incomplete frame. -/
theorem group_commit_mixed : ∃ s₀ r s replies,
    (create wireCodec small frozen.applyClock AofLogger.emptyFs [] .reliable).1 = .ok s₀ ∧
      Calls wireCodec small .faultless s₀
        [(s₀, .batch frozen [Message.frame .set [1] [2]] r)] s ∧
      let inputs := [Message.frame .set [1] [3], Message.frame .get [1] [], [202, 254]]
      (handleBatch wireCodec frozen inputs .reliable s).1 = .ok replies ∧
        (serially wireCodec (fun _ => frozen) 0 inputs .reliable s).1 = .ok replies ∧
        (serially wireCodec (fun _ => frozen) 0 inputs .reliable s).2.2.cache =
          (handleBatch wireCodec frozen inputs .reliable s).2.2.cache := by
  obtain ⟨s₀, created, answered, kept, noStats⟩ := Res.returns_iff.mp (show
    (create wireCodec small frozen.applyClock AofLogger.emptyFs [] .reliable).1.Returns fun s₀ =>
      let s := (handleBatch wireCodec frozen [Message.frame .set [1] [2]] .reliable s₀).2.2
      let inputs := [Message.frame .set [1] [3], Message.frame .get [1] [], [202, 254]]
      let call := handleBatch wireCodec frozen inputs .reliable s
      (call.1.Returns fun _ => True) ∧
        call.2.2.aof.stats.rewrites = s.aof.stats.rewrites ∧
        ∀ d ∈ decodedBatch wireCodec s.cache frozen inputs, d.request.command ≠ .stats
    by decide +kernel)
  obtain ⟨replies, answered, _⟩ := Res.returns_iff.mp answered
  have run : Calls wireCodec small .faultless s₀ [_] _ :=
    .snoc .nil (by simp) (.batch frozen [Message.frame .set [1] [2]] .reliable trivial)
  have reliable : Oracle.reliable.NoFailure := trivial
  obtain ⟨serial, cache, _⟩ := group_commit wireCodec_lawful (AofLogger.emptyFs_bound small.path)
    rfl created run (by
      rw [List.forall_mem_singleton]
      exact fun _ _ => UInt64.le_refl _)
    frozen_frozen _ noStats reliable answered kept (fun _ => frozen_frozen) reliable
  exact ⟨s₀, _, _, replies, created, run, answered, serial, cache⟩

/-! ## When the clock runs backwards -/

/-- After a compaction by a later clock, two writes are answered together but not in turn: the
second one finds no room for a snapshot with the entry that has come back to life. -/
theorem backwards_clock_differs : ∃ s₀ r s₁ s,
    (create wireCodec tight frozen.applyClock AofLogger.emptyFs [] .reliable).1 = .ok s₀ ∧
      Calls wireCodec tight .faultless s₀
        [(s₀, .batch frozen [shortLived] r), (s₁, .compact late (.ok ()))] s ∧
      let inputs := [Message.frame .set [1] (List.replicate 30 7), Message.frame .set [2] [3]]
      (∃ replies, (handleBatch wireCodec frozen inputs .reliable s).1 = .ok replies) ∧
        (handleBatch wireCodec frozen inputs .reliable s).2.2.aof.stats.rewrites =
          s.aof.stats.rewrites ∧
        Rejected (serially wireCodec (fun _ => frozen) 0 inputs .reliable s).1 := by
  obtain ⟨s₀, created, survives, ok, answered, kept, rejected⟩ := Res.returns_iff.mp (show
    (create wireCodec tight frozen.applyClock AofLogger.emptyFs [] .reliable).1.Returns fun s₀ =>
      let first := handleBatch wireCodec frozen [shortLived] .reliable s₀
      let compaction := compact wireCodec late .reliable first.2.2
      let inputs := [Message.frame .set [1] (List.replicate 30 7), Message.frame .set [2] [3]]
      let call := handleBatch wireCodec frozen inputs .reliable compaction.2.2
      (first.1.Returns fun _ => True) ∧ compaction.1 = .ok () ∧ (call.1.Returns fun _ => True) ∧
        call.2.2.aof.stats.rewrites = compaction.2.2.aof.stats.rewrites ∧
        (serially wireCodec (fun _ => frozen) 0 inputs .reliable compaction.2.2).1 =
          .throw (aofCapacityError "Snapshot exceeds AOF limit")
    by decide +kernel)
  obtain ⟨_, survives, _⟩ := Res.returns_iff.mp survives
  obtain ⟨replies, answered, _⟩ := Res.returns_iff.mp answered
  have first : Calls wireCodec tight .faultless s₀ [_] _ :=
    .snoc .nil (by simp) (.batch frozen [shortLived] .reliable trivial)
  have step : ∀ s₁, Step wireCodec tight .faultless s₁ _ _ :=
    fun s₁ => .compact late .reliable trivial
  have second := step (handleBatch wireCodec frozen [shortLived] .reliable s₀).2.2
  rw [ok] at second
  exact ⟨s₀, _, _, _, created, .snoc first (by simp [Action.Fatal, survives]) second,
    ⟨replies, answered⟩, kept, _, rejected, rfl⟩

end KVRPC.Service
