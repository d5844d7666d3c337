import KVRPC.Service.Operations

/-!
# Runs of the service

A service is constructed on a file system and then receives batches and compactions, and
it may be restarted on the file system it left. Every state between calls is `Sound`: the
logger is attached to its log and appends at its end, and the cache has the layout of its
configuration.
-/
namespace KVRPC.Service

open Library Aof Storage

variable {codec : Codec} {cfg : Config} {R : Regime}

/-- A call and how it ended. Only a construction that returned counts as a restart. -/
inductive Action where
  | batch (env : Env) (inputs : List Bytes) (r : Res Exception (List Reply))
  | compact (clock : Nat → Nat → Millis) (r : Res Exception Unit)
  | restart (clock : Nat → Millis)

def Action.Fatal : Action → Prop
  | .batch _ _ r => r = .crash
  | .compact _ r => r = .crash
  | .restart _ => False

inductive Step (codec : Codec) (cfg : Config) (R : Regime) (s : CacheService) :
    Action → CacheService → Prop where
  | batch (env : Env) (inputs : List Bytes) (o : Oracle) (ho : o.In R) :
      Step codec cfg R s (.batch env inputs (handleBatch codec env inputs o s).1)
        (handleBatch codec env inputs o s).2.2
  | compact (clock : Nat → Nat → Millis) (o : Oracle) (ho : o.In R) :
      Step codec cfg R s (.compact clock (compact codec clock o s).1) (compact codec clock o s).2.2
  | restart (clock : Nat → Millis) (o : Oracle) (ho : o.In R) (s' : CacheService)
      (h : (create codec cfg clock s.aof.fs s.aof.trace o).1 = .ok s') :
      Step codec cfg R s (.restart clock) s'

abbrev Calls (codec : Codec) (cfg : Config) (R : Regime) (s₀ : CacheService) :
    List (CacheService × Action) → CacheService → Prop :=
  Run (Step codec cfg R) Action.Fatal s₀

/-! ## Between calls -/

/-- A logger that serves: attached, started and at the end of its log. -/
structure Ready (cfg : Config) (l : AofLogger) : Prop where
  live : l.Live
  started : l.started = true
  atEnd : l.fs.AtEnd l.fd
  bytes_eq : l.failed = false → l.bytes = l.file.length
  filename_eq : l.filename = cfg.path
  maxBytes_eq : l.maxBytes = cfg.maxAofBytes

theorem Ready.named_eq {l : AofLogger} (h : Ready cfg l) :
    (l.fs.named cfg.path).getD [] = l.file := by
  rw [← h.filename_eq]
  exact h.live.attached.disk_eq

theorem Ready.logBatch {l l' : AofLogger} {ms : List Mutation} {elapsed : Nat}
    {r : Res Exception Unit} (h : Ready cfg l)
    (result : AofLogger.LogBatchResult R l ms elapsed r l') (alive : r ≠ .crash) :
    Ready cfg l' := by
  have live := (result.bounded h.live).2 alive
  cases result with
  | empty | unavailable | unencodable | overCapacity => exact h
  | appended hne hs hf hl fits =>
    refine ⟨live, h.started, h.atEnd.wrote _, fun _ => ?_, h.filename_eq, h.maxBytes_eq⟩
    rw [AofLogger.file_afterAppend h.atEnd, List.length_append, ← h.bytes_eq hf]
    rfl
  | torn hne hs hf hl fits faulty p hp e =>
    exact ⟨live, h.started, h.atEnd.wrote _, by simp [AofLogger.afterTorn], h.filename_eq,
      h.maxBytes_eq⟩
  | killed => exact absurd rfl alive

theorem Ready.rewrite {l l' : AofLogger} {snapshot : List Mutation} {r : Res Exception Unit}
    (h : Ready cfg l) (result : AofLogger.RewriteResult R l snapshot r l') (alive : r ≠ .crash) :
    Ready cfg l' := by
  have live := (result.bounded h.live).2 alive
  have atEnd := AofLogger.publishedFs_atEnd l snapshot
  have file := AofLogger.afterPublish_file l snapshot
  cases result with
  | unavailable | unencodable | overCapacity => exact h
  | rewritten hf hl fits =>
    exact ⟨live, h.started, atEnd, fun _ => (congrArg List.length file).symm, h.filename_eq,
      h.maxBytes_eq⟩
  | unpublished hf hl fits faulty _ hr fs keeps =>
    refine ⟨live, h.started, ?_, fun alive => ?_, h.filename_eq, h.maxBytes_eq⟩
    · have old := h.atEnd
      unfold Fs.AtEnd Fs.position at old ⊢
      simp only [keeps.file, keeps.content]
      exact old
    · exact (h.bytes_eq alive).trans (congrArg List.length (AofLogger.file_keeps keeps).symm)
  | unsynced hf hl fits faulty e =>
    exact ⟨live, h.started, atEnd, fun _ => (congrArg List.length file).symm, h.filename_eq,
      h.maxBytes_eq⟩
  | killed => exact absurd rfl alive

theorem Created.ready {clock : Nat → Millis} {fs : Fs} {trace : List Event} {s : CacheService}
    (h : Created codec cfg clock fs trace s) : Ready cfg s.aof := by
  obtain ⟨l, opened, haof⟩ := h.opened
  have attached := opened.attached.seek opened.bytes_eq.le
  have live := opened.live
  have file : s.aof.file = l.file := by rw [haof]; exact AofLogger.file_seek l l.fd l.bytes
  refine ⟨⟨?_, ?_, ?_, ?_, ?_⟩, ?_, ?_, ?_, ?_, ?_⟩
  · rw [haof]
    exact ⟨attached.named, attached.inode_lt, attached.fd_lt, attached.offset_le⟩
  · rw [haof]; exact live.rewrittenAt_le
  · rw [haof]; exact live.bytes_le
  · rw [file, haof]; exact live.file_le
  · intro _; rw [file, haof]; exact opened.bytes_eq.ge
  · rw [haof]
  · rw [haof]
    simp [Fs.AtEnd, Fs.position, opened.append]
  · intro _; rw [file, haof]; exact opened.bytes_eq
  · rw [haof]; exact opened.filename_eq
  · rw [haof]; exact opened.maxBytes_eq

theorem Created.file_eq {clock : Nat → Millis} {fs : Fs} {trace : List Event} {s : CacheService}
    (h : Created codec cfg clock fs trace s) : s.aof.file = (fs.named cfg.path).getD [] := by
  obtain ⟨l, opened, haof⟩ := h.opened
  rw [haof, ← opened.file_eq]
  exact AofLogger.file_seek l l.fd l.bytes

structure Sound (cfg : Config) (s : CacheService) : Prop where
  ready : Ready cfg s.aof
  layout : ∃ c : Cache,
    ShardedCache.create cfg.hash cfg.capacity cfg.shards cfg.maxCacheBytes = .ok c ∧
      s.cache.layout = c.layout

theorem Created.cache_replays {clock : Nat → Millis} {fs : Fs} {trace : List Event}
    {s : CacheService} (h : Created codec cfg clock fs trace s) :
    ∃ c, ShardedCache.create cfg.hash cfg.capacity cfg.shards cfg.maxCacheBytes = .ok c ∧
      Encodes (logged ((fs.named cfg.path).getD [])) ((fs.named cfg.path).getD []) ∧
      (∀ m ∈ logged ((fs.named cfg.path).getD []), (mutationOp? codec m).isSome) ∧
      Replays clock 0 (logOps codec (logged ((fs.named cfg.path).getD []))) c s.cache := by
  obtain ⟨c, n, hc, outcome⟩ := h.replayed
  unfold replayOutcome at outcome
  obtain ⟨_, _, _, stop⟩ := Records.scan_sound parse_selfDelimiting ((fs.named cfg.path).getD [])
  cases hd : deliver (replayCallback codec clock) (logged ((fs.named cfg.path).getD [])) (c, 0) with
  | mk r b =>
    rw [hd] at outcome
    cases r with
    | error e => cases outcome
    | ok =>
      obtain ⟨ended, rfl⟩ := Prod.ext_iff.mp outcome
      obtain ⟨valid, replays⟩ := (deliver_ok_iff clock _ c s.cache 0).mp ⟨n, hd⟩
      refine ⟨c, hc, encodes_iff_scan.mpr (Prod.ext rfl ?_), valid, replays⟩
      exact (remainder_ok_iff stop).mp ended

theorem Created.sound {clock : Nat → Millis} {fs : Fs} {trace : List Event} {s : CacheService}
    (h : Created codec cfg clock fs trace s) : Sound cfg s := by
  obtain ⟨c, hc, _, _, replays⟩ := h.cache_replays
  exact ⟨h.ready, c, hc, replays.layout⟩

/-! ## Preservation -/

theorem Step.result {s s' : CacheService} {env : Env} {inputs : List Bytes}
    {r : Res Exception (List Reply)} (step : Step codec cfg R s (.batch env inputs r) s')
    (live : s.aof.Live) : HandleBatchResult codec R s env inputs r s' := by
  cases step with
  | batch _ _ o ho => exact (wp_handleBatch codec env inputs live).run ho

/-- Every call is one of the specified ones. -/
theorem Step.cases {s s' : CacheService} {a : Action} (step : Step codec cfg R s a s')
    (sound : Sound cfg s) :
    (∃ env inputs r, a = .batch env inputs r ∧ HandleBatchResult codec R s env inputs r s') ∨
      (∃ clock r aof, a = .compact clock r ∧ s' = { s with aof := aof } ∧
        AofLogger.RewriteResult R s.aof (snapshotMutations codec s.cache clock) r aof) ∨
      ∃ clock, a = .restart clock ∧ Created codec cfg clock s.aof.fs s.aof.trace s' := by
  have live := sound.ready.live
  cases step with
  | batch env inputs o ho =>
    exact Or.inl ⟨env, inputs, _, rfl, (wp_handleBatch codec env inputs live).run ho⟩
  | compact clock o ho =>
    obtain ⟨aof, hs, result⟩ := (wp_compactLocked clock live).run ho
    exact Or.inr (Or.inl ⟨clock, _, aof, rfl, hs, result⟩)
  | restart clock o ho _ h =>
    have bound := live.attached.bound
    rw [sound.ready.filename_eq] at bound
    exact Or.inr (Or.inr ⟨clock, rfl, (created_of_create bound h).1⟩)

theorem Prepared.ready {s : CacheService} {env : Env} {ms : List Mutation} {aof : AofLogger}
    (h : Prepared codec R s env ms aof) (ready : Ready cfg s.aof) : Ready cfg aof := by
  cases h with
  | kept => exact ready
  | compacted full result => exact ready.rewrite result (by simp)

theorem CommitResult.sound {s s' : CacheService} {env : Env} {ds : List Decoded}
    {r : Res Exception (List Reply)} (result : CommitResult codec R s env ds r s')
    (sound : Sound cfg s) (alive : r ≠ .crash) : Sound cfg s' := by
  cases result with
  | unencodable => exact sound
  | uncompacted full hr result =>
    exact ⟨sound.ready.rewrite result (Res.map_ne_crash alive), sound.layout⟩
  | unlogged ready hr result =>
    exact ⟨(ready.ready sound.ready).logBatch result (Res.map_ne_crash alive), sound.layout⟩
  | applied ready result =>
    obtain ⟨c, hc, layout⟩ := sound.layout
    exact ⟨(ready.ready sound.ready).logBatch result (by simp), c, hc,
      (layout_applyAll _ _ _ _ _ _).trans layout⟩

theorem settle_cases (s : CacheService) (r : Res Exception (List Reply)) :
    (s.settle r).aof = s.aof ∧ (s.settle r).cache = s.cache := by
  unfold CacheService.settle
  split
  · split <;> exact ⟨rfl, rfl⟩
  · exact ⟨rfl, rfl⟩

theorem HandleBatchResult.sound {s s' : CacheService} {env : Env} {inputs : List Bytes}
    {r : Res Exception (List Reply)} (result : HandleBatchResult codec R s env inputs r s')
    (sound : Sound cfg s) (alive : r ≠ .crash) : Sound cfg s' := by
  cases result with
  | unavailable => exact sound
  | @committed _ s' _ result =>
    obtain ⟨ready, layout⟩ := result.sound sound alive
    obtain ⟨aof, cache⟩ := settle_cases s' r
    exact ⟨aof ▸ ready, cache ▸ layout⟩

theorem Step.sound {s s' : CacheService} {a : Action} (step : Step codec cfg R s a s')
    (sound : Sound cfg s) (alive : ¬ a.Fatal) : Sound cfg s' := by
  rcases step.cases sound with ⟨env, inputs, r, rfl, result⟩ | ⟨clock, r, aof, rfl, rfl, result⟩ |
    ⟨clock, rfl, created⟩
  · exact result.sound sound alive
  · exact ⟨sound.ready.rewrite result alive, sound.layout⟩
  · exact created.sound

theorem Calls.sound {clock : Nat → Millis} {fs : Fs} {s₀ s : CacheService}
    (created : Created codec cfg clock fs [] s₀) {trace : List (CacheService × Action)}
    (run : Calls codec cfg R s₀ trace s) (survives : ∀ e ∈ trace, ¬ e.2.Fatal) : Sound cfg s := by
  refine run.invariant (fun _ s => Sound cfg s) (fun _ a => ¬ a.Fatal) created.sound ?_ survives
  intro _ s a s' sound alive step
  exact step.sound sound alive

/-- A log whose operations can be replayed is accepted. -/
theorem create_of_replays {fs : Fs} (hb : fs.Bound cfg.path) {clock : Nat → Millis}
    (trace : List Event) {o : Oracle} (ho : o.NoFailure) {c c' : Cache}
    (hc : ShardedCache.create cfg.hash cfg.capacity cfg.shards cfg.maxCacheBytes = .ok c)
    {ms : List Mutation} (whole : Encodes ms ((fs.named cfg.path).getD []))
    (fits : ((fs.named cfg.path).getD []).length ≤ cfg.maxAofBytes)
    (valid : ∀ m ∈ ms, (mutationOp? codec m).isSome)
    (replays : Replays clock 0 (logOps codec ms) c c') :
    ∃ s, (create codec cfg clock fs trace o).1 = .ok s ∧ s.cache = c' := by
  obtain ⟨n, delivered⟩ := (deliver_ok_iff clock ms c c' 0).mpr ⟨valid, replays⟩
  refine create_of_outcome clock trace ho hb hc fits (n := n) ?_
  rw [replayOutcome, encodes_iff_scan.mp whole, delivered]
  rfl

/-! ## On an empty log -/

/-- A service on an empty log can be constructed whenever its cache can. -/
theorem create_on_empty (codec : Codec) {fs : Fs} (hb : fs.Bound cfg.path)
    (empty : (fs.named cfg.path).getD [] = []) (clock : Nat → Millis) {o : Oracle}
    (ho : o.NoFailure) {c : Cache}
    (hc : ShardedCache.create cfg.hash cfg.capacity cfg.shards cfg.maxCacheBytes = .ok c) :
    ∃ s, (create codec cfg clock fs [] o).1 = .ok s ∧ s.cache = c := by
  have whole : Encodes [] ((fs.named cfg.path).getD []) := by rw [empty]; exact encodes_nil
  exact create_of_replays hb [] ho hc whole (by simp [empty]) (by simp) (.nil 0 c)

/-- A small configuration. -/
def small : Config where
  capacity := 4
  shards := 1
  path := "cache.aof"
  maxAofBytes := 1024
  maxCacheBytes := 1024
  hash := fun _ => 0

/-- Every reading of the clock is the same, in November 2023. -/
def frozen : Env where
  decodeClock := fun _ => ⟨1700000000000, by decide⟩
  applyClock := fun _ => ⟨1700000000000, by decide⟩
  snapshotClock := fun _ _ => ⟨1700000000000, by decide⟩
  syncUs := 0
  metrics := none

theorem frozen_frozen : frozen.Frozen (frozen.applyClock 0) :=
  ⟨fun _ => rfl, fun _ => rfl, fun _ _ => rfl⟩

theorem small_cache : ∃ c : Cache,
    ShardedCache.create small.hash small.capacity small.shards small.maxCacheBytes = .ok c ∧
      c.CanStore [] [] := ⟨_, rfl, by decide⟩

end KVRPC.Service
