import KVRPC.Service.Durability
import KVRPC.System.KvRuns

/-!
# What clients of the key-value server can rely on

Requests of all connections take effect one after another, in the order the server accepted
them. A reply leaves the server only after the records of its batch have been synchronized,
and a read executed after a write was acknowledged, on whatever connection and after however
many crashes and restarts, never returns an older value.
-/
namespace KVRPC.System

open Library Library.History Library.Framing Service Server

variable {k : KvServer} {p : Process} {m : Machine} {fs : Fs} {trace : List (Machine × Event)}

/-! ## One connection -/

/-- The requests of connection `c` the service has answered, with its replies. -/
def Process.answers (p : Process) (c : Nat) : List (Job Completion × Server.Reply) :=
  (p.calls.flatMap Call.pairs).filter fun q => q.1.complete.conn = c

theorem Process.Sound.answered (sound : p.Sound k) (c : Nat) :
    p.server.answered c = p.answers c := by
  rw [State.answered, sound.handled]
  rfl

/-- A connection's requests are the frames of its stream, and what it is sent are replies. -/
theorem Process.Sound.connection (sound : p.Sound k) (c : Nat) {frames : List Bytes} {rest : Bytes}
    (parsed : Parse kvFrameSize (p.server.conns c).received frames rest) :
    (p.answers c).map (fun q => q.1.input) <+: frames ∧
      (p.server.conns c).delivered <+: replyBytes (p.answers c) := by
  obtain ⟨trace, run⟩ := sound.reached
  obtain ⟨served, framed⟩ := Framed.of_run kvFrameSize_lawful k.sizer_eq run
  obtain ⟨-, -, -, -, ordered⟩ := run.invariant
    (fun s => (∀ c, Orderly k.server (s.conns c)) ∧ AllInOrder k.server s)
    ⟨fun _ => .initial, .initial k.server⟩
    (fun base served h act =>
      ⟨Orderly.act h.1 base served act, h.2.act k.limit_eq base served h.1 act⟩)
  have own := ordered c
  rw [sound.answered] at own
  refine ⟨?_, own.delivered⟩
  have requests := own.requests
  rw [List.map_append, List.map_map] at requests
  have cut : (p.server.conns c).submitted <+: frames :=
    frames_prefix kvFrameSize_lawful List.prefix_rfl (framed c).split (framed c).frames parsed
  exact ((List.prefix_append _ _).trans requests).trans cut

/-- **The server is the serial service.** At any point of the life of a process, the service
has made the handler's calls one after another since it was constructed. They were made with
the accepted requests of all connections, in the order they were accepted; those not yet
executed follow. And every connection has been sent a prefix of the service's replies to the
frames it sent, in order. -/
theorem served_serially (k : KvServer) {fs : Fs} {trace : List (Machine × Event)} {p : Process}
    (run : Machine.Runs k fs trace (.up p)) :
    (∃ clock fs₀ o s₀, (create k.codec k.config clock fs₀ [] o).1 = .ok s₀ ∧
      Calls k.codec k.config .faulty s₀ (p.calls.map Call.step) p.service) ∧
    p.server.queue.accepted =
      p.calls.flatMap Call.batch ++ p.server.queue.batches ++ p.server.queue.jobs ∧
    ∀ c frames rest, Parse kvFrameSize (p.server.conns c).received frames rest →
      (p.answers c).map (fun q => q.1.input) <+: frames ∧
      (p.server.conns c).delivered <+: ((p.answers c).map fun q => q.2.bytes).flatten := by
  have life := run.lifetime p rfl
  obtain ⟨clock, fs₀, o, s₀, _, -, created, calls, -⟩ := life.began
  refine ⟨⟨clock, fs₀, o, s₀, created, calls⟩, ?_, fun c frames rest parsed =>
    life.sound.connection c parsed⟩
  obtain ⟨_, served⟩ := life.sound.reached
  rw [served.serial k.threads_eq, life.sound.handled]
  congr 2
  rw [List.map_flatMap]
  exact List.flatMap_congr fun call mem => life.sound.batches call mem

/-- The first of two connections has received the reply to its request, the second waits. -/
theorem served_serially_two_connections : ∃ trace p,
    Machine.Runs smallServer Aof.AofLogger.emptyFs trace (.up p) ∧
      (p.server.conns 0).delivered = Message.frame .set [1] [] ∧
      p.server.queue.accepted.map (fun job => job.complete.conn) = [0, 1] ∧
      p.server.queue.accepted =
        p.calls.flatMap Call.batch ++ p.server.queue.batches ++ p.server.queue.jobs ∧
      (p.server.conns 0).delivered <+: ((p.answers 0).map fun q => q.2.bytes).flatten := by
  obtain ⟨p, trace, run, sent, order⟩ := Machine.Runs.after
    (.nil : Machine.Runs smallServer Aof.AofLogger.emptyFs [] _) (show
      Machine.After smallServer (.down Aof.AofLogger.emptyFs) (storeEvents ++ askEvents) fun p =>
        (p.server.conns 0).delivered = Message.frame .set [1] [] ∧
        p.server.queue.accepted.map (fun job => job.complete.conn) = [0, 1] by decide +kernel)
  obtain ⟨-, serial, streams⟩ := served_serially smallServer run
  exact ⟨_, p, run, sent, order, serial, (streams 0 _ _ (parse_spec kvFrameSize_lawful _)).2⟩

/-! ## Replies and the log -/

/-- **No reply before the log.** Whatever a connection has been sent is part of the replies to
its answered requests, and each of these was answered by a call of the service. If that call
returned and its requests change the cache, then their records have been appended to the log
and synchronized, and every append before it had returned. -/
theorem replies_after_sync (lawful : k.codec.Lawful) (hb : fs.Bound k.config.path)
    (run : Machine.Runs k fs trace (.up p)) (c : Nat) :
    (p.server.conns c).delivered <+: ((p.answers c).map fun q => q.2.bytes).flatten ∧
    ∀ q ∈ p.answers c, ∃ call ∈ p.calls, q ∈ call.pairs ∧
      ∀ replies, call.result = .ok replies →
        let ms := mutations (decodedBatch k.codec call.service.cache call.env
          (call.batch.map Job.input))
        ms ≠ [] → Service.Complete call.service.aof.trace ∧
          ∃ es, call.service.aof.trace <+: es ∧
            es ++ [.appending ms] ++ [.appended ms] <+: p.service.aof.trace := by
  have life := run.lifetime p rfl
  obtain ⟨clock, fs₀, o, s₀, past, before, created, calls, -⟩ := life.began
  refine ⟨(life.sound.connection c (parse_spec kvFrameSize_lawful _)).2, ?_⟩
  intro q mem
  obtain ⟨call, made, own⟩ := List.mem_flatMap.mp (List.mem_filter.mp mem).1
  refine ⟨call, made, own, ?_⟩
  have stopped : Stopped k.codec k.config _ past fs₀ := before.explained lawful hb
  obtain ⟨-, acknowledged⟩ := Calls.tracked (created_of_create stopped.bound created).1 calls (by
    rintro e mem clock
    obtain ⟨call, -, rfl⟩ := List.mem_map.mp mem
    simp [Call.step, Call.action])
  intro replies returned ms changes
  refine acknowledged call.service call.env _ replies ?_ changes
  rw [← returned]
  exact List.mem_map_of_mem made

/-- A write has been answered. -/
theorem replies_after_sync_set : ∃ trace p,
    Machine.Runs smallServer Aof.AofLogger.emptyFs trace (.up p) ∧
      (p.server.conns 0).delivered = Message.frame .set [1] [] ∧
      ∃ q ∈ p.answers 0, ∃ call ∈ p.calls, q ∈ call.pairs ∧
        [.appending [⟨.set, [1], [2]⟩], .appended [⟨.set, [1], [2]⟩]] <+: p.service.aof.trace := by
  obtain ⟨p, trace, run, sent, answers, record, log⟩ := Machine.Runs.after
    (.nil : Machine.Runs smallServer Aof.AofLogger.emptyFs [] _) (show
      Machine.After smallServer (.down Aof.AofLogger.emptyFs) storeEvents fun p =>
        (p.server.conns 0).delivered = Message.frame .set [1] [] ∧ p.answers 0 ≠ [] ∧
        (∀ call ∈ p.calls, (call.result.Returns fun _ => True) ∧
          call.service.aof.trace = [] ∧
          mutations (decodedBatch smallServer.codec call.service.cache call.env
            (call.batch.map Job.input)) = [⟨.set, [1], [2]⟩]) ∧
        p.service.aof.trace.length = 2 by decide +kernel)
  obtain ⟨q, mem⟩ := List.exists_mem_of_ne_nil _ answers
  obtain ⟨-, synced⟩ := replies_after_sync wireCodec_lawful (Aof.AofLogger.emptyFs_bound _) run 0
  obtain ⟨call, made, own, durable⟩ := synced q mem
  obtain ⟨returned, empty, ms⟩ := record call made
  obtain ⟨replies, returned, -⟩ := Res.returns_iff.mp returned
  dsimp only at durable
  obtain ⟨-, es, -, appended⟩ := durable replies returned (by rw [ms]; simp)
  rw [ms] at appended
  refine ⟨_, p, run, sent, q, mem, call, made, own, ?_⟩
  have short := appended.length_le
  simp only [log, List.length_append, List.length_singleton] at short
  have nothing : es = [] := List.length_eq_zero_iff.mp (by omega)
  rw [nothing] at appended
  exact appended

/-! ## Reads -/

/-- The reads of `op`'s key in a batch return nothing older than `op`. -/
def Fresh (codec : Codec) (hist : List Op) (op : Op) (s : CacheService) (env : Env)
    (inputs : List Bytes) (replies : List Service.Reply) : Prop :=
  ∀ j d, (decodedBatch codec s.cache env inputs)[j]? = some d → d.Accepted →
    d.request.command = .get ∨ d.request.command = .lookup → d.request.key = op.key →
    ∃ reply found, replies[j]? = some reply ∧
      Message.encode d.request.command d.request.key
        (readResponse codec d.request.command found) = .ok reply.bytes ∧
      ∀ value, found = some value → ∃ expires old new,
        hist ++ batchOps ((decodedBatch codec s.cache env inputs).take j) = old ++ op :: new ∧
        latest Op.key op.key (op :: new) = some (.put op.key value expires) ∧
        (expires ≠ 0 → (env.applyClock j).value < expires)

theorem latest_of_suffix {old new : List Op} {op : Op} :
    latest Op.key op.key (old ++ op :: new) = latest Op.key op.key (op :: new) := by
  have found : ∃ a, latest Op.key op.key (op :: new) = some a := by
    rw [← List.singleton_append, latest_append, latest_singleton_self]
    exact Option.isSome_iff_exists.mp (by simp)
  obtain ⟨a, found⟩ := found
  rw [latest_append, found]
  rfl

theorem fresh_of_answersFrom {codec : Codec} {hist : List Op} {op : Op} {s : CacheService}
    {env : Env} {inputs : List Bytes} {replies : List Service.Reply}
    (h : AnswersFrom codec hist s env inputs replies) (known : op ∈ hist) :
    Fresh codec hist op s env inputs replies := by
  intro j d hd accepted reads same
  obtain ⟨reply, found, hreply, encoded, explained⟩ := h j d hd accepted reads
  refine ⟨reply, found, hreply, encoded, fun value hit => ?_⟩
  obtain ⟨expires, last, alive⟩ := explained value hit
  obtain ⟨old, new, rfl⟩ := List.append_of_mem known
  refine ⟨expires, old, new ++ batchOps ((decodedBatch codec s.cache env inputs).take j),
    by simp, ?_, alive⟩
  rw [same, List.append_assoc, List.cons_append, latest_of_suffix] at last
  exact last

theorem history_mem {codec : Codec} {init hist : List Op} {xs : List (Host × Incident)}
    (h : Service.History codec init xs hist) {s : CacheService} {a : Action}
    (mem : (Host.up s, Incident.call a) ∈ xs) (returned : a.Returned) :
    ∀ op ∈ a.requested codec s, op ∈ hist := by
  induction h with
  | nil => cases mem
  | @snoc trace hist ops h i past reads adds ih =>
    intro op hop
    rcases List.mem_append.mp mem with earlier | last
    · exact List.mem_append_left _ (ih earlier op hop)
    · cases List.mem_singleton.mp last
      rw [adds.2 returned]
      exact List.mem_append_right _ hop

/-- The history at an incident is the beginning of the history of all of them. -/
theorem history_at {codec : Codec} {init hist : List Op} {xs ys : List (Host × Incident)}
    {h : Host} {i : Incident}
    (all : Service.History codec init (xs ++ [(h, i)] ++ ys) hist) :
    ∃ before, before <+: hist ∧ Service.History codec init xs before ∧ Reads codec before h i := by
  generalize split : xs ++ [(h, i)] ++ ys = trace at all
  induction all generalizing ys with
  | nil => simp at split
  | @snoc trace hist ops h' i' past reads adds ih =>
    rcases List.eq_nil_or_concat ys with rfl | ⟨ys, y, rfl⟩
    · obtain ⟨rfl, rfl, rfl⟩ : xs = trace ∧ h = h' ∧ i = i' := by simpa using split
      exact ⟨hist, List.prefix_append _ _, past, reads⟩
    · rw [List.concat_eq_append, ← List.append_assoc] at split
      obtain ⟨earlier, -⟩ := List.append_inj' split rfl
      obtain ⟨before, part, known, read⟩ := ih earlier
      exact ⟨before, part.trans (List.prefix_append _ _), known, read⟩

/-- **No stale reads.** For any run of the machine there is one history in which no read
returns an older value than the last write acknowledged before it was executed: once a
process has answered a batch that contains `op`, every batch executed later, for whatever
connections and in whatever process, reads `op`'s key from `op` or from an operation that
comes after it in the history. -/
theorem no_stale_reads (lawful : k.codec.Lawful) (hb : fs.Bound k.config.path)
    (run : Machine.Runs k fs trace m) :
    ∃ hist, Service.History k.codec
        (logOps k.codec (logged ((fs.named k.config.path).getD [])))
        (Machine.incidents k trace) hist ∧
      ∀ T₁ T₂ T₃ p₁ p₂ worker env o batch,
        trace = T₁ ++ T₂ ++ [(.up p₂, .handle worker env o)] ++ T₃ →
        Machine.Runs k fs T₁ (.up p₁) →
        p₂.server.queue.workers[worker]? = some (.running batch) →
        ∀ a ∈ p₁.calls, ∀ op ∈ a.action.acknowledges k.codec a.service,
        ∀ replies, (p₂.call k env o batch).result = .ok replies →
          ∃ before, before <+: hist ∧ op ∈ before ∧
            Fresh k.codec before op p₂.service env (batch.map Job.input) replies := by
  obtain ⟨-, hosted⟩ := run.host
  have explained := hosted.explained lawful hb
  have known : ∃ hist, Service.History k.codec
      (logOps k.codec (logged ((fs.named k.config.path).getD [])))
      (Machine.incidents k trace) hist := by
    cases m with
    | up p =>
      have serving : Serving k.codec k.config _ _ p.service := explained
      obtain ⟨_, hist, -, past, -⟩ := serving.histories
      exact ⟨hist, past⟩
    | down fs =>
      have stopped : Stopped k.codec k.config _ _ fs := explained
      obtain ⟨hist, past, -⟩ := stopped.history
      exact ⟨hist, past⟩
  obtain ⟨hist, past⟩ := known
  refine ⟨hist, past, ?_⟩
  intro T₁ T₂ T₃ p₁ p₂ worker env o batch split first busy a made op hop replies answered
  have reading : Machine.incidents k [(.up p₂, .handle worker env o)] =
      [(.up p₂.service, .call (p₂.call k env o batch).action)] := by
    simp [Machine.incidents, shown, Machine.incident, busy, Machine.host]
  rw [split, Machine.incidents_append, Machine.incidents_append, reading] at past
  obtain ⟨before, part, earlier, reads⟩ := history_at past
  -- The acknowledged call shows in the first part of the run.
  have mem : a.incident ∈ Machine.incidents k (T₁ ++ T₂) := by
    obtain ⟨_, _, _, _, _, -, -, -, shows⟩ := (first.lifetime p₁ rfl).began
    rw [Machine.incidents_append, shows]
    simp only [List.mem_append]
    exact .inl (.inr (List.mem_map_of_mem made))
  have contained : op ∈ before := by
    obtain ⟨service, env', batch', result⟩ := a
    cases result with
    | ok replies' => exact history_mem earlier mem ⟨replies', rfl⟩ op hop
    | throw | crash => cases hop
  have answers : AnswersFrom k.codec before p₂.service env (batch.map Job.input) replies := by
    have action : (p₂.call k env o batch).action =
        .batch env (batch.map Job.input) (.ok replies) := by
      rw [← answered]
      rfl
    rw [action] at reads
    exact reads
  exact ⟨before, part, contained, fresh_of_answersFrom answers contained⟩

/-- One connection reads what the other has stored. -/
theorem no_stale_reads_two_connections : ∃ trace m hist before replies,
    Machine.Runs smallServer Aof.AofLogger.emptyFs trace m ∧ before <+: hist ∧
      ∃ s, Fresh smallServer.codec before (.put [1] [2] 0) s frozen [Message.frame .get [1] []]
        replies ∧ replies.map Service.Reply.bytes = [Message.frame .get [1] [2]] := by
  obtain ⟨p₁, T₁, first, ⟨a, made, acknowledged⟩, later⟩ := Machine.Runs.after
    (.nil : Machine.Runs smallServer Aof.AofLogger.emptyFs [] _) (show
      Machine.After smallServer (.down Aof.AofLogger.emptyFs) storeEvents fun p =>
        (∃ a ∈ p.calls, Op.put [1] [2] 0 ∈ a.action.acknowledges smallServer.codec a.service) ∧
        Machine.After smallServer (.up p) askEvents fun p =>
          p.server.queue.workers = [.running [⟨Message.frame .get [1] [], ⟨1, 13, true⟩, 1⟩]] ∧
          ((p.call smallServer frozen .reliable
            [⟨Message.frame .get [1] [], ⟨1, 13, true⟩, 1⟩]).result.Returns fun replies =>
              replies.map Service.Reply.bytes = [Message.frame .get [1] [2]]) ∧
          ((Machine.up p).step smallServer (.handle 0 frozen .reliable)).isSome by
      decide +kernel)
  obtain ⟨p₂, T₂, second, workers, answered, last⟩ := first.after later
  obtain ⟨replies, answered, bytes⟩ := Res.returns_iff.mp answered
  obtain ⟨m, taken⟩ := Option.isSome_iff_exists.mp last
  have run := second.snoc (fun _ _ => not_false) taken
  obtain ⟨hist, -, fresh⟩ :=
    no_stale_reads wireCodec_lawful (Aof.AofLogger.emptyFs_bound _) run
  obtain ⟨before, part, -, fresh⟩ := fresh _ T₂ [] p₁ p₂ 0 frozen .reliable _ (by simp) first
    (by rw [workers]; rfl) a made _ acknowledged replies answered
  exact ⟨_, m, hist, before, replies, run, part, p₂.service, fresh, bytes⟩

end KVRPC.System
