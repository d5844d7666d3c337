import KVRPC.Service.Capacity

/-!
# What a replayed log leaves in the cache can be read

Replay and `HandleBatch` check entries by different rules: a record may hold a value as long
as the wire format allows, a request only one that leaves room for the message around it. An
entry from a record always comes back as the reply to `GET` and as a record of a snapshot,
but `LOOKUP` wraps the value once more, and the result can be too long for a reply.
-/
namespace KVRPC.Service

open Library Aof Storage

variable {codec : Codec} {cfg : Config} {s : CacheService} {env : Env} {e : Entry Bytes Bytes}

/-! ## Reads on their own -/

/-- A batch without mutations makes no system call. -/
theorem handleBatch_of_no_mutations (alive : s.failed = false) {inputs : List Bytes}
    (silent : mutations (decodedBatch codec s.cache env inputs) = []) (o : Oracle) :
    handleBatch codec env inputs o s =
      Sys.tryCatch (applyBatch codec env (decodedBatch codec s.cache env inputs)) rethrow o s := by
  have committed : commitBatch codec env (decodedBatch codec s.cache env inputs) o s =
      applyBatch codec env (decodedBatch codec s.cache env inputs) o s := by
    unfold commitBatch
    rw [silent]
    rfl
  rw [handleBatch_eq, if_neg (by simp [alive])]
  unfold Sys.tryCatch
  rw [committed]

/-- The frame of a `GET` or `LOOKUP` request as it is decoded. -/
theorem decodedInput_read (codec : Codec) {command : Command}
    (reads : command = .get ∨ command = .lookup)
    {key : Bytes} (hk : key.length ≤ maxKeySize) (cache : Cache) (now : Millis) :
    decodedInput codec cache now (Message.frame command key []) = {
      request := { command := command, key := key }
      reply := { consumed := headerSize + key.length } } := by
  have frame := decodeFrame_frame codec cache now command key []
    ⟨by rcases reads with rfl | rfl <;> simp, hk, Nat.zero_le _⟩ (Or.inr (Or.inr rfl))
    (by rcases reads with rfl | rfl <;> simp)
  have body : decodeBody codec cache now { command := command, key := key } =
      .ok ({ command := command, key := key }, none) := by
    rcases reads with rfl | rfl <;> rfl
  rw [body] at frame
  rw [decodedInput, decodeInput, frame]
  rfl

/-- The response to a read that found `found`. -/
def readResponse (codec : Codec) (command : Command) (found : Option Bytes) : Bytes :=
  if command = .lookup then codec.serialize (lookupValue codec found) else found.getD []

theorem applyAll_read (codec : Codec) {command : Command}
    (reads : command = .get ∨ command = .lookup)
    {cache : Cache} {now : Millis} {clock : Nat → Millis} (hnow : clock 0 = now)
    (held : cache.Holds e) (unexpired : ¬ e.Expired now.value)
    (metrics : Option TransportStats) (disk : AofStats) :
    (applyAll codec clock metrics disk 0 [{
        request := { command := command, key := e.key }
        reply := { consumed := headerSize + e.key.length } }] cache).1 =
      (Message.encode command e.key (readResponse codec command (some e.value))).map fun bytes =>
        [{ consumed := headerSize + e.key.length, bytes := bytes }] := by
  have found := held.get_eq unexpired
  have executed : execute codec now metrics disk { command := command, key := e.key } cache =
      (.ok (readResponse codec command (some e.value)), (cache.get e.key now.value).2) := by
    rcases reads with rfl | rfl <;> simp [execute, readResponse, found]
  have accepted : ¬ (headerSize + e.key.length = 0 ∨ false = true) := by
    simp [headerSize]
  rw [applyAll, hnow, applyOne, if_neg accepted, executed]
  dsimp only
  cases Message.encode command e.key (readResponse codec command (some e.value)) <;> rfl

/-- The length of the reply decides how a read of an entry that is not expired ends. -/
theorem handleBatch_read (codec : Codec) (alive : s.failed = false) (held : s.cache.Holds e)
    (unexpired : ¬ e.Expired (env.applyClock 0).value) (hk : e.key.length ≤ maxKeySize)
    {command : Command} (reads : command = .get ∨ command = .lookup) (o : Oracle) :
    let response := Message.encode command e.key (readResponse codec command (some e.value))
    let call := handleBatch codec env [Message.frame command e.key []] o s
    (∀ bytes, response = .ok bytes →
      call.1 = .ok [{ consumed := headerSize + e.key.length, bytes := bytes }]) ∧
    ∀ err, response = .error err → call.1 = .throw err ∧ call.2.2.failed = true := by
  dsimp only
  have decoded : decodedBatch codec s.cache env [Message.frame command e.key []] = [{
      request := { command := command, key := e.key }
      reply := { consumed := headerSize + e.key.length } }] := by
    rw [decodedBatch_eq_mapIdx]
    exact congrArg (· :: []) (decodedInput_read codec reads hk s.cache _)
  rw [handleBatch_of_no_mutations alive (by rw [decoded]; rfl), decoded]
  have applied := applyAll_read codec reads rfl held unexpired env.metrics s.aof.stats
  unfold Sys.tryCatch applyBatch
  generalize applyAll codec env.applyClock env.metrics s.aof.stats 0 _ s.cache = out at applied ⊢
  obtain ⟨r, cache⟩ := out
  dsimp only at applied
  subst applied
  constructor
  · intro bytes encoded
    rw [encoded]
    rfl
  · intro err encoded
    have cls := Message.encode_error_cls encoded
    rw [encoded]
    dsimp only [Except.map]
    rw [rethrow, if_neg cls]
    exact ⟨rfl, rfl⟩

/-! ## Entries of a new service -/

theorem length_value_le_serialize (lawful : codec.Lawful) (v : codec.Value) :
    v.value.length ≤ (codec.serialize v).length := by
  rw [lawful.length_serialize, CacheValue.knownLength]
  by_cases empty : v.value = []
  · simp [empty]
  · simp only [CacheValue.lengthOf, if_pos (show v.value ≠ [] from empty), List.length_append]
    omega

theorem Op.Writable.lengths (lawful : codec.Lawful) (h : (storing e).Writable codec) :
    e.key.length ≤ maxKeySize ∧ e.value.length ≤ maxWireValueSize := by
  obtain ⟨_, _, key, value⟩ := h e rfl
  unfold snapshotMutation at key value
  split at key
  · rw [if_pos ‹_›] at value
    exact ⟨key, (length_value_le_serialize lawful _).trans value⟩
  · rw [if_neg ‹_›] at value
    exact ⟨key, value⟩

/-- A snapshot is written exactly if it fits into the log. -/
theorem compact_ok_iff (ready : Ready cfg s.aof) (alive : s.aof.failed = false)
    (writable : Writable codec s.cache) (clock : Nat → Nat → Millis) {o : Oracle}
    (ho : o.NoFailure) :
    ((compact codec clock o s).1 = .ok () ↔
      (records (snapshotMutations codec s.cache clock)).length ≤ cfg.maxAofBytes) ∧
    ((compact codec clock o s).1 = .ok () →
      logged (compact codec clock o s).2.2.aof.file = snapshotMutations codec s.cache clock) := by
  have faultless : o.In .faultless := ho
  obtain ⟨aof, hs, result⟩ := (wp_compactLocked clock ready.live).run faultless
  have encodes := size_of_loggable (writable.loggable clock)
  change ((compactLocked codec clock o s).1 = _ ↔ _) ∧ ((compactLocked codec clock o s).1 = _ →
    logged (compactLocked codec clock o s).2.2.aof.file = _)
  rw [hs]
  generalize (compactLocked codec clock o s).1 = r at result ⊢
  cases result with
  | unavailable failed => simp [alive] at failed
  | unencodable _ err he => simp [he] at encodes
  | overCapacity _ _ large =>
    rw [ready.maxBytes_eq] at large
    exact ⟨iff_of_false (by simp) (by omega), by simp⟩
  | rewritten hf hl fits =>
    have returned : AofLogger.RewriteResult .faultless s.aof _ (.ok ()) _ := .rewritten hf hl fits
    rw [ready.maxBytes_eq] at fits
    exact ⟨iff_of_true rfl fits, fun _ => (ready.rewritten returned).2.log_eq⟩
  | unpublished | unsynced | killed => contradiction

/-- A read of an entry that is not expired is answered exactly if the reply encodes. -/
theorem handleBatch_read_ok_iff (alive : s.failed = false) (held : s.cache.Holds e)
    (unexpired : ¬ e.Expired (env.applyClock 0).value) (hk : e.key.length ≤ maxKeySize)
    {command : Command} (reads : command = .get ∨ command = .lookup) (o : Oracle) :
    (∃ replies, (handleBatch codec env [Message.frame command e.key []] o s).1 = .ok replies) ↔
      (readResponse codec command (some e.value)).length ≤ maxWireValueSize := by
  obtain ⟨sent, refused⟩ := handleBatch_read codec alive held unexpired hk reads o
  by_cases fits : (readResponse codec command (some e.value)).length ≤ maxWireValueSize
  · refine iff_of_true ⟨_, sent _ (Message.encode_of_encodable ⟨?_, hk, fits⟩)⟩ fits
    rcases reads with rfl | rfl <;> simp
  · obtain ⟨err, encoded⟩ := Message.encode_error_of_not_encodable
      (fun encodable : Message.Encodable command e.key _ => fits encodable.2.2)
    rw [(refused err encoded).1]
    exact iff_of_false (by simp) fits

/-- **Start-up admits what can be served**, with two provisos. Every entry a new service holds
is returned by `GET` as long as it is not expired. `LOOKUP` is answered exactly if the message
around the value is within the limit on values, and then returns it, marked as found. A
compaction succeeds exactly if the snapshot fits into the log, and then writes a record of the
entry. -/
theorem startup_servable (lawful : codec.Lawful) {fs : Fs} (hb : fs.Bound cfg.path)
    {clock : Nat → Millis} {o : Oracle} (created : (create codec cfg clock fs [] o).1 = .ok s)
    (held : s.cache.Holds e) (env : Env) (unexpired : ¬ e.Expired (env.applyClock 0).value)
    {o' : Oracle} (ho' : o'.NoFailure) :
    (handleBatch codec env [Message.frame .get e.key []] o' s).1 =
      .ok [{ consumed := headerSize + e.key.length, bytes := Message.frame .get e.key e.value }] ∧
    ((∃ replies, (handleBatch codec env [Message.frame .lookup e.key []] o' s).1 = .ok replies) ↔
      LookupFits codec e.value) ∧
    (LookupFits codec e.value → ∃ item,
      (handleBatch codec env [Message.frame .lookup e.key []] o' s).1 = .ok [{
        consumed := headerSize + e.key.length
        bytes := Message.frame .lookup e.key (codec.serialize item) }] ∧
      codec.parse (codec.serialize item) = some item ∧ item.found = true ∧
        item.value = e.value) ∧
    (∃ bytes, encode (snapshotMutation codec e) = .ok bytes) ∧
    ∀ snapshotClock,
      ((compact codec snapshotClock o' s).1 = .ok () ↔
        (records (snapshotMutations codec s.cache snapshotClock)).length ≤ cfg.maxAofBytes) ∧
      ((∀ i j, ¬ e.Expired (snapshotClock i j).value) →
        (compact codec snapshotClock o' s).1 = .ok () →
          snapshotMutation codec e ∈ logged (compact codec snapshotClock o' s).2.2.aof.file) := by
  have start := (created_of_create hb created).1
  have writable := start.writable lawful
  obtain ⟨key, value⟩ := (writable e held).lengths lawful
  refine ⟨?_, ?_, fun fits => ⟨lookupValue codec (some e.value), ?_, ?_, rfl, rfl⟩, ?_, ?_⟩
  · refine (handleBatch_read codec start.alive held unexpired key (Or.inl rfl) o').1 _ ?_
    exact Message.encode_of_encodable ⟨by simp, key, value⟩
  · exact handleBatch_read_ok_iff start.alive held unexpired key (Or.inr rfl) o'
  · refine (handleBatch_read codec start.alive held unexpired key (Or.inr rfl) o').1 _ ?_
    exact Message.encode_of_encodable ⟨by simp, key, fits⟩
  · refine lawful.parse_serialize _ ?_
    unfold LookupFits maxWireValueSize maxValueSize at fits
    omega
  · exact ⟨_, encode_of_loggable (writable e held e rfl)⟩
  · intro snapshotClock
    obtain ⟨fits, log⟩ :=
      compact_ok_iff start.ready start.healthy.1.aof_alive writable snapshotClock ho'
    refine ⟨fits, fun unexpired ok => ?_⟩
    rw [log ok]
    exact List.mem_map_of_mem (held.mem_snapshot unexpired)

/-- An entry that does not expire. -/
def lasting (key value : Bytes) : Entry Bytes Bytes := ⟨key, value, 0, entryBytes key value⟩

theorem lasting_unexpired (key value : Bytes) (now : UInt64) :
    ¬ (lasting key value).Expired now := by
  simp [Entry.Expired, lasting]

theorem startup_servable_legacy : ∃ s item,
    (create wireCodec small frozen.applyClock (LogFile.only (payload ⟨.set, [1], [2]⟩)).fs []
      .reliable).1 = .ok s ∧
    s.cache.Holds (lasting [1] [2]) ∧
    (handleBatch wireCodec frozen [Message.frame .get [1] []] .reliable s).1 =
      .ok [{ consumed := 13, bytes := Message.frame .get [1] [2] }] ∧
    (handleBatch wireCodec frozen [Message.frame .lookup [1] []] .reliable s).1 =
      .ok [{ consumed := 13, bytes := Message.frame .lookup [1] (wireCodec.serialize item) }] ∧
    item.found = true ∧ item.value = [2] ∧
    (compact wireCodec frozen.snapshotClock .reliable s).1 = .ok () := by
  obtain ⟨s, created, held, fits⟩ := Res.returns_iff.mp (show
    (create wireCodec small frozen.applyClock (LogFile.only (payload ⟨.set, [1], [2]⟩)).fs []
      .reliable).1.Returns fun s =>
      (∃ p ∈ s.cache.shape, lasting [1] [2] ∈ p.2) ∧
      (records (snapshotMutations wireCodec s.cache frozen.snapshotClock)).length ≤
        small.maxAofBytes by decide +kernel)
  have held := ShardedCache.holds_iff_shape.mpr held
  have reliable : Oracle.reliable.NoFailure := trivial
  obtain ⟨get, _, lookup, _, compacted⟩ := startup_servable wireCodec_lawful
    (LogFile.only (payload ⟨.set, [1], [2]⟩)).bound created held frozen
    (lasting_unexpired _ _ _) reliable
  obtain ⟨item, lookup, _, found, value⟩ := lookup
    (lookupFits_of_length_le wireCodec_lawful (by decide))
  exact ⟨s, item, created, held, get, lookup, found, value,
    (compacted frozen.snapshotClock).1.mpr fits⟩

/-! ## Without the provisos -/

/-- A log with room for one small legacy record. -/
def brimful : Config := { small with maxAofBytes := 14 }

/-- A configuration with room for the longest record. -/
def roomy : Config := { small with maxAofBytes := 4194304, maxCacheBytes := 2097152 }

theorem roomy_cache : ∃ c : Cache,
    ShardedCache.create roomy.hash roomy.capacity roomy.shards roomy.maxCacheBytes = .ok c ∧
      ∀ key, (c.getShard key).limits = ⟨4, 2097152⟩ := ⟨_, rfl, fun _ => rfl⟩

section Longest

variable {v : Bytes} (hv : v.length = maxWireValueSize)

include hv

theorem canStore_longest {c : Cache} (limits : ∀ key, (c.getShard key).limits = ⟨4, 2097152⟩) :
    c.CanStore [] v := by
  have wire : v.length = 1048640 := hv
  rw [ShardedCache.canStore_iff, limits]
  simp [entryBytes, Sizes.keyCost, Sizes.valueCost, Sizes.entrySize, wire]

/-- A legacy record of the longest value is a whole log. -/
theorem encodes_longest : Encodes [⟨.set, [], v⟩] (payload ⟨.set, [], v⟩) := by
  have loggable : Loggable ⟨.set, [], v⟩ := ⟨Or.inl rfl, by simp, Nat.zero_le _, hv.le⟩
  exact ⟨[_], .cons ⟨loggable, Or.inr rfl⟩ .nil, by simp⟩

/-- A log with one legacy record that holds the longest value is accepted. -/
theorem roomy_admits : ∃ s,
    (create wireCodec roomy frozen.applyClock (LogFile.only (payload ⟨.set, [], v⟩)).fs []
      .reliable).1 = .ok s ∧ s.cache.Holds (lasting [] v) := by
  obtain ⟨c, hc, limits⟩ := roomy_cache
  have wire : v.length = 1048640 := hv
  obtain ⟨c', put, _⟩ := c.put_ok 0 (frozen.applyClock 0).value (canStore_longest hv limits)
  have holds := ShardedCache.put_holds put (by rw [limits]; decide) (by simp)
  have file : ((LogFile.only (payload ⟨.set, [], v⟩)).fs.named roomy.path).getD [] =
    payload ⟨.set, [], v⟩ := rfl
  have whole := encodes_longest hv
  have fits : (payload ⟨.set, [], v⟩).length ≤ roomy.maxAofBytes := by
    rw [payload, Message.length_frame, wire]
    change 12 + 0 + 1048640 ≤ 4194304
    omega
  rw [← file] at whole fits
  have reliable : Oracle.reliable.NoFailure := trivial
  have valid : ∀ m ∈ [(⟨.set, [], v⟩ : Mutation)], (mutationOp? wireCodec m).isSome := by
    simp [mutationOp?]
  obtain ⟨s, created, rfl⟩ := create_of_replays (LogFile.only (payload ⟨.set, [], v⟩)).bound []
    reliable hc whole fits valid (.cons put (.nil _ _))
  exact ⟨s, created, holds⟩

/-- The message around it is too long. -/
theorem not_lookupFits (lawful : codec.Lawful) : ¬ LookupFits codec v := by
  have wire : v.length = 1048640 := hv
  have one : 0 < (Wire.varint v.length).length := Wire.length_varint_pos _
  have present : v ≠ [] := by
    rintro rfl
    simp at wire
  unfold LookupFits
  rw [lawful.length_serialize, ← hv]
  simp only [CacheValue.knownLength, CacheValue.lengthOf, lookupValue, Option.getD_some,
    if_pos present, List.length_append]
  omega

end Longest

/-- Looking up the longest value disables the service, and a log of legacy records can be too
full to be compacted. -/
theorem startup_admits_unservable :
    (∃ v s err,
      (create wireCodec roomy frozen.applyClock (LogFile.only (payload ⟨.set, [], v⟩)).fs []
        .reliable).1 = .ok s ∧ s.cache.Holds (lasting [] v) ∧
      (handleBatch wireCodec frozen [Message.frame .lookup [] []] .reliable s).1 = .throw err ∧
      (handleBatch wireCodec frozen [Message.frame .lookup [] []] .reliable s).2.2.failed = true) ∧
    ∃ s,
      (create wireCodec brimful frozen.applyClock
        (LogFile.only (payload ⟨.set, [1], [2]⟩)).fs [] .reliable).1 = .ok s ∧
      s.cache.Holds (lasting [1] [2]) ∧
      (compact wireCodec frozen.snapshotClock .reliable s).1 =
        .throw (aofCapacityError "Snapshot exceeds AOF limit") := by
  constructor
  · obtain ⟨v, hv⟩ : ∃ v : Bytes, v.length = maxWireValueSize :=
      ⟨.replicate _ 0, List.length_replicate⟩
    obtain ⟨s, created, held⟩ := roomy_admits hv
    have start := (created_of_create (LogFile.only _).bound created).1
    have long : ¬ Message.Encodable .lookup [] (readResponse wireCodec .lookup (some v)) :=
      fun encodable => not_lookupFits hv wireCodec_lawful encodable.2.2
    obtain ⟨err, refused⟩ := Message.encode_error_of_not_encodable long
    have unexpired := lasting_unexpired [] v (frozen.applyClock 0).value
    obtain ⟨thrown, failed⟩ := (handleBatch_read wireCodec start.alive held unexpired
      (Nat.zero_le _) (Or.inr rfl) .reliable).2 err refused
    exact ⟨v, s, err, created, held, thrown, failed⟩
  · obtain ⟨s, created, held, thrown⟩ := Res.returns_iff.mp (show
      (create wireCodec brimful frozen.applyClock
        (LogFile.only (payload ⟨.set, [1], [2]⟩)).fs [] .reliable).1.Returns fun s =>
        (∃ p ∈ s.cache.shape, lasting [1] [2] ∈ p.2) ∧
        (compact wireCodec frozen.snapshotClock .reliable s).1 =
          .throw (aofCapacityError "Snapshot exceeds AOF limit") by decide +kernel)
    exact ⟨s, created, ShardedCache.holds_iff_shape.mpr held, thrown⟩

end KVRPC.Service
