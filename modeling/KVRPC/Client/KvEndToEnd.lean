import KVRPC.Client.KVCacheClient
import KVRPC.Service.Isolation
import KVRPC.Service.Coherence

/-!
# Cache client and cache service

What a method of the client hands to the transport is decoded by the service as it was meant,
and the reply is understood by the completion. The two sides check sizes and the time to live
separately; the service refuses a time to live of more than ten years, the client does not.
-/
namespace KVRPC.Client

open Library Aof Storage Service

variable {codec : Codec} {options : ClientOptions} {call : KVCall} {cache : Cache} {now : Millis}

namespace KVCall

/-- The shard of the key could store the entry. -/
def Storable (cache : Cache) : KVCall → Prop
  | .set key value => cache.CanStore key value
  | .setWithTTL key value _ => cache.CanStore key value
  | _ => True

/-- The time to live is at most ten years. -/
def Bounded : KVCall → Prop
  | .setWithTTL _ _ ttl => ttl ≤ 315360000000
  | _ => True

instance : (call : KVCall) → Decidable call.Bounded
  | .setWithTTL .. => inferInstanceAs (Decidable (_ ≤ _))
  | .set .. | .get _ | .delete _ | .stats | .lookup _ => inferInstanceAs (Decidable True)

/-- The call as the service sees it. -/
def decoded (codec : Codec) (now : Millis) (call : KVCall) : Decoded where
  request := {
    command := call.command
    key := call.key
    value := match call with
      | .set _ value => value
      | .setWithTTL _ value _ => value
      | _ => []
    expires := match call with
      | .setWithTTL _ _ ttl => now.value + ttl.toUInt64
      | _ => 0 }
  reply := { consumed := headerSize + call.key.length + (call.payload codec).length }
  mutation := match call with
    | .set key value => some ⟨.set, key, value⟩
    | .delete key => some ⟨.del, key, []⟩
    | .setWithTTL key value ttl =>
      some ⟨.setTtl, key, codec.serialize (datedItem (ttlItem codec value ttl) now)⟩
    | _ => none

/-- The relative time to live is one the service takes. -/
theorem ttlMs_bounds {ttl : Int64} (positive : 0 < ttl) (bounded : ttl ≤ 315360000000) :
    ttl.toUInt64 ≠ 0 ∧ ttl.toUInt64 ≤ maxTtlMs := by
  have exact_ := toNat_ttl positive
  have low : 0 < ttl.toInt := Int64.lt_iff_toInt_lt.mp positive
  have high : ttl.toInt ≤ 315360000000 := Int64.le_iff_toInt_le.mp bounded
  constructor
  · intro zero
    rw [zero] at exact_
    simp at exact_
    omega
  · rw [UInt64.le_iff_toNat_le]
    change _ ≤ 315360000000
    omega

theorem decodeBody_call (lawful : codec.Lawful) (checked : call.Checked)
    (wire : (call.payload codec).length ≤ maxWireValueSize) (storable : call.Storable cache)
    (bounded : call.Bounded) :
    decodeBody codec cache now
        { command := call.command, key := call.key, value := call.payload codec } =
      .ok ((call.decoded codec now).request, (call.decoded codec now).mutation) := by
  have fits : ∀ {key value : Bytes}, value.length ≤ maxValueSize → cache.CanStore key value →
      ¬ (value.length > maxValueSize ∨ ¬ cache.CanStore key value) := by
    intro key value short stored
    rw [not_or, not_not, Nat.not_lt]
    exact ⟨short, stored⟩
  cases call with
  | set key value => exact if_neg (fits checked.2 storable)
  | setWithTTL key value ttl =>
    obtain ⟨-, short, positive⟩ := checked
    obtain ⟨nonzero, within⟩ := ttlMs_bounds positive bounded
    have parsed := lawful.parse_serialize (ttlItem codec value ttl) (by
      unfold maxWireValueSize maxValueSize at wire
      simp only [payload] at wire
      omega)
    have ttl_fits : ¬ (ttl.toUInt64 = 0 ∨ ttl.toUInt64 > maxTtlMs) := by
      rw [not_or, gt_iff_lt, UInt64.not_lt]
      exact ⟨nonzero, within⟩
    have body : decodeSetTtl codec cache now
        { command := .setTtl, key, value := codec.serialize (ttlItem codec value ttl) } =
        .ok ({ command := .setTtl, key, value, expires := now.value + ttl.toUInt64 },
          ⟨.setTtl, key, codec.serialize (datedItem (ttlItem codec value ttl) now)⟩) := by
      simp only [decodeSetTtl, parsed]
      exact (if_neg ttl_fits).trans (if_neg (fits short storable))
    simp only [decodeBody, payload, KVCall.key, command, body]
    rfl
  | get | delete | stats | lookup => rfl

/-- The service decodes a call it has no reason to refuse as it was meant. -/
theorem decodedInput_call (lawful : codec.Lawful) (checked : call.Checked)
    (encodable : Message.Encodable call.command call.key (call.payload codec))
    (storable : call.Storable cache) (bounded : call.Bounded) :
    decodedInput codec cache now (Message.frame call.command call.key (call.payload codec)) =
      call.decoded codec now := by
  have body : call.command = .set ∨ call.command = .setTtl ∨ call.payload codec = [] := by
    cases call <;> simp [command, payload]
  have bare : call.command = .stats → call.key = [] := by
    cases call <;> simp [command, KVCall.key]
  have frame := decodeFrame_frame codec cache now _ _ _ encodable body bare
  rw [decodeBody_call lawful checked encodable.2.2 storable bounded] at frame
  rw [decodedInput, decodeInput, frame]
  rfl

theorem accepted_decoded (codec : Codec) (now : Millis) (call : KVCall) :
    (call.decoded codec now).Accepted := by
  refine ⟨?_, rfl⟩
  change headerSize + call.key.length + (call.payload codec).length ≠ 0
  unfold headerSize
  omega

/-! ## Two validations -/

/-- The service refuses a time to live of more than ten years. -/
theorem decodedInput_unbounded (lawful : codec.Lawful) (checked : call.Checked)
    (encodable : Message.Encodable call.command call.key (call.payload codec))
    (unbounded : ¬ call.Bounded) :
    decodedInput codec cache now (Message.frame call.command call.key (call.payload codec)) =
      { reply := { close := true } } := by
  cases call with
  | setWithTTL key value ttl =>
    have large : ttl.toUInt64 = 0 ∨ ttl.toUInt64 > maxTtlMs := by
      have exact_ := toNat_ttl checked.2.2
      have high : 315360000000 < ttl.toInt := by
        have := Int64.not_le.mp unbounded
        exact Int64.lt_iff_toInt_lt.mp this
      right
      rw [gt_iff_lt, UInt64.lt_iff_toNat_lt]
      change 315360000000 < _
      omega
    have parsed := lawful.parse_serialize (ttlItem codec value ttl) (by
      have wire := encodable.2.2
      unfold maxWireValueSize maxValueSize at wire
      simp only [payload] at wire
      omega)
    have refused : decodeSetTtl codec cache now
        { command := .setTtl, key, value := codec.serialize (ttlItem codec value ttl) } =
        .error (runtimeError "Invalid TTL request") := by
      simp only [decodeSetTtl, parsed]
      exact if_pos large
    have frame := decodeFrame_frame codec cache now _ _ _ encodable (Or.inr (Or.inl rfl))
      (by simp [command])
    simp only [decodeBody, command, KVCall.key, payload, refused] at frame ⊢
    rw [decodedInput, decodeInput, frame]
    rfl
  | set | get | delete | stats | lookup => exact absurd trivial unbounded

/-- **What the client accepts the server accepts**, exactly as long as the time to live is at most
ten years. In any state and in any batch, the frame of an accepted call whose entry the shard
could store then passes the validation loop, and its answer does not close the connection;
beyond ten years it does. -/
theorem accepted_call_served (lawful : codec.Lawful) {frame : Bytes}
    (accepted : call.request codec options = .ok frame) {s : CacheService}
    (storable : call.Storable s.cache) (env : Service.Env)
    {inputs : List Bytes} {j : Nat} (sent : inputs[j]? = some frame) (o : Oracle) :
    ((decodedInput codec s.cache (env.decodeClock j) frame).Accepted ↔ call.Bounded) ∧
      ∀ replies, (handleBatch codec env inputs o s).1 = .ok replies →
        ∃ reply, replies[j]? = some reply ∧ (reply.Served ↔ call.Bounded) ∧
          (reply.close = true ↔ ¬ call.Bounded) := by
  obtain ⟨rfl, encodable, checked, -⟩ := request_ok accepted
  have decoded : ∀ d, decodedInput codec s.cache (env.decodeClock j)
      (Message.frame call.command call.key (call.payload codec)) = d →
      (d.Accepted ↔ call.Bounded) ∧ (d.reply.close = true ↔ ¬ call.Bounded) := by
    rintro _ rfl
    by_cases bounded : call.Bounded
    · rw [decodedInput_call lawful checked encodable storable bounded]
      exact ⟨iff_of_true (accepted_decoded codec _ call) bounded,
        iff_of_false (by simp [KVCall.decoded]) (not_not.mpr bounded)⟩
    · rw [decodedInput_unbounded lawful checked encodable bounded]
      exact ⟨iff_of_false (by simp [Decoded.Accepted]) bounded, iff_of_true rfl bounded⟩
  obtain ⟨taken, closed⟩ := decoded _ rfl
  refine ⟨taken, fun replies answered => ?_⟩
  have pairs := commitBatch_returns (committed_of_answered answered)
  have input : (decodedBatch codec s.cache env inputs)[j]? = some (decodedInput codec s.cache
      (env.decodeClock j) (Message.frame call.command call.key (call.payload codec))) := by
    rw [decodedBatch_eq_mapIdx, List.getElem?_mapIdx, sent, Option.map_some]
  obtain ⟨lengths, each⟩ := List.forall₂_iff_get.mp pairs
  obtain ⟨before, here⟩ := List.getElem?_eq_some_iff.mp input
  have answer := each j before (lengths ▸ before)
  simp only [List.get_eq_getElem, here] at answer
  refine ⟨_, List.getElem?_eq_getElem _, answer.served_iff.trans taken, ?_⟩
  rw [answer.2]
  exact closed

/-- The frame of a call that stores `[2]` under `[1]`. -/
def ttlFrame (ttl : Int64) : Bytes :=
  Message.frame .setTtl [1] (wireCodec.serialize (ttlItem wireCodec [2] ttl))

/-- The longest time to live the service takes. -/
theorem accepted_call_served_longest : ∃ s₀ replies reply,
    (create wireCodec small frozen.applyClock AofLogger.emptyFs [] .reliable).1 = .ok s₀ ∧
      (setWithTTL [1] [2] 315360000000).request wireCodec {} = .ok (ttlFrame 315360000000) ∧
      (handleBatch wireCodec frozen [ttlFrame 315360000000] .reliable s₀).1 = .ok replies ∧
      replies[0]? = some reply ∧ reply.Served := by
  have accepted : (setWithTTL [1] [2] 315360000000).request wireCodec {} =
      .ok (ttlFrame 315360000000) := by decide +kernel
  obtain ⟨s₀, created, storable, answered⟩ := Res.returns_iff.mp (show
    (create wireCodec small frozen.applyClock AofLogger.emptyFs [] .reliable).1.Returns fun s₀ =>
      s₀.cache.CanStore [1] [2] ∧
      (handleBatch wireCodec frozen [ttlFrame 315360000000] .reliable s₀).1.Returns
        fun _ => True by decide +kernel)
  obtain ⟨replies, answered, -⟩ := Res.returns_iff.mp answered
  have bounded : (setWithTTL [1] [2] 315360000000).Bounded := by decide
  have sent : [ttlFrame 315360000000][0]? = some (ttlFrame 315360000000) := rfl
  obtain ⟨reply, here, served, -⟩ := (accepted_call_served wireCodec_lawful accepted storable
    frozen sent .reliable).2 replies answered
  exact ⟨s₀, replies, reply, created, accepted, answered, here, served.mpr bounded⟩

/-- One millisecond more, and the call costs the caller its connection. -/
theorem accepted_call_closed : ∃ s₀ replies,
    (create wireCodec small frozen.applyClock AofLogger.emptyFs [] .reliable).1 = .ok s₀ ∧
      (setWithTTL [1] [2] 315360000001).Storable s₀.cache ∧
      (setWithTTL [1] [2] 315360000001).request wireCodec {} = .ok (ttlFrame 315360000001) ∧
      (handleBatch wireCodec frozen [ttlFrame 315360000001] .reliable s₀).1 = .ok replies ∧
      replies.map Reply.close = [true] := by
  have accepted : (setWithTTL [1] [2] 315360000001).request wireCodec {} =
      .ok (ttlFrame 315360000001) := by decide +kernel
  obtain ⟨s₀, created, storable, answered⟩ := Res.returns_iff.mp (show
    (create wireCodec small frozen.applyClock AofLogger.emptyFs [] .reliable).1.Returns fun s₀ =>
      s₀.cache.CanStore [1] [2] ∧
      (handleBatch wireCodec frozen [ttlFrame 315360000001] .reliable s₀).1.Returns
        fun replies => replies.map Reply.close = [true] by decide +kernel)
  obtain ⟨replies, answered, closed⟩ := Res.returns_iff.mp answered
  exact ⟨s₀, replies, created, storable, accepted, answered, closed⟩

/-! ## Replies -/

theorem length_payload_le (lawful : codec.Lawful) (checked : call.Checked) :
    (call.payload codec).length ≤ maxWireValueSize := by
  unfold maxWireValueSize
  cases call with
  | set key value => exact checked.2.trans (Nat.le_add_right _ _)
  | setWithTTL key value ttl =>
    have short : value.length ≤ maxValueSize := checked.2.1
    have bound := length_serialize_le lawful (v := ttlItem codec value ttl) rfl short
    simp only [payload, ttlItem] at bound ⊢
    omega
  | get | delete | stats | lookup => exact Nat.zero_le _

theorem encodable_call (lawful : codec.Lawful) (checked : call.Checked) :
    Message.Encodable call.command call.key (call.payload codec) := by
  refine ⟨?_, ?_, length_payload_le lawful checked⟩
  · cases call <;> simp [command]
  · cases call with
    | set | setWithTTL => exact checked.1
    | get | delete | stats | lookup => exact checked

/-- A client whose frames may be as long as the protocol allows accepts every call within the
limits. -/
theorem request_eq (lawful : codec.Lawful) (checked : call.Checked)
    (wide : maxFrameSize ≤ options.maxFrameBytes) :
    call.request codec options =
      .ok (Message.frame call.command call.key (call.payload codec)) := by
  have encodable := encodable_call lawful checked
  have fits : headerSize + call.key.length + (call.payload codec).length ≤
      options.maxFrameBytes := by
    have := encodable.2.1
    have := encodable.2.2
    unfold maxFrameSize at wide
    omega
  have built := fun short => buildRequest_eq encodable short fits
  cases call with
  | set key value => exact built fun _ => checked.2
  | setWithTTL key value ttl =>
    obtain ⟨-, short, positive⟩ := checked
    have passes : ¬ (ttl ≤ 0 ∨ value.length > maxValueSize) := by
      rw [not_or, Int64.not_le, Nat.not_lt]
      exact ⟨positive, short⟩
    exact (if_neg passes).trans (built (absurd rfl))
  | get | delete | stats | lookup => exact built fun _ => Nat.zero_le _

/-- The completion gets to the value of a well-formed response. -/
theorem complete_frame {value : Bytes} (encodable : Message.Encodable call.command call.key value)
    (wide : maxFrameSize ≤ options.maxFrameBytes)
    (bare : call.command = .set ∨ call.command = .setTtl ∨ call.command = .del → value = []) :
    complete codec options call (Message.frame call.command call.key value) =
      result codec call value := by
  have short : ¬ (Message.frame call.command call.key value).length > options.maxFrameBytes := by
    have := encodable.2.1
    have := encodable.2.2
    rw [Message.length_frame]
    unfold maxFrameSize at wide
    omega
  have empty : ¬ ((call.command = .set ∨ call.command = .setTtl ∨ call.command = .del) ∧
      value.length ≠ 0) := by
    rintro ⟨mutates, long⟩
    exact long (congrArg List.length (bare mutates))
  simp only [complete, encodable.decodeHeader, Message.frame_key, Message.frame_value, short, empty,
    ne_eq, not_true_eq_false, or_self, if_false]

/-- What a future is to be fulfilled with, given what the cache holds. -/
def Yields (cache : Cache) (now : Millis) : KVCall → KVResult → Prop
  | .set .., r | .delete _, r | .setWithTTL .., r => r = .flag true
  | .lookup key, r =>
    ∃ found, r = .optional found ∧ ∀ v, found = some v ↔ cache.Resident now.value key v
  | .get key, r =>
    ∃ found, r = .text (found.getD []) ∧ ∀ v, found = some v ↔ cache.Resident now.value key v
  | .stats, r => ∃ text, r = .text text

/-- The response of the service means to the client what the call asked for. -/
theorem result_execute (lawful : codec.Lawful) {now' : Millis} {metrics : Option TransportStats}
    {disk : AofStats} {response : Bytes}
    (executed : (execute codec now' metrics disk (call.decoded codec now).request cache).1 =
      .ok response) (short : response.length ≤ maxWireValueSize) :
    (call.command = .set ∨ call.command = .setTtl ∨ call.command = .del → response = []) ∧
      ∃ r, result codec call response = .ok r ∧ call.Yields cache now' r := by
  cases call with
  | set key value | setWithTTL key value ttl =>
    refine ⟨fun _ => ?_, _, rfl, rfl⟩
    simp only [execute, decoded, command] at executed
    split at executed
    · exact (Except.ok.inj executed).symm
    · cases executed
  | delete key => exact ⟨fun _ => (Except.ok.inj executed).symm, _, rfl, rfl⟩
  | get key =>
    cases executed
    exact ⟨by simp [command], _, rfl, _, rfl, fun v => ShardedCache.get_eq_some_iff⟩
  | lookup key =>
    obtain rfl : codec.serialize (lookupValue codec (cache.get key now'.value).1) = response :=
      Except.ok.inj executed
    refine ⟨by simp [command], .optional (cache.get key now'.value).1, ?_, _, rfl,
      fun v => ShardedCache.get_eq_some_iff⟩
    have parsed := lawful.parse_serialize (lookupValue codec (cache.get key now'.value).1) (by
      unfold maxWireValueSize maxValueSize at short
      exact short.trans_lt (by norm_num))
    have unwrapped : ∀ found : Option Bytes,
        (if found.isSome = true then some (found.getD []) else none) = found := by
      rintro (_ | _) <;> rfl
    simp only [result, parsed]
    exact congrArg (fun found => Except.ok (KVResult.optional found)) (unwrapped _)
  | stats => exact ⟨by simp [command], _, rfl, _, rfl⟩

/-- The log takes the mutation of the call, if it has one, as it is or after a compaction. -/
def HasRoom (codec : Codec) (cfg : Config) (s : CacheService) (env : Service.Env)
    (call : KVCall) : Prop :=
  let ms := mutations [call.decoded codec (env.decodeClock 0)]
  s.aof.needsRewrite ms = .ok true →
    (records (snapshotMutations codec s.cache env.snapshotClock)).length + (records ms).length ≤
      cfg.maxAofBytes

theorem loggable_call (lawful : codec.Lawful) (checked : call.Checked) (now : Millis) :
    ∀ m ∈ mutations [call.decoded codec now], Loggable m := by
  have wire : maxValueSize ≤ maxWireValueSize := Nat.le_add_right _ _
  cases call with
  | set key value =>
    simp only [mutations, decoded, List.filterMap_cons, List.filterMap_nil, List.mem_singleton]
    rintro _ rfl
    exact ⟨Or.inl rfl, by simp, checked.1, checked.2.trans wire⟩
  | setWithTTL key value ttl =>
    simp only [mutations, decoded, List.filterMap_cons, List.filterMap_nil, List.mem_singleton]
    rintro _ rfl
    have short : value.length ≤ maxValueSize := checked.2.1
    have bound :=
      length_serialize_le lawful (v := datedItem (ttlItem codec value ttl) now) rfl short
    refine ⟨Or.inr (Or.inr rfl), by simp, checked.1, ?_⟩
    unfold maxWireValueSize
    simp only [datedItem, ttlItem] at bound ⊢
    omega
  | delete key =>
    simp only [mutations, decoded, List.filterMap_cons, List.filterMap_nil, List.mem_singleton]
    rintro _ rfl
    exact ⟨Or.inr (Or.inl rfl), fun _ => rfl, checked, Nat.zero_le _⟩
  | get | stats | lookup => simp [mutations, decoded]

section Served

variable {cfg : Config} {s : CacheService} {env : Service.Env}

/-- A healthy service with room in the log answers the call. -/
theorem handleBatch_call (lawful : codec.Lawful) (checked : call.Checked)
    (storable : call.Storable s.cache) (bounded : call.Bounded) (healthy : Healthy cfg s)
    (modest : Throughout codec Op.Modest s) (alive : s.failed = false)
    (room : call.HasRoom codec cfg s env) {o : Oracle} (ho : o.NoFailure) :
    ∃ reply disk, (handleBatch codec env
        [Message.frame call.command call.key (call.payload codec)] o s).1 = .ok [reply] ∧
      (applyOne codec (env.applyClock 0) env.metrics disk
        (call.decoded codec (env.decodeClock 0)) s.cache).1 = .ok reply := by
  have encodable := encodable_call lawful checked
  have batch : decodedBatch codec s.cache env
      [Message.frame call.command call.key (call.payload codec)] =
        [call.decoded codec (env.decodeClock 0)] := by
    rw [decodedBatch_eq_mapIdx]
    exact congrArg (· :: []) (decodedInput_call lawful checked encodable storable bounded)
  have loggable := loggable_call lawful checked (env.decodeClock 0)
  have faultless : o.In .faultless := ho
  have result := (wp_handleBatch codec env
    [Message.frame call.command call.key (call.payload codec)] healthy.ready.live).run faultless
  have writable : Writable codec s.cache := fun e held => (modest.held e held).writable lawful
  have exact_ := result.exact healthy.ready alive healthy.aof_alive writable
    (batch ▸ size_of_loggable loggable)
  have admitted := mt exact_.rejected_iff.mp (by
    rw [batch]
    rintro ⟨full, large⟩
    have := room full
    omega)
  have outcome := (result.faultless healthy).2
  generalize (handleBatch codec env [_] o s).1 = r at outcome admitted ⊢
  generalize (handleBatch codec env [_] o s).2.2 = s' at outcome
  cases outcome with
  | unavailable failed => simp [alive] at failed
  | refused _ e he =>
    rw [batch, size_of_loggable loggable,
      size_of_loggable (writable.loggable env.snapshotClock)] at he
    simp at he
  | rejected => exact absurd (rejected_capacity _) admitted
  | @done _ _ _ _ aof _ r cache happlied =>
    obtain ⟨replies, ok⟩ := applied_ok lawful modest.held env aof.stats
      [Message.frame call.command call.key (call.payload codec)]
    rw [happlied] at ok
    cases ok
    rw [batch] at happlied
    obtain ⟨reply, rest, c, one, tail, rfl⟩ := applyAll_cons_eq_ok.mp happlied
    cases tail
    exact ⟨reply, aof.stats, rfl, congrArg Prod.fst one⟩

/-- **A call comes back with what the cache holds.** In every state that a service reaches from an
empty log without failures, for every call within the limits whose entry the shard could store
and whose mutation the log has room for: the request is one frame for the server, it is consumed
without closing the connection, the reply is one frame for the client and within the limit on
frames, and the completion fulfils the future with the right value. -/
theorem call_end_to_end (lawful : codec.Lawful) {fs : Fs} (hb : fs.Bound cfg.path)
    (empty : (fs.named cfg.path).getD [] = []) {clock : Nat → Millis} {o : Oracle}
    {s₀ : CacheService} (created : (create codec cfg clock fs [] o).1 = .ok s₀)
    {trace : List (CacheService × Action)} (run : Calls codec cfg .faultless s₀ trace s)
    (alive : s.failed = false) (wide : maxFrameSize ≤ options.maxFrameBytes)
    (checked : call.Checked) (bounded : call.Bounded) (storable : call.Storable s.cache)
    (env : Service.Env) (room : call.HasRoom codec cfg s env) {o' : Oracle} (ho' : o'.NoFailure) :
    ∃ frame reply r, call.request codec options = .ok frame ∧
      kvFrameSize frame = .ok frame.length ∧
      (handleBatch codec env [frame] o' s).1 = .ok [reply] ∧
      reply.consumed = frame.length ∧ reply.close = false ∧
      reply.bytes.length ≤ maxFrameSize ∧
      kvFrameSize reply.bytes = .ok reply.bytes.length ∧
      call.completion codec options (.response reply.bytes) = (.ok r, true) ∧
      call.Yields s.cache (env.applyClock 0) r := by
  have start := (created_of_create hb created).1
  obtain ⟨healthy, modest⟩ := run.throughout lawful start
    (by rw [empty, logged_nil]; simp [logOps]) decodedBatch_modest
  obtain ⟨reply, disk, answered, made⟩ := handleBatch_call lawful checked storable bounded healthy
    modest alive room ho'
  obtain ⟨response, executed, encoded, consumed, close⟩ :=
    applyOne_answered made (accepted_decoded codec _ call)
  obtain ⟨encodable, bytes⟩ : Message.Encodable call.command call.key response ∧
      reply.bytes = Message.frame call.command call.key response := Message.encode_ok_iff.mp encoded
  obtain ⟨bare, r, understood, yields⟩ := result_execute lawful executed encodable.2.2
  have sent := encodable_call lawful checked
  refine ⟨_, reply, r, request_eq lawful checked wide, kvFrameSize_frame sent, answered, ?_, close,
    ?_, ?_, ?_, yields⟩
  · rw [consumed, Message.length_frame]
    rfl
  · have := encodable.2.1
    have := encodable.2.2
    rw [bytes, Message.length_frame]
    unfold maxFrameSize
    omega
  · rw [bytes]
    exact kvFrameSize_frame encodable
  · have completed := (complete_frame encodable wide bare).trans understood
    rw [bytes]
    simp only [completion, completed]

end Served

/-- A lookup of what was stored before. -/
theorem call_end_to_end_lookup : ∃ s₀ s reply,
    (create wireCodec small frozen.applyClock AofLogger.emptyFs [] .reliable).1 = .ok s₀ ∧
      (handleBatch wireCodec frozen [Message.frame .set [1] [2]] .reliable s₀).2.2 = s ∧
      (handleBatch wireCodec frozen [Message.frame .lookup [1] []] .reliable s).1 = .ok [reply] ∧
      (lookup [1]).completion wireCodec {} (.response reply.bytes) =
        (.ok (.optional (some [2])), true) := by
  obtain ⟨s₀, created, alive, held⟩ := Res.returns_iff.mp (show
    (create wireCodec small frozen.applyClock AofLogger.emptyFs [] .reliable).1.Returns fun s₀ =>
      let s := (handleBatch wireCodec frozen [Message.frame .set [1] [2]] .reliable s₀).2.2
      s.failed = false ∧ ∃ p ∈ s.cache.shape, lasting [1] [2] ∈ p.2 by decide +kernel)
  have run : Calls wireCodec small .faultless s₀ [_] _ :=
    .snoc .nil (by simp) (.batch frozen [Message.frame .set [1] [2]] .reliable trivial)
  have reliable : Oracle.reliable.NoFailure := trivial
  have checked : (lookup [1]).Checked := by decide
  have wide : maxFrameSize ≤ ({} : ClientOptions).maxFrameBytes := by decide
  obtain ⟨frame, reply, r, sent, -, answered, -, -, -, -, completed, found, rfl, read⟩ :=
    call_end_to_end wireCodec_lawful (AofLogger.emptyFs_bound small.path) rfl created run alive wide
      checked trivial trivial frozen nofun reliable
  have resident := (read [2]).mpr ⟨_, ShardedCache.holds_iff_shape.mpr held, rfl, rfl,
    lasting_unexpired _ _ _⟩
  cases sent
  rw [resident] at completed
  exact ⟨s₀, _, reply, created, rfl, answered, completed⟩

end KVCall
end KVRPC.Client
