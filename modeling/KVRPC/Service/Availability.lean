import KVRPC.Service.Faultless

/-!
# No request disables storage

After the decoding loop every exception but `AofCapacityError` sets `failed_` for good.
The limits on requests imply the limits on records, snapshots and replies, so in a run
without I/O failures no such exception is thrown, with one proviso. A `SET_TTL` request is
logged as a message that has lost its relative and gained an absolute expiry, and a
message full of unknown fields can outgrow the limit on values that way.
-/
namespace KVRPC.Service

open Library Aof Storage

variable {codec : Codec} {cfg : Config}

/-! ## Sizes -/

/-- Key and value of a stored entry are within the limits on requests. -/
def Op.Modest : Op → Prop
  | .put key value _ => key.length ≤ maxKeySize ∧ value.length ≤ maxValueSize
  | .remove _ => True

/-- The value of a stored entry is within the limit on messages. -/
def Op.Short : Op → Prop
  | .put _ value _ => value.length ≤ maxWireValueSize
  | .remove _ => True

theorem Op.Modest.short {op : Op} (h : op.Modest) : op.Short := by
  cases op with
  | put => exact h.2.trans (Nat.le_add_right _ _)
  | remove => trivial

theorem length_decimal_le (n : Nat) : (decimal n).length ≤ 20 := by
  rw [decimal, List.length_map]
  have small : n % 2 ^ 64 < 10 ^ 20 := (Nat.mod_lt n (by norm_num)).trans (by norm_num)
  exact Nat.toDigits_length 10 _ 20 (by norm_num) small

theorem length_statsText_le (stats : Stats) (disk : AofStats) :
    (statsText stats disk).length ≤ 400 := by
  delta statsText
  simp only [List.length_append]
  have names : (text "Hits: ").length + (text ", Misses: ").length +
      (text ", AOF records: ").length + (text ", AOF syncs: ").length +
      (text ", AOF bytes: ").length + (text ", Cache bytes: ").length +
      (text ", Evictions: ").length + (text ", AOF rewrites: ").length +
      (text ", AOF sync us: ").length ≤ 200 := by decide
  have := length_decimal_le stats.hits
  have := length_decimal_le stats.misses
  have := length_decimal_le stats.bytes
  have := length_decimal_le stats.evictions
  have := length_decimal_le disk.records
  have := length_decimal_le disk.syncs
  have := length_decimal_le disk.bytes
  have := length_decimal_le disk.rewrites
  have := length_decimal_le disk.syncUs
  omega

theorem length_metricsText_le (s : TransportStats) : (metricsText s).length ≤ 400 := by
  delta metricsText
  simp only [List.length_append]
  have names : (text ", Active connections: ").length + (text ", Rejected: ").length +
      (text ", Queued tasks: ").length + (text ", Queued bytes: ").length +
      (text ", Timeouts: ").length + (text ", Handler us: ").length +
      (text ", Handler errors: ").length ≤ 200 := by decide
  have := length_decimal_le s.active
  have := length_decimal_le s.rejected
  have := length_decimal_le s.queuedTasks
  have := length_decimal_le s.queuedBytes
  have := length_decimal_le s.timeouts
  have := length_decimal_le s.handlerUs
  have := length_decimal_le s.handlerErrors
  omega

/-- A message without unknown fields takes at most 28 octets more than its value. -/
theorem length_serialize_le (lawful : codec.Lawful) {v : codec.Value}
    (known : v.unknown = codec.noUnknown) (hv : v.value.length ≤ maxValueSize) :
    (codec.serialize v).length ≤ v.value.length + 28 := by
  have nothing : (codec.serialize (codec.onlyUnknown v.unknown)).length = 0 := by
    rw [known, lawful.serialize_empty]
    rfl
  have found := CacheValue.lengthOf_le (v.found = true) (Wire.varint 1)
  have one : (Wire.varint 1).length ≤ 0 + 1 := Wire.length_varint_le (by norm_num)
  have value := CacheValue.lengthOf_le (v.value ≠ []) (Wire.varint v.value.length ++ v.value)
  have three : (Wire.varint v.value.length).length ≤ 2 + 1 :=
    Wire.length_varint_le (by unfold maxValueSize at hv; omega)
  have expires := CacheValue.lengthOf_le (v.expiresUnixMs ≠ 0)
    (Wire.varint v.expiresUnixMs.toNat)
  have ttl := CacheValue.lengthOf_le (v.ttlMs ≠ 0) (Wire.varint v.ttlMs.toNat)
  have ten : ∀ n : UInt64, (Wire.varint n.toNat).length ≤ 9 + 1 :=
    fun n => Wire.length_varint_le (n.toNat_lt.trans (by norm_num))
  have := ten v.expiresUnixMs
  have := ten v.ttlMs
  rw [lawful.length_serialize, nothing, CacheValue.knownLength]
  rw [List.length_append] at value
  omega

theorem snapshotMutation_loggable (lawful : codec.Lawful) {e : Entry Bytes Bytes}
    (h : (storing e).Modest) : Loggable (snapshotMutation codec e) := by
  obtain ⟨hk, hv⟩ := h
  unfold snapshotMutation
  split
  · refine ⟨Or.inr (Or.inr rfl), by simp, hk, ?_⟩
    have := length_serialize_le lawful
      (v := { value := e.value, expiresUnixMs := e.expires, unknown := codec.noUnknown }) rfl hv
    unfold maxWireValueSize
    simp only at this ⊢
    omega
  · exact ⟨Or.inl rfl, by simp, hk, hv.trans (by unfold maxWireValueSize; omega)⟩

/-! ## Requests -/

/-- A `SET_TTL` request that the decoding loop does not refuse is logged as a message within
the limit on values. -/
def TtlFits (codec : Codec) (cache : Cache) (now : Millis) (data : Bytes) : Prop :=
  ∀ m, (decodedInput codec cache now data).mutation = some m → m.command = .setTtl →
    m.value.length ≤ maxWireValueSize

/-- A request without unknown fields always fits. -/
theorem ttlFits_of_known (lawful : codec.Lawful) (cache : Cache) (now : Millis) {data : Bytes}
    (known : Command.ofByte (Message.decodeHeader data).command = .setTtl →
      ∀ item, codec.parse (valueField data) = some item → item.unknown = codec.noUnknown) :
    TtlFits codec cache now data := by
  intro m hm ttl
  have decoded := decodedInput_as codec cache now data
  generalize decodedInput codec cache now data = d at decoded hm
  cases decoded with
  | incomplete | rejected | read => cases hm
  | set | del =>
    cases hm
    cases ttl
  | setTtl key item total ht hk command parsed _ _ hv =>
    cases hm
    have := length_serialize_le lawful (v := datedItem item now) (known command item parsed) hv
    have value : (datedItem item now).value = item.value := rfl
    rw [value] at this
    unfold maxWireValueSize
    dsimp only
    omega

theorem DecodedAs.modest {cache : Cache} {now : Millis} {data : Bytes} {d : Decoded}
    (h : DecodedAs codec cache now data d) : ∀ op, d.op? = some op → op.Modest := by
  intro op hop
  rcases h.op_cases hop with ⟨key, value, expires, rfl, hk, hv, _⟩ | ⟨key, rfl⟩
  · exact ⟨hk, hv⟩
  · trivial

/-- Only the message of a `SET_TTL` request can be too long to be logged. -/
theorem DecodedAs.loggable_iff {cache : Cache} {now : Millis} {data : Bytes} {d : Decoded}
    (h : DecodedAs codec cache now data d) {m : Mutation} (hm : d.mutation = some m) :
    Loggable m ↔ (m.command = .setTtl → m.value.length ≤ maxWireValueSize) := by
  cases h with
  | incomplete | rejected | read => cases hm
  | set key value total ht hk hv =>
    cases hm
    refine iff_of_true ?_ (by simp)
    exact ⟨Or.inl rfl, by simp, hk, hv.trans (by unfold maxWireValueSize; omega)⟩
  | setTtl key item total ht hk =>
    cases hm
    exact ⟨fun h _ => h.2.2.2, fun fits => ⟨Or.inr (Or.inr rfl), by simp, hk, fits rfl⟩⟩
  | del key total ht hk =>
    cases hm
    refine iff_of_true ?_ (by simp)
    exact ⟨Or.inr (Or.inl rfl), fun _ => rfl, hk, Nat.zero_le _⟩

/-! ## Replies -/

/-- The message of a `LOOKUP` reply with this value is within the limit on values. -/
def LookupFits (codec : Codec) (value : Bytes) : Prop :=
  (codec.serialize (lookupValue codec (some value))).length ≤ maxWireValueSize

/-- What a request could have stored always fits. -/
theorem lookupFits_of_length_le (lawful : codec.Lawful) {value : Bytes}
    (short : value.length ≤ maxValueSize) : LookupFits codec value := by
  have := length_serialize_le lawful (v := lookupValue codec (some value)) rfl short
  unfold LookupFits maxWireValueSize
  simp only [lookupValue, Option.getD_some] at this ⊢
  omega

/-- A `LOOKUP` request that finds its key finds a value that fits into the reply. -/
def Decoded.LookupFits (codec : Codec) (now : Millis) (d : Decoded) (c : Cache) : Prop :=
  d.Accepted → d.request.command = .lookup →
    ∀ value, (c.get d.request.key now.value).1 = some value → Service.LookupFits codec value

/-- The condition on every request of a batch, each of them on the cache its predecessors
leave. -/
def LookupsFit (codec : Codec) (clock : Nat → Millis) : Nat → List Decoded → Cache → Prop
  | _, [], _ => True
  | i, d :: ds, c => d.LookupFits codec (clock i) c ∧
      LookupsFit codec clock (i + 1) ds (applyOne codec (clock i) none {} d c).2

variable {cache c : Cache}

/-- The cache does not depend on what the replies say. -/
theorem applyOne_cache (codec : Codec) (now : Millis) (metrics : Option TransportStats)
    (disk : AofStats) (d : Decoded) (c : Cache) :
    (applyOne codec now metrics disk d c).2 = (applyOne codec now none {} d c).2 := by
  obtain ⟨⟨command, key, value, expires⟩, reply, mutation⟩ := d
  unfold applyOne
  split
  · rfl
  · cases command with
    | set | setTtl | del | get | lookup => rfl
    | stats | unknown =>
      unfold execute
      dsimp only
      split <;> split <;> rfl

/-- Every entry stays as it was or comes from the request. -/
theorem applyOne_held {P : Op → Prop} (held : ∀ e, c.Holds e → P (storing e)) (now : Millis)
    (metrics : Option TransportStats) (disk : AofStats) {d : Decoded}
    (stored : ∀ op, d.op? = some op → P op) :
    ∀ e, (applyOne codec now metrics disk d c).2.Holds e → P (storing e) := by
  intro e he
  rcases applyOne_evolves codec now metrics disk d c with evolves | ⟨_, same⟩
  · rcases evolves.holds he with new | ⟨old, _⟩
    · exact stored _ new
    · exact held e old
  · exact held e (same ▸ he)

theorem layout_applyOne (now : Millis) (metrics : Option TransportStats) (disk : AofStats)
    (d : Decoded) : (applyOne codec now metrics disk d c).2.layout = c.layout := by
  rcases applyOne_evolves codec now metrics disk d c with evolves | ⟨_, same⟩
  · exact evolves.layout
  · rw [same]

/-- An accepted request is answered exactly if its response is within the limit. -/
theorem applyOne_ok_iff_encodable {now : Millis} {metrics : Option TransportStats}
    {disk : AofStats} {d : Decoded} (accepted : d.Accepted) (response : Bytes)
    (executed : (execute codec now metrics disk d.request c).1 = .ok response) :
    (∃ reply, (applyOne codec now metrics disk d c).1 = .ok reply) ↔
      Message.Encodable d.request.command d.request.key response := by
  unfold applyOne
  rw [if_neg (by rwa [Decoded.not_accepted_iff, not_not])]
  generalize execute codec now metrics disk d.request c = out at executed ⊢
  obtain ⟨r, c'⟩ := out
  dsimp only at executed
  subst executed
  dsimp only
  by_cases encodable : Message.Encodable d.request.command d.request.key response
  · rw [Message.encode_of_encodable encodable]
    exact iff_of_true ⟨_, rfl⟩ encodable
  · obtain ⟨e, refused⟩ := Message.encode_error_of_not_encodable encodable
    rw [refused]
    exact iff_of_false (by simp) encodable

/-- So a request other than `LOOKUP` is, if its response is short. -/
theorem applyOne_ok_iff_of_ne_lookup {now : Millis} {metrics : Option TransportStats}
    {disk : AofStats} {d : Decoded} (accepted : d.Accepted) (other : d.request.command ≠ .lookup)
    (response : Bytes) (executed : (execute codec now metrics disk d.request c).1 = .ok response)
    (encodable : Message.Encodable d.request.command d.request.key response) :
    (∃ reply, (applyOne codec now metrics disk d c).1 = .ok reply) ↔ d.LookupFits codec now c :=
  iff_of_true ((applyOne_ok_iff_encodable accepted response executed).mpr encodable)
    fun _ lookup => absurd lookup other

theorem length_get_le (held : ∀ e, c.Holds e → (storing e).Short) (key : Bytes) (now : Millis) :
    ((c.get key now.value).1.getD []).length ≤ maxWireValueSize := by
  cases found : (c.get key now.value).1 with
  | none => exact Nat.zero_le _
  | some value =>
    obtain ⟨e, he, _, rfl, _⟩ := ShardedCache.get_found found
    exact held e he

theorem length_lookup_le_iff (lawful : codec.Lawful) (found : Option Bytes) :
    (codec.serialize (lookupValue codec found)).length ≤ maxWireValueSize ↔
      ∀ value, found = some value → LookupFits codec value := by
  cases found with
  | none =>
    refine iff_of_true ?_ (by simp)
    have := length_serialize_le lawful (v := lookupValue codec none) rfl (Nat.zero_le _)
    unfold maxWireValueSize
    simp only [lookupValue, Option.getD_none, List.length_nil] at this ⊢
    omega
  | some value => simp [LookupFits]

/-- Once it is logged, a request can only fail as a `LOOKUP` of a value that is too long. -/
theorem applyOne_ok_iff (lawful : codec.Lawful) (layout : c.layout = cache.layout)
    (held : ∀ e, c.Holds e → (storing e).Short) {now : Millis} {data : Bytes}
    {d : Decoded} (h : DecodedAs codec cache now data d) (now' : Millis)
    (metrics : Option TransportStats) (disk : AofStats) :
    (∃ reply, (applyOne codec now' metrics disk d c).1 = .ok reply) ↔
      d.LookupFits codec now' c := by
  have wire : maxWireValueSize = 1048640 := rfl
  have stored : ∀ {key value : Bytes} (expires : UInt64), cache.CanStore key value →
      ∃ c', c.put key value expires now'.value = .ok c' := by
    intro key value expires hs
    obtain ⟨c', hc', _⟩ := c.put_ok expires now'.value
      ((ShardedCache.canStore_congr layout key value).mpr hs)
    exact ⟨c', hc'⟩
  cases h with
  | incomplete | rejected =>
    exact iff_of_true ⟨_, rfl⟩ (by simp [Decoded.LookupFits, Decoded.Accepted])
  | set key value total ht hk hv hs =>
    obtain ⟨c', hc'⟩ := stored 0 hs
    exact applyOne_ok_iff_of_ne_lookup ⟨ht.ne', rfl⟩ (by simp) [] (by simp [execute, hc'])
      ⟨by simp, hk, Nat.zero_le _⟩
  | setTtl key item total ht hk _ _ _ _ hv hs =>
    obtain ⟨c', hc'⟩ := stored (now.value + item.ttlMs) hs
    exact applyOne_ok_iff_of_ne_lookup ⟨ht.ne', rfl⟩ (by simp) [] (by simp [execute, hc'])
      ⟨by simp, hk, Nat.zero_le _⟩
  | del key total ht hk =>
    exact applyOne_ok_iff_of_ne_lookup ⟨ht.ne', rfl⟩ (by simp) _ rfl
      ⟨by simp, hk, Nat.zero_le _⟩
  | read command key total ht hc hk =>
    have accepted : Decoded.Accepted
      { request := { command := command, key := key }, reply := { consumed := total } } :=
        ⟨ht.ne', rfl⟩
    rcases hc with rfl | rfl | rfl
    · exact applyOne_ok_iff_of_ne_lookup accepted (by simp) _ rfl
        ⟨by simp, hk, length_get_le held key now'⟩
    · rw [applyOne_ok_iff_encodable accepted _ rfl, Decoded.LookupFits, imp_iff_right accepted,
        imp_iff_right rfl, ← length_lookup_le_iff lawful]
      exact ⟨fun encodable => encodable.2.2, fun fits => ⟨by simp, hk, fits⟩⟩
    · refine applyOne_ok_iff_of_ne_lookup accepted (by simp) _ rfl ⟨by simp, hk, ?_⟩
      have own := length_statsText_le c.getStats disk
      have transport : (metrics.elim [] metricsText).length ≤ 400 := by
        cases metrics with
        | none => exact Nat.zero_le _
        | some s => exact length_metricsText_le s
      rw [List.length_append]
      omega

theorem applyAll_cons_ok_iff {clock : Nat → Millis} {metrics : Option TransportStats}
    {disk : AofStats} {i : Nat} {d : Decoded} {ds : List Decoded} :
    (∃ replies, (applyAll codec clock metrics disk i (d :: ds) c).1 = .ok replies) ↔
      (∃ reply, (applyOne codec (clock i) metrics disk d c).1 = .ok reply) ∧
        ∃ replies, (applyAll codec clock metrics disk (i + 1) ds
          (applyOne codec (clock i) metrics disk d c).2).1 = .ok replies := by
  rw [applyAll]
  generalize applyOne codec (clock i) metrics disk d c = out
  obtain ⟨_ | reply, c'⟩ := out
  · simp
  · dsimp only
    generalize applyAll codec clock metrics disk (i + 1) ds c' = rest
    obtain ⟨_ | replies, c''⟩ := rest <;> simp

/-- Once it is logged, a batch is answered exactly if all its `LOOKUP` replies fit. -/
theorem applyAll_ok_iff (lawful : codec.Lawful) (layout : c.layout = cache.layout)
    (held : ∀ e, c.Holds e → (storing e).Short) {decodeClock : Nat → Millis}
    {j : Nat} {inputs : List Bytes} {ds : List Decoded}
    (h : DecodedFrom codec cache decodeClock j inputs ds) (clock : Nat → Millis)
    (metrics : Option TransportStats) (disk : AofStats) (i : Nat) :
    (∃ replies, (applyAll codec clock metrics disk i ds c).1 = .ok replies) ↔
      LookupsFit codec clock i ds c := by
  induction h generalizing i c with
  | nil => exact iff_of_true ⟨[], rfl⟩ trivial
  | @cons _ _ _ d ds head _ ih =>
    rw [applyAll_cons_ok_iff, applyOne_ok_iff lawful layout held head, LookupsFit,
      applyOne_cache codec (clock i) metrics disk]
    have stored : ∀ op, d.op? = some op → op.Short := fun op hop => (head.modest op hop).short
    exact and_congr_right' (ih ((layout_applyOne _ _ _ d).trans layout)
      (applyOne_held held _ _ _ stored) (i + 1))

/-- What requests could have stored can be looked up. -/
theorem lookupsFit_of_modest (lawful : codec.Lawful)
    (held : ∀ e, c.Holds e → (storing e).Modest) {decodeClock : Nat → Millis}
    {j : Nat} {inputs : List Bytes} {ds : List Decoded}
    (h : DecodedFrom codec cache decodeClock j inputs ds) (clock : Nat → Millis) (i : Nat) :
    LookupsFit codec clock i ds c := by
  induction h generalizing i c with
  | nil => trivial
  | @cons _ _ _ d ds head _ ih =>
    refine ⟨fun _ _ value found => ?_, ih (applyOne_held held _ _ _ head.modest) (i + 1)⟩
    obtain ⟨e, he, _, rfl, _⟩ := ShardedCache.get_found found
    exact lookupFits_of_length_le lawful (held e he).2

/-! ## Runs -/

/-- The condition on every input of a batch. -/
def Action.TtlFits (codec : Codec) (s : CacheService) : Action → Prop
  | .batch env inputs _ => ∀ i data, inputs[i]? = some data →
      Service.TtlFits codec s.cache (env.decodeClock i) data
  | _ => True

/-- The batch was answered or rejected for lack of space. -/
def Action.Served : Action → Prop
  | .batch _ _ r => (∃ replies, r = .ok replies) ∨ ∃ what, r = .throw (aofCapacityError what)
  | _ => True

theorem decodedBatch_modest (cache : Cache) (env : Env) (inputs : List Bytes) :
    ∀ op ∈ batchOps (decodedBatch codec cache env inputs), op.Modest := by
  intro op hop
  rcases mem_batchOps hop with ⟨key, value, expires, rfl, hk, hv, _⟩ | ⟨key, rfl⟩
  · exact ⟨hk, hv⟩
  · trivial

theorem mem_mutations_decodedBatch {cache : Cache} {env : Env} {inputs : List Bytes}
    {m : Mutation} :
    m ∈ mutations (decodedBatch codec cache env inputs) ↔
      ∃ i data, inputs[i]? = some data ∧
        (decodedInput codec cache (env.decodeClock i) data).mutation = some m := by
  rw [decodedBatch_eq_mapIdx, mutations, List.mem_filterMap]
  constructor
  · rintro ⟨d, hd, hm⟩
    obtain ⟨i, hi, rfl⟩ := List.mem_mapIdx.mp hd
    exact ⟨i, inputs[i], List.getElem?_eq_getElem hi, hm⟩
  · rintro ⟨i, data, hdata, hm⟩
    obtain ⟨hi, rfl⟩ := List.getElem?_eq_some_iff.mp hdata
    exact ⟨_, List.mem_mapIdx.mpr ⟨i, hi, rfl⟩, hm⟩

/-- The batch can be logged exactly if all its `SET_TTL` requests fit. -/
theorem decodedBatch_loggable_iff {cache : Cache} {env : Env} {inputs : List Bytes} :
    (∀ m ∈ mutations (decodedBatch codec cache env inputs), Loggable m) ↔
      ∀ i data, inputs[i]? = some data → TtlFits codec cache (env.decodeClock i) data := by
  constructor
  · intro loggable i data hi m hm
    refine ((decodedInput_as codec cache _ data).loggable_iff hm).mp (loggable m ?_)
    exact mem_mutations_decodedBatch.mpr ⟨i, data, hi, hm⟩
  · intro fits m hm
    obtain ⟨i, data, hi, hm⟩ := mem_mutations_decodedBatch.mp hm
    exact ((decodedInput_as codec cache _ data).loggable_iff hm).mpr (fits i data hi m hm)

theorem snapshotMutations_loggable (lawful : codec.Lawful)
    (held : ∀ e, c.Holds e → (storing e).Modest) (clock : Nat → Nat → Millis) :
    ∀ m ∈ snapshotMutations codec c clock, Loggable m := by
  intro m hm
  obtain ⟨e, he, rfl⟩ := List.mem_map.mp hm
  exact snapshotMutation_loggable lawful (held e (ShardedCache.holds_of_mem_snapshot he))

/-- A logged batch is also answered. -/
theorem applied_ok (lawful : codec.Lawful) (held : ∀ e, c.Holds e → (storing e).Modest)
    (env : Env) (disk : AofStats) (inputs : List Bytes) :
    ∃ replies, (applied codec env disk (decodedBatch codec c env inputs) c).1 = .ok replies := by
  have decoded : DecodedFrom codec c env.decodeClock 0 inputs (decodedBatch codec c env inputs) :=
    decodedBatch_from c env inputs
  exact (applyAll_ok_iff lawful rfl (fun e he => (held e he).short) decoded _ _ _ _).mpr
    (lookupsFit_of_modest lawful held decoded _ _)

theorem BatchOutcome.served (lawful : codec.Lawful) {s s' : CacheService} {env : Env}
    {inputs : List Bytes} {r : Res Exception (List Reply)}
    (outcome : BatchOutcome codec s env inputs r s') (modest : Throughout codec Op.Modest s)
    (alive : s.failed = false) (fits : (Action.batch env inputs r).TtlFits codec s) :
    (Action.batch env inputs r).Served ∧ s'.failed = false := by
  cases outcome with
  | unavailable failed =>
    rw [alive] at failed
    cases failed
  | refused _ e he =>
    rw [size_of_loggable (decodedBatch_loggable_iff.mpr fits),
      size_of_loggable (snapshotMutations_loggable lawful modest.held _)] at he
    rcases he with he | he <;> cases he
  | rejected _ _ what => exact ⟨Or.inr ⟨what, rfl⟩, alive⟩
  | @done _ _ _ _ aof _ r cache happlied =>
    obtain ⟨replies, ok⟩ := applied_ok lawful modest.held env aof.stats inputs
    rw [happlied] at ok
    dsimp only at ok
    subst ok
    exact ⟨Or.inl ⟨replies, rfl⟩, alive⟩

/-- A batch that is answered or rejected for lack of space meets the condition. -/
theorem Step.ttlFits {s s' : CacheService} {a : Action} (step : Step codec cfg .faultless s a s')
    (healthy : Healthy cfg s) (alive : s.failed = false) (served : a.Served) :
    a.TtlFits codec s := by
  cases step with
  | batch env inputs o ho =>
    by_contra unfit
    obtain ⟨e, he⟩ := size_error_of_not_loggable fun loggable =>
      unfit (decodedBatch_loggable_iff.mp loggable)
    have thrown := (handleBatch_of_size_error healthy.ready.live alive env inputs ho he).1
    rw [thrown] at served
    rcases served with ⟨_, ok⟩ | ⟨what, full⟩
    · cases ok
    · cases full
      exact size_error_cls he rfl
  | compact | restart => trivial

/-- A service that has served every batch so far. -/
structure Available (codec : Codec) (cfg : Config) (s : CacheService) : Prop
    extends Healthy cfg s where
  modest : Throughout codec Op.Modest s
  alive : s.failed = false

theorem Created.available {clock : Nat → Millis} {fs : Fs} {trace : List Event} {s : CacheService}
    (start : Created codec cfg clock fs trace s) (empty : (fs.named cfg.path).getD [] = []) :
    Available codec cfg s := by
  refine ⟨start.healthy.1, start.throughout ?_, start.alive⟩
  rw [empty, logged_nil]
  simp [logOps]

/-- One step meets the condition exactly if it is served, and then the service stays
available. -/
theorem Step.available (lawful : codec.Lawful) {s s' : CacheService} {a : Action}
    (step : Step codec cfg .faultless s a s') (h : Available codec cfg s) :
    (a.Served ↔ a.TtlFits codec s) ∧ (a.TtlFits codec s → Available codec cfg s') := by
  have throughout := step.throughout lawful h.toHealthy h.modest
    fun env inputs r _ => decodedBatch_modest s.cache env inputs
  obtain ⟨healthy, ends⟩ := step.faultless h.toHealthy
  have next : a.TtlFits codec s → a.Served ∧ s'.failed = false := by
    intro fits
    rcases ends with ⟨env, inputs, r, rfl, outcome⟩ | ⟨clock, r, rfl, _, failed, _⟩ |
      ⟨clock, c, rfl, failed, _⟩
    · exact outcome.served lawful h.modest h.alive fits
    · exact ⟨trivial, failed.trans h.alive⟩
    · exact ⟨trivial, failed⟩
  exact ⟨⟨step.ttlFits h.toHealthy h.alive, fun fits => (next fits).1⟩,
    fun fits => ⟨healthy, throughout, (next fits).2⟩⟩

/-- **Availability.** From an empty log and without I/O failures, a service answers every batch
or rejects it for lack of space exactly if all `SET_TTL` requests it accepts leave room for
their expiry, and then it never marks itself failed. -/
theorem never_fails (lawful : codec.Lawful) {fs : Fs} (hb : fs.Bound cfg.path)
    (empty : (fs.named cfg.path).getD [] = []) {clock : Nat → Millis} {o : Oracle}
    {s₀ : CacheService} (created : (create codec cfg clock fs [] o).1 = .ok s₀)
    {trace : List (CacheService × Action)} {s : CacheService}
    (run : Calls codec cfg .faultless s₀ trace s) :
    ((∀ e ∈ trace, e.2.Served) ↔ ∀ e ∈ trace, e.2.TtlFits codec e.1) ∧
      ((∀ e ∈ trace, e.2.TtlFits codec e.1) → s.failed = false) := by
  have start := (created_of_create hb created).1.available empty
  have served : (∀ e ∈ trace, e.2.TtlFits codec e.1) →
      Available codec cfg s ∧ ∀ e ∈ trace, e.2.Served := by
    refine run.invariant (fun trace s => Available codec cfg s ∧ ∀ e ∈ trace, e.2.Served)
      (fun s a => a.TtlFits codec s) ⟨start, by simp⟩ ?_
    rintro trace s a s' ⟨h, served⟩ fits step
    obtain ⟨exactly, next⟩ := step.available lawful h
    exact ⟨next fits, List.forall_mem_append.mpr
      ⟨served, List.forall_mem_singleton.mpr (exactly.mpr fits)⟩⟩
  have fits : (∀ e ∈ trace, e.2.Served) →
      Available codec cfg s ∧ ∀ e ∈ trace, e.2.TtlFits codec e.1 := by
    refine run.invariant
      (fun trace s => Available codec cfg s ∧ ∀ e ∈ trace, e.2.TtlFits codec e.1)
      (fun _ a => a.Served) ⟨start, by simp⟩ ?_
    rintro trace s a s' ⟨h, fits⟩ served step
    obtain ⟨exactly, next⟩ := step.available lawful h
    exact ⟨next (exactly.mp served), List.forall_mem_append.mpr
      ⟨fits, List.forall_mem_singleton.mpr (exactly.mp served)⟩⟩
  exact ⟨⟨fun h => (fits h).2, fun h => (served h).2⟩, fun h => (served h).1.alive⟩

/-- A message with a value and a relative expiry of one minute. -/
def minute : wireCodec.Value := { value := [3], ttlMs := 60000, unknown := wireCodec.noUnknown }

def minuteRequest : Bytes := Message.frame .setTtl [1] (wireCodec.serialize minute)

theorem never_fails_set_ttl : ∃ s₀ r s,
    (create wireCodec small frozen.applyClock AofLogger.emptyFs [] .reliable).1 = .ok s₀ ∧
      Calls wireCodec small .faultless s₀
        [(s₀, .batch frozen [Message.frame .set [1] [2], minuteRequest] r)] s ∧
      s.failed = false ∧
      (Action.batch frozen [Message.frame .set [1] [2], minuteRequest] r).Served := by
  obtain ⟨c, hc, _⟩ := small_cache
  have hb := AofLogger.emptyFs_bound small.path
  obtain ⟨s₀, created, _⟩ := create_on_empty wireCodec hb rfl frozen.applyClock
    (o := .reliable) trivial hc
  have run : Calls wireCodec small .faultless s₀ [_] _ :=
    .snoc .nil (by simp)
      (.batch frozen [Message.frame .set [1] [2], minuteRequest] .reliable trivial)
  have field : valueField minuteRequest = wireCodec.serialize minute := by decide +kernel
  have fits : ∀ r, (Action.batch frozen [Message.frame .set [1] [2], minuteRequest] r).TtlFits
      wireCodec s₀ := by
    intro r i data hd
    refine ttlFits_of_known wireCodec_lawful _ _ fun command item parsed => ?_
    have sent : data = Message.frame .set [1] [2] ∨ data = minuteRequest := by
      simpa using List.mem_of_getElem? hd
    rcases sent with rfl | rfl
    · exact absurd command (by decide)
    · rw [field, wireCodec_lawful.parse_serialize minute (by decide +kernel)] at parsed
      cases parsed
      rfl
  obtain ⟨served, alive⟩ := never_fails wireCodec_lawful hb rfl created run
  rw [List.forall_mem_singleton, List.forall_mem_singleton] at served
  rw [List.forall_mem_singleton] at alive
  exact ⟨s₀, _, _, created, run, alive (fits _), served.mpr (fits _)⟩

/-! ## Without the proviso -/

/-- A `SET_TTL` message that is mostly a field the schema does not know. -/
def padded (pad : Bytes) (h : pad.length < 2 ^ 64) : wireCodec.Value where
  ttlMs := 1
  unknown := ⟨[⟨15, .bytes pad⟩], by
    intro f hf
    rw [List.mem_singleton.mp hf]
    exact ⟨⟨Nat.succ_pos 14, show 15 < 2 ^ 29 by norm_num, h⟩, id⟩⟩

theorem length_unknown {pad : Bytes} (h : pad.length < 2 ^ 64) :
    (wireCodec.serialize (wireCodec.onlyUnknown (padded pad h).unknown)).length =
      1 + (Wire.varint pad.length).length + pad.length := by
  have tag : (Wire.varint 122).length = 1 := by rw [Wire.varint_of_lt (by norm_num)]; rfl
  simp [wireCodec, Codec.onlyUnknown, CacheValue.fields, padded, Wire.encodeFields,
    Wire.Field.encode, Wire.Payload.encode, Wire.Payload.wireType, tag]
  omega

/-- The request is as long as a request may be, and the record made of it is longer. -/
theorem length_padded {pad : Bytes} (h : pad.length < 2 ^ 64)
    (hp : pad.length = maxWireValueSize - 6) :
    (wireCodec.serialize (padded pad h)).length ≤ maxWireValueSize ∧
      maxWireValueSize <
        (wireCodec.serialize (datedItem (padded pad h) (frozen.decodeClock 0))).length := by
  have wire : maxWireValueSize = 1048640 := rfl
  have unknown := length_unknown h
  have three : (Wire.varint pad.length).length = 3 := by
    rw [hp, wire, Wire.varint_of_ge (by norm_num), Wire.varint_of_ge (by norm_num),
      Wire.varint_of_lt (by norm_num)]
    rfl
  have one : (Wire.varint 1).length = 1 := by rw [Wire.varint_of_lt (by norm_num)]; rfl
  have long : 2 ≤ (Wire.varint 1700000000001).length := by
    rw [Wire.varint_of_ge (by norm_num), List.length_cons]
    exact Nat.succ_le_succ (Wire.length_varint_pos _)
  constructor
  · have known : (padded pad h).knownLength = 2 := by
      simp [CacheValue.knownLength, CacheValue.lengthOf, padded, one]
    rw [wireCodec_lawful.length_serialize, known, unknown]
    omega
  · have known : (datedItem (padded pad h) (frozen.decodeClock 0)).knownLength =
        1 + (Wire.varint 1700000000001).length := by
      simp [CacheValue.knownLength, CacheValue.lengthOf, padded, datedItem, frozen]
    have same : (datedItem (padded pad h) (frozen.decodeClock 0)).unknown =
      (padded pad h).unknown := rfl
    rw [wireCodec_lawful.length_serialize, known, same, unknown]
    omega

/-- No service can log such a request. -/
theorem padded_unencodable (pad : Bytes) (h : pad.length < 2 ^ 64)
    (hp : pad.length = maxWireValueSize - 6) (hs : c.CanStore [] []) :
    ∃ e, size (mutations (decodedBatch wireCodec c frozen
      [Message.frame .setTtl [] (wireCodec.serialize (padded pad h))])) = .error e := by
  obtain ⟨short, long⟩ := length_padded h hp
  have wire : maxWireValueSize = 1048640 := rfl
  have parsed := wireCodec_lawful.parse_serialize (padded pad h) (by omega)
  have decoded : decodedBatch wireCodec c frozen
      [Message.frame .setTtl [] (wireCodec.serialize (padded pad h))] = [{
        request := ⟨.setTtl, [], [], 1700000000001⟩
        reply := { consumed := headerSize + 0 + (wireCodec.serialize (padded pad h)).length }
        mutation := some ⟨.setTtl, [],
          wireCodec.serialize (datedItem (padded pad h) (frozen.decodeClock 0))⟩ }] := by
    have body : decodeBody wireCodec c (frozen.decodeClock 0)
        ⟨.setTtl, [], wireCodec.serialize (padded pad h), 0⟩ =
        .ok (⟨.setTtl, [], [], 1700000000001⟩, some ⟨.setTtl, [],
          wireCodec.serialize (datedItem (padded pad h) (frozen.decodeClock 0))⟩) := by
      simp only [decodeBody, decodeSetTtl, parsed]
      have ttl : ¬ ((padded pad h).ttlMs = 0 ∨ (padded pad h).ttlMs > maxTtlMs) :=
        show ¬ ((1 : UInt64) = 0 ∨ (1 : UInt64) > maxTtlMs) by decide
      rw [if_neg ttl, if_neg (by simp [padded, hs])]
      rfl
    have frame := decodeFrame_frame wireCodec c (frozen.decodeClock 0) .setTtl []
      (wireCodec.serialize (padded pad h))
      ⟨by simp, Nat.zero_le _, short⟩ (Or.inr (Or.inl rfl)) (by simp)
    rw [decodedBatch, decodeAll, decodeInput, frame, body]
    rfl
  rw [decoded]
  refine size_error_of_not_loggable fun loggable => ?_
  have := (loggable _ (List.mem_singleton_self _)).2.2.2
  simp only at this
  omega

/-- A request of 1048652 octets with an empty key and an empty value. -/
def paddedRequest : Bytes :=
  Message.frame .setTtl [] (wireCodec.serialize (padded (List.replicate (maxWireValueSize - 6) 0)
    (by rw [List.length_replicate]; decide)))

/-- Wherever it could be stored, it disables the service instead. -/
theorem paddedRequest_disables {s : CacheService} (live : s.aof.Live) (alive : s.failed = false)
    (hs : s.cache.CanStore [] []) :
    ∃ e, Step wireCodec cfg .faultless s (.batch frozen [paddedRequest] (.throw e))
      { s with failed := true } ∧ e.cls ≠ .aofCapacityError := by
  obtain ⟨e, he⟩ := padded_unencodable (List.replicate (maxWireValueSize - 6) 0)
    (by rw [List.length_replicate]; decide) List.length_replicate hs
  have reliable : Oracle.reliable.In .faultless := trivial
  have step : Step wireCodec cfg .faultless s _ _ :=
    .batch frozen [paddedRequest] .reliable reliable
  have poisoned := handleBatch_of_size_error live alive frozen [paddedRequest] reliable he
  rw [poisoned.1, poisoned.2] at step
  exact ⟨e, step, size_error_cls he⟩

/-- Without the condition the service can be disabled by a single request. -/
theorem padded_ttl_disables : ∃ s₀ e s,
    (create wireCodec small frozen.applyClock AofLogger.emptyFs [] .reliable).1 = .ok s₀ ∧
      Calls wireCodec small .faultless s₀ [(s₀, .batch frozen [paddedRequest] (.throw e))] s ∧
      e.cls ≠ .aofCapacityError ∧ s.failed = true := by
  obtain ⟨c, hc, hs⟩ := small_cache
  have hb := AofLogger.emptyFs_bound small.path
  obtain ⟨s₀, created, rfl⟩ := create_on_empty wireCodec hb rfl frozen.applyClock
    (o := .reliable) trivial hc
  have start := (created_of_create hb created).1
  obtain ⟨e, step, he⟩ := paddedRequest_disables start.ready.live start.alive hs
  exact ⟨s₀, e, _, created, .snoc .nil (by simp) step, he, rfl⟩

end KVRPC.Service
