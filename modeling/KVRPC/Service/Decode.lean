import KVRPC.Service.CacheService
import KVRPC.Storage.Contents

/-!
# What decoding leaves behind

`DecodedAs` lists the outcomes of one round of the decoding loop: an incomplete frame, a
rejected one, or a request within the limits together with the mutation to log. The loop
itself never throws.
-/
namespace KVRPC.Service

open Library Aof Storage

variable {codec : Codec}

/-- The value field of a frame. -/
def valueField (data : Bytes) : Bytes :=
  (data.drop (headerSize + (Message.decodeHeader data).keyLen)).take
    (Message.decodeHeader data).valueLen

/-- The message that is logged for a `SET_TTL` request. -/
def datedItem (item : codec.Value) (now : Millis) : codec.Value :=
  { item with ttlMs := 0, expiresUnixMs := now.value + item.ttlMs }

inductive DecodedAs (codec : Codec) (cache : Cache) (now : Millis) (data : Bytes) :
    Decoded → Prop where
  | incomplete : DecodedAs codec cache now data {}
  | rejected : DecodedAs codec cache now data { reply := { close := true } }
  | read (command : Command) (key : Bytes) (total : Nat) (ht : 0 < total)
      (hc : command = .get ∨ command = .lookup ∨ command = .stats)
      (hk : key.length ≤ maxKeySize) :
      DecodedAs codec cache now data {
        request := { command := command, key := key }, reply := { consumed := total } }
  | set (key value : Bytes) (total : Nat) (ht : 0 < total) (hk : key.length ≤ maxKeySize)
      (hv : value.length ≤ maxValueSize) (hs : cache.CanStore key value) :
      DecodedAs codec cache now data {
        request := { command := .set, key := key, value := value }
        reply := { consumed := total }
        mutation := some ⟨.set, key, value⟩ }
  | setTtl (key : Bytes) (item : codec.Value) (total : Nat) (ht : 0 < total)
      (hk : key.length ≤ maxKeySize)
      (command : Command.ofByte (Message.decodeHeader data).command = .setTtl)
      (parsed : codec.parse (valueField data) = some item) (positive : item.ttlMs ≠ 0)
      (bounded : item.ttlMs ≤ maxTtlMs) (hv : item.value.length ≤ maxValueSize)
      (hs : cache.CanStore key item.value) :
      DecodedAs codec cache now data {
        request := {
          command := .setTtl, key := key, value := item.value, expires := now.value + item.ttlMs }
        reply := { consumed := total }
        mutation := some ⟨.setTtl, key, codec.serialize (datedItem item now)⟩ }
  | del (key : Bytes) (total : Nat) (ht : 0 < total) (hk : key.length ≤ maxKeySize) :
      DecodedAs codec cache now data {
        request := { command := .del, key := key }
        reply := { consumed := total }
        mutation := some ⟨.del, key, []⟩ }

theorem decodeSetTtl_cases (codec : Codec) (cache : Cache) (now : Millis) (request : Request) :
    (∃ what, decodeSetTtl codec cache now request = .error (runtimeError what)) ∨
      ∃ item, codec.parse request.value = some item ∧ item.ttlMs ≠ 0 ∧ item.ttlMs ≤ maxTtlMs ∧
        item.value.length ≤ maxValueSize ∧ cache.CanStore request.key item.value ∧
        decodeSetTtl codec cache now request = .ok
          ({ request with value := item.value, expires := now.value + item.ttlMs },
            ⟨.setTtl, request.key, codec.serialize (datedItem item now)⟩) := by
  unfold decodeSetTtl
  cases codec.parse request.value with
  | none => exact Or.inl ⟨_, rfl⟩
  | some item =>
    dsimp only
    split
    · exact Or.inl ⟨_, rfl⟩
    rename_i ttl
    split
    · exact Or.inl ⟨_, rfl⟩
    rename_i fits
    rw [not_or, gt_iff_lt, UInt64.not_lt] at ttl
    rw [not_or, gt_iff_lt, Nat.not_lt, not_not] at fits
    exact Or.inr ⟨item, rfl, ttl.1, ttl.2, fits.1, fits.2, rfl⟩

/-- The request in a complete frame. -/
def frameRequest (data : Bytes) : Request where
  command := Command.ofByte (Message.decodeHeader data).command
  key := (data.drop headerSize).take (Message.decodeHeader data).keyLen
  value := valueField data

theorem decodeBody_cases (codec : Codec) (cache : Cache) (now : Millis) {data : Bytes}
    (known : (frameRequest data).command ≠ .unknown)
    (bare : (frameRequest data).command ≠ .set → (frameRequest data).command ≠ .setTtl →
      valueField data = [])
    (hk : (frameRequest data).key.length ≤ maxKeySize) :
    (∃ what, decodeBody codec cache now (frameRequest data) = .error (runtimeError what)) ∨
      ∃ body, decodeBody codec cache now (frameRequest data) = .ok body ∧ ∀ total, 0 < total →
        DecodedAs codec cache now data {
          request := body.1, reply := { consumed := total }, mutation := body.2 } := by
  have command : (frameRequest data).command =
    Command.ofByte (Message.decodeHeader data).command := rfl
  have shown : frameRequest data =
    ⟨(frameRequest data).command, (frameRequest data).key, valueField data, 0⟩ := rfl
  generalize (frameRequest data).command = c at command known bare shown
  generalize (frameRequest data).key = key at hk shown
  rw [shown]
  unfold decodeBody
  cases c with
  | unknown => exact absurd rfl known
  | set =>
    dsimp only
    split
    · exact Or.inl ⟨_, rfl⟩
    · rename_i fits
      rw [not_or, gt_iff_lt, Nat.not_lt, not_not] at fits
      exact Or.inr ⟨_, rfl, fun total ht => .set key _ total ht hk fits.1 fits.2⟩
  | setTtl =>
    rcases decodeSetTtl_cases codec cache now ⟨.setTtl, key, valueField data, 0⟩ with
      ⟨what, h⟩ | ⟨item, parsed, positive, bounded, hv, hs, h⟩
    · exact Or.inl ⟨what, by simp only [h]; rfl⟩
    · refine Or.inr ⟨_, by simp only [h]; rfl, fun total ht => ?_⟩
      exact .setTtl key item total ht hk command.symm parsed positive bounded hv hs
  | del =>
    rw [bare (by decide) (by decide)]
    exact Or.inr ⟨_, rfl, fun total ht => .del key total ht hk⟩
  | get | lookup | stats =>
    rw [bare (by decide) (by decide)]
    exact Or.inr ⟨_, rfl, fun total ht => .read _ key total ht (by decide) hk⟩

theorem decodeFrame_cases (codec : Codec) (cache : Cache) (now : Millis) (data : Bytes) :
    (∃ what, decodeFrame codec cache now data = .error (runtimeError what)) ∨
      ∃ d, decodeFrame codec cache now data = .ok d ∧ DecodedAs codec cache now data d := by
  unfold decodeFrame
  split
  · exact Or.inr ⟨_, rfl, .incomplete⟩
  by_cases bad : Message.Malformed (Message.decodeHeader data)
  · exact Or.inl ⟨_, by simp only [Message.validate_of_malformed bad]; rfl⟩
  obtain ⟨_, _, low, high, hk, _⟩ := (Message.not_malformed_iff _).mp bad
  simp only [(Message.validate_ok_iff _).mpr bad, bind, Except.bind]
  split
  · exact Or.inl ⟨_, rfl⟩
  rename_i body
  split
  · exact Or.inr ⟨_, rfl, .incomplete⟩
  have known : Command.ofByte (Message.decodeHeader data).command ≠ .unknown := by
    intro h
    have octet := Command.toByte_ofByte low high
    rw [h] at octet
    exact low (octet ▸ by decide)
  have bare : (frameRequest data).command ≠ .set → (frameRequest data).command ≠ .setTtl →
      valueField data = [] := by
    intro h₁ h₂
    have empty : (Message.decodeHeader data).valueLen = 0 := by
      by_contra hne
      exact body (Or.inl ⟨h₁, h₂, hne⟩)
    simp [valueField, empty]
  generalize hb : decodeBody codec cache now _ = result
  rcases decodeBody_cases codec cache now known bare ((List.length_take_le _ _).trans hk) with
    ⟨what, h⟩ | ⟨found, h, decoded⟩
  · cases hb.symm.trans h
    exact Or.inl ⟨what, rfl⟩
  · cases hb.symm.trans h
    refine Or.inr ⟨_, rfl, decoded _ ?_⟩
    unfold headerSize
    omega

/-- A complete request reaches `decodeBody` as it was sent. -/
theorem decodeFrame_frame (codec : Codec) (cache : Cache) (now : Millis) (command : Command)
    (key value : Bytes) (h : Message.Encodable command key value)
    (body : command = .set ∨ command = .setTtl ∨ value = [])
    (bare : command = .stats → key = []) :
    decodeFrame codec cache now (Message.frame command key value) = (do
      let found ← decodeBody codec cache now { command := command, key := key, value := value }
      return {
        request := found.1
        reply := { consumed := headerSize + key.length + value.length }
        mutation := found.2 }) := by
  have header := h.decodeHeader
  obtain ⟨hc, hk, hv⟩ := h
  have valid := (Message.validate_ok_iff _).mpr (Message.not_malformed_header hc hk hv)
  unfold decodeFrame
  rw [if_neg (by rw [Message.length_frame]; omega)]
  simp only [header, valid, bind, Except.bind, Command.ofByte_toByte, Message.frame_key,
    Message.frame_value]
  rw [if_neg, if_neg (by rw [Message.length_frame]; omega)]
  · rcases body with rfl | rfl | rfl
    · simp
    · simp
    · rintro (⟨_, _, long⟩ | ⟨stats, long⟩)
      · exact long rfl
      · rw [bare stats] at long
        exact long rfl

/-- The handler of the loop catches whatever the body throws. -/
theorem decodeInput_cases (codec : Codec) (cache : Cache) (now : Millis) (data : Bytes) :
    ∃ d, decodeInput codec cache now data = .ok d ∧ DecodedAs codec cache now data d := by
  unfold decodeInput
  rcases decodeFrame_cases codec cache now data with ⟨what, h⟩ | ⟨d, h, decoded⟩
  · exact ⟨_, by rw [h]; rfl, .rejected⟩
  · exact ⟨d, by rw [h], decoded⟩

/-! ## The loop -/

/-- The decoded inputs, where `clock i` is the reading at input number `i`. -/
inductive DecodedFrom (codec : Codec) (cache : Cache) (clock : Nat → Millis) :
    Nat → List Bytes → List Decoded → Prop where
  | nil (i : Nat) : DecodedFrom codec cache clock i [] []
  | cons {i : Nat} {data : Bytes} {inputs : List Bytes} {d : Decoded} {ds : List Decoded}
      (head : DecodedAs codec cache (clock i) data d)
      (tail : DecodedFrom codec cache clock (i + 1) inputs ds) :
      DecodedFrom codec cache clock i (data :: inputs) (d :: ds)

theorem decodeAll_cases (codec : Codec) (cache : Cache) (clock : Nat → Millis) (i : Nat)
    (inputs : List Bytes) :
    ∃ ds, decodeAll codec cache clock i inputs = .ok ds ∧
      DecodedFrom codec cache clock i inputs ds := by
  induction inputs generalizing i with
  | nil => exact ⟨[], rfl, .nil i⟩
  | cons data inputs ih =>
    obtain ⟨d, hd, head⟩ := decodeInput_cases codec cache (clock i) data
    obtain ⟨ds, hds, tail⟩ := ih (i + 1)
    exact ⟨d :: ds, by rw [decodeAll, hd, hds]; rfl, .cons head tail⟩

theorem DecodedFrom.each {cache : Cache} {clock : Nat → Millis} {i : Nat} {inputs : List Bytes}
    {ds : List Decoded} (h : DecodedFrom codec cache clock i inputs ds) {d : Decoded}
    (hd : d ∈ ds) :
    ∃ j data, inputs[j]? = some data ∧ DecodedAs codec cache (clock (i + j)) data d := by
  induction h with
  | nil => simp at hd
  | @cons i data _ _ _ head _ ih =>
    rcases List.mem_cons.mp hd with rfl | hd
    · exact ⟨0, data, rfl, head⟩
    · obtain ⟨j, data', hj, decoded⟩ := ih hd
      refine ⟨j + 1, data', hj, ?_⟩
      rwa [show i + (j + 1) = i + 1 + j by omega]

/-- What `HandleBatch` makes of its inputs. -/
def decodedBatch (codec : Codec) (cache : Cache) (env : Env) (inputs : List Bytes) : List Decoded :=
  match decodeAll codec cache env.decodeClock 0 inputs with
  | .ok ds => ds
  | .error _ => []

theorem decodeAll_eq (cache : Cache) (env : Env) (inputs : List Bytes) :
    decodeAll codec cache env.decodeClock 0 inputs = .ok (decodedBatch codec cache env inputs) := by
  obtain ⟨ds, h, _⟩ := decodeAll_cases codec cache env.decodeClock 0 inputs
  rw [decodedBatch, h]

theorem decodedBatch_from (cache : Cache) (env : Env) (inputs : List Bytes) :
    DecodedFrom codec cache env.decodeClock 0 inputs (decodedBatch codec cache env inputs) := by
  obtain ⟨ds, h, decoded⟩ := decodeAll_cases codec cache env.decodeClock 0 inputs
  rwa [decodedBatch, h]

theorem mutations_cons (d : Decoded) (ds : List Decoded) :
    mutations (d :: ds) = mutations [d] ++ mutations ds := by
  rw [mutations, mutations, mutations, ← List.filterMap_append]
  rfl

/-! ## Decoding one input at a time -/

def decodedInput (codec : Codec) (cache : Cache) (now : Millis) (data : Bytes) : Decoded :=
  match decodeInput codec cache now data with
  | .ok d => d
  | .error _ => {}

theorem decodeInput_eq (codec : Codec) (cache : Cache) (now : Millis) (data : Bytes) :
    decodeInput codec cache now data = .ok (decodedInput codec cache now data) := by
  obtain ⟨d, h, _⟩ := decodeInput_cases codec cache now data
  rw [decodedInput, h]

theorem decodedInput_as (codec : Codec) (cache : Cache) (now : Millis) (data : Bytes) :
    DecodedAs codec cache now data (decodedInput codec cache now data) := by
  obtain ⟨d, h, decoded⟩ := decodeInput_cases codec cache now data
  rwa [decodedInput, h]

/-- Every reading of the clock is the same. -/
structure Env.Frozen (env : Env) (now : Millis) : Prop where
  decode : ∀ i, env.decodeClock i = now
  apply : ∀ i, env.applyClock i = now
  snapshot : ∀ i j, env.snapshotClock i j = now

theorem decodeAll_eq_mapIdx (cache : Cache) (clock : Nat → Millis) (i : Nat)
    (inputs : List Bytes) :
    decodeAll codec cache clock i inputs =
      .ok (inputs.mapIdx fun j data => decodedInput codec cache (clock (i + j)) data) := by
  induction inputs generalizing i with
  | nil => rfl
  | cons data inputs ih =>
    rw [decodeAll, decodeInput_eq, ih, List.mapIdx_cons]
    simp only [Nat.add_zero, Nat.add_assoc, Nat.add_comm 1]
    rfl

/-- Each input is decoded on its own. -/
theorem decodedBatch_eq_mapIdx (cache : Cache) (env : Env) (inputs : List Bytes) :
    decodedBatch codec cache env inputs =
      inputs.mapIdx fun j data => decodedInput codec cache (env.decodeClock j) data := by
  rw [decodedBatch, decodeAll_eq_mapIdx]
  simp only [Nat.zero_add]

theorem decodedBatch_frozen {cache : Cache} {env : Env} {now : Millis} (frozen : env.Frozen now)
    (inputs : List Bytes) :
    decodedBatch codec cache env inputs = inputs.map (decodedInput codec cache now) := by
  rw [decodedBatch_eq_mapIdx]
  refine List.ext_getElem? fun j => ?_
  simp only [frozen.decode, List.getElem?_mapIdx, List.getElem?_map]

/-- Decoding looks at the cache only to see what it could store. -/
theorem decodedInput_congr (codec : Codec) {c c' : Cache} (h : c.layout = c'.layout) (now : Millis)
    (data : Bytes) :
    decodedInput codec c now data = decodedInput codec c' now data := by
  have ttl : decodeSetTtl codec c = decodeSetTtl codec c' := by
    funext now request
    simp only [decodeSetTtl, ShardedCache.canStore_congr h]
  have body : decodeBody codec c = decodeBody codec c' := by
    funext now request
    simp only [decodeBody, ttl, ShardedCache.canStore_congr h]
  simp only [decodedInput, decodeInput, decodeFrame, body]

end KVRPC.Service
