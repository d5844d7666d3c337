import KVRPC.Library.Wire
import KVRPC.Protocol.RpcValue

/-!
# RPC messages

`wire::Envelope` of `rpc.proto` inside the frames of `rpc_protocol.h`. As with `CacheValue`, the
generated code is a parameter: an `RpcCodec`, with `RpcCodec.Lawful` for what is relied on.
`wireRpcCodec` reads and writes the wire format itself and is lawful.

A parsed message is never written again, so fields the schema does not know are left out.
-/
namespace KVRPC

open Library

/-- `Envelope::Type`. The enumeration is open: a message can hold any number. -/
inductive EnvelopeType where
  | request
  | response
  | unrecognized (n : UInt32) (h : 2 ≤ n)
  deriving DecidableEq

structure Envelope where
  type : EnvelopeType := .request
  method : Bytes := []
  arguments : List Value := []
  result : Option Value := none
  status : UInt32 := 0
  error : Bytes := []
  deriving DecidableEq

/-- The strings of the message are what a parser accepts. -/
def Envelope.Textual (e : Envelope) : Prop :=
  Wire.utf8Valid e.method = true ∧ Wire.utf8Valid e.error = true

instance (e : Envelope) : Decidable e.Textual := inferInstanceAs (Decidable (_ ∧ _))

structure RpcCodec where
  /-- `ParseFromArray` on an empty message. -/
  parse : Bytes → Option Envelope
  /-- `SerializeToArray`, which fills an array of `ByteSizeLong` octets. -/
  serialize : Envelope → Bytes

/-- What the two sides rely on. A message is no shorter than a message inside it. -/
structure RpcCodec.Lawful (codec : RpcCodec) : Prop where
  parse_serialize : ∀ e : Envelope, e.Textual → (codec.serialize e).length < 2 ^ 31 →
    codec.parse (codec.serialize e) = some e
  length_message : ∀ (e : Envelope) (bytes : Bytes), e.result = some (.message bytes) →
    bytes.length ≤ (codec.serialize e).length

/-! ## Frames -/

section Frames

variable (codec : RpcCodec)

/-- The octets `RpcEncode` lays out. -/
def rpcFrame (id : UInt64) (message : Envelope) : Bytes :=
  rpcVersion ++ beBytes 4 (codec.serialize message).length ++ beBytes 8 id.toNat ++
    codec.serialize message

def rpcEncode (id : UInt64) (message : Envelope) (limit : Nat) : Except Error Bytes :=
  if (codec.serialize message).length > limit then
    .error ⟨.invalidArgument, "RPC payload exceeds limit"⟩
  else .ok (rpcFrame codec id message)

def rpcDecode (bytes : Bytes) : Except Error Envelope :=
  if bytes.length < rpcHeader then .error ⟨.protocol, "Invalid RPC envelope"⟩
  else do
    let size ← rpcFrameSize bytes
    if size ≠ bytes.length then .error ⟨.protocol, "Invalid RPC envelope"⟩
    else
      match codec.parse (bytes.drop rpcHeader) with
      | none => .error ⟨.protocol, "Invalid RPC envelope"⟩
      | some message => .ok message

variable {codec} {id : UInt64} {message : Envelope}

theorem length_rpcFrame :
    (rpcFrame codec id message).length = rpcHeader + (codec.serialize message).length := by
  simp [rpcFrame, rpcVersion, rpcHeader]
  omega

theorem rpcEncode_of_le {limit : Nat} (fits : (codec.serialize message).length ≤ limit) :
    rpcEncode codec id message limit = .ok (rpcFrame codec id message) :=
  if_neg (Nat.not_lt.mpr fits)

theorem rpcEncode_ok_iff {limit : Nat} {bytes : Bytes} :
    rpcEncode codec id message limit = .ok bytes ↔
      (codec.serialize message).length ≤ limit ∧ bytes = rpcFrame codec id message := by
  unfold rpcEncode
  split
  · exact iff_of_false (by simp) (by omega)
  · simp only [Except.ok.injEq, eq_comm, iff_and_self]
    omega

theorem rpcFrameSize_frame (short : (codec.serialize message).length < 2 ^ 31) :
    rpcFrameSize (rpcFrame codec id message) = .ok (rpcFrame codec id message).length := by
  have size : ((rpcFrame codec id message).drop 4).take 4 =
      beBytes 4 (codec.serialize message).length := by
    simp [rpcFrame, rpcVersion]
  have version : (rpcFrame codec id message).take 4 = rpcVersion := by
    simp [rpcFrame, rpcVersion]
  have read := beNat_beBytes_of_lt (k := 4) (n := (codec.serialize message).length) (by omega)
  have long : ¬ (rpcFrame codec id message).length < rpcHeader := by
    rw [length_rpcFrame]
    omega
  rw [rpcFrameSize, if_neg long, if_neg (not_not.mpr version), size, read, length_rpcFrame]

theorem rpcId_frame (nonzero : id ≠ 0) : rpcId (rpcFrame codec id message) = .ok id.toNat := by
  have octets : ((rpcFrame codec id message).drop 8).take 8 = beBytes 8 id.toNat := by
    simp [rpcFrame, rpcVersion]
  have read := beNat_beBytes_of_lt (k := 8) (n := id.toNat) id.toNat_lt
  have nonzero : id.toNat ≠ 0 := fun zero => nonzero (UInt64.toNat_inj.mp zero)
  simp only [rpcId, octets, read, if_neg nonzero]

theorem rpcDecode_frame (lawful : codec.Lawful) (textual : message.Textual)
    (short : (codec.serialize message).length < 2 ^ 31) :
    rpcDecode codec (rpcFrame codec id message) = .ok message := by
  have body : (rpcFrame codec id message).drop rpcHeader = codec.serialize message := by
    rw [rpcFrame, List.drop_left' (by simp [rpcVersion, rpcHeader])]
  have long : ¬ (rpcFrame codec id message).length < rpcHeader := by
    rw [length_rpcFrame]
    omega
  have parsed := lawful.parse_serialize message textual short
  rw [rpcDecode, if_neg long, rpcFrameSize_frame short, body, parsed]
  exact if_neg (not_not.mpr rfl)

end Frames

/-! ## The wire format -/

open Wire

namespace Value

def fields : Value → List Field
  | .unset => []
  | .signed n => [⟨1, .varint (zigzag n)⟩]
  | .unsigned n => [⟨2, .varint n⟩]
  | .real bits => [⟨3, .fixed64 (beBytes 8 bits.toNat).reverse⟩]
  | .bool b => [⟨4, .varint (if b then 1 else 0)⟩]
  | .string bytes => [⟨5, .bytes bytes⟩]
  | .message bytes => [⟨6, .bytes bytes⟩]

/-- A later field replaces an earlier one. -/
def merge (v : Value) (f : Field) : Value :=
  match f.number, f.payload with
  | 1, .varint n => .signed (unzigzag n)
  | 2, .varint n => .unsigned n
  | 3, .fixed64 b => .real (UInt64.ofNat (beNat b.reverse))
  | 4, .varint n => .bool (n ≠ 0)
  | 5, .bytes b => .string b
  | 6, .bytes b => .message b
  | _, _ => v

def encode (v : Value) : Bytes := encodeFields v.fields

/-- Merge a written value into `v`. -/
def read (v : Value) (bytes : Bytes) : Option Value :=
  (readFields bytes.length bytes).map fun fs => fs.foldl merge v

theorem foldl_merge_fields (v : Value) : v.fields.foldl merge .unset = v := by
  cases v with
  | signed n => simp [fields, merge, unzigzag_zigzag]
  | real bits =>
    have same := beNat_beBytes_of_lt (k := 8) (n := bits.toNat) bits.toNat_lt
    simp [fields, merge, same]
  | bool b => cases b <;> rfl
  | unset | unsigned | string | message => rfl

theorem read_encode {v : Value} (short : v.encode.length < 2 ^ 31) :
    Value.unset.read v.encode = some v := by
  have valid : ∀ f ∈ v.fields, f.Valid := by
    intro f mem
    cases v with
    | unset => simp [fields] at mem
    | string bytes | message bytes =>
      obtain rfl := List.mem_singleton.mp mem
      have inside := length_bytes_le mem
      refine ⟨by norm_num, by norm_num, ?_⟩
      change bytes.length < 2 ^ 64
      unfold encode at short
      omega
    | real bits =>
      obtain rfl := List.mem_singleton.mp mem
      exact ⟨by norm_num, by norm_num, by simp [Payload.Valid]⟩
    | signed | unsigned | bool =>
      obtain rfl := List.mem_singleton.mp mem
      exact ⟨by norm_num, by norm_num, trivial⟩
  rw [read, encode, readFields_encodeFields valid (length_encodeFields _), Option.map_some,
    foldl_merge_fields]

end Value

/-- The number of an enumerator, a signed 32-bit one that is written with its sign. -/
def signExtend (n : UInt32) : UInt64 :=
  UInt64.ofNat (if n.toNat < 2 ^ 31 then n.toNat else n.toNat + (2 ^ 64 - 2 ^ 32))

theorem toUInt32_signExtend (n : UInt32) : (signExtend n).toUInt32 = n := by
  have bound := n.toNat_lt
  apply UInt32.toNat_inj.mp
  rw [signExtend, UInt64.toNat_toUInt32, UInt64.toNat_ofNat']
  split <;> omega

def EnvelopeType.code : EnvelopeType → UInt32
  | .request => 0
  | .response => 1
  | .unrecognized n _ => n

theorem two_le_of_ne {n : UInt32} (zero : n ≠ 0) (one : n ≠ 1) : 2 ≤ n := by
  rw [ne_eq, ← UInt32.toNat_inj] at zero one
  rw [UInt32.le_iff_toNat_le]
  change 2 ≤ n.toNat
  change n.toNat ≠ 0 at zero
  change n.toNat ≠ 1 at one
  omega

def EnvelopeType.ofCode (n : UInt32) : EnvelopeType :=
  if zero : n = 0 then .request
  else if one : n = 1 then .response
  else .unrecognized n (two_le_of_ne zero one)

theorem EnvelopeType.ofCode_code (type : EnvelopeType) : ofCode type.code = type := by
  cases type with
  | request | response => rfl
  | unrecognized n h =>
    have zero : n ≠ 0 := by rintro rfl; exact absurd h (by decide)
    have one : n ≠ 1 := by rintro rfl; exact absurd h (by decide)
    rw [ofCode, code, dif_neg zero, dif_neg one]

namespace Envelope

/-- Fields with their default value are not written. -/
def fields (e : Envelope) : List Field :=
  (if e.type ≠ .request then [⟨1, .varint (signExtend e.type.code)⟩] else []) ++
  (if e.method ≠ [] then [⟨2, .bytes e.method⟩] else []) ++
  e.arguments.map (fun v => ⟨3, .bytes v.encode⟩) ++
  e.result.toList.map (fun v => ⟨4, .bytes v.encode⟩) ++
  (if e.status ≠ 0 then [⟨5, .varint e.status.toUInt64⟩] else []) ++
  (if e.error ≠ [] then [⟨6, .bytes e.error⟩] else [])

/-- Merge one field into a message; text that is not UTF-8 is refused. -/
def merge (e : Envelope) (f : Field) : Option Envelope :=
  match f.number, f.payload with
  | 1, .varint n => some { e with type := .ofCode n.toUInt32 }
  | 2, .bytes b => if utf8Valid b then some { e with method := b } else none
  | 3, .bytes b => (Value.unset.read b).map fun v => { e with arguments := e.arguments ++ [v] }
  | 4, .bytes b => ((e.result.getD .unset).read b).map fun v => { e with result := some v }
  | 5, .varint n => some { e with status := n.toUInt32 }
  | 6, .bytes b => if utf8Valid b then some { e with error := b } else none
  | _, _ => some e

end Envelope

def wireRpcCodec : RpcCodec where
  parse bytes := (readFields bytes.length bytes).bind fun fs => fs.foldlM Envelope.merge {}
  serialize e := encodeFields e.fields

namespace Envelope

theorem merge_arguments (e : Envelope) {vs : List Value}
    (short : ∀ v ∈ vs, v.encode.length < 2 ^ 31) :
    (vs.map fun v => (⟨3, .bytes v.encode⟩ : Field)).foldlM merge e =
      some { e with arguments := e.arguments ++ vs } := by
  induction vs generalizing e with
  | nil => simp
  | cons v vs ih =>
    have first : merge e ⟨3, .bytes v.encode⟩ =
        some { e with arguments := e.arguments ++ [v] } := by
      simp only [merge, Value.read_encode (short v (by simp)), Option.map_some]
    have rest := ih { e with arguments := e.arguments ++ [v] } fun w mem => short w (by simp [mem])
    rw [List.map_cons, List.foldlM_cons, first, Option.bind_eq_bind, Option.bind_some, rest]
    simp

/-- Reading the fields of a message restores it. -/
theorem foldlM_merge_fields {e : Envelope} (textual : e.Textual)
    (arguments : ∀ v ∈ e.arguments, v.encode.length < 2 ^ 31)
    (result : ∀ v, e.result = some v → v.encode.length < 2 ^ 31) :
    e.fields.foldlM merge {} = some e := by
  obtain ⟨type, method, args, res, status, error⟩ := e
  have afterType : (if type ≠ .request then [⟨1, .varint (signExtend type.code)⟩] else []
      : List Field).foldlM merge {} = some { type } := by
    by_cases plain : type = .request
    · simp [plain]
    · simp [plain, merge, toUInt32_signExtend, EnvelopeType.ofCode_code]
  have afterMethod : ∀ e : Envelope, e.method = [] →
      (if method ≠ [] then [⟨2, .bytes method⟩] else [] : List Field).foldlM merge e =
        some { e with method } := by
    intro e blank
    by_cases plain : method = []
    · simp [plain, ← blank]
    · simp [plain, merge, textual.1]
  have afterResult : ∀ e : Envelope, e.result = none →
      (res.toList.map fun v => (⟨4, .bytes v.encode⟩ : Field)).foldlM merge e =
        some { e with result := res } := by
    intro e blank
    cases res with
    | none =>
      obtain ⟨_, _, _, _, _, _⟩ := e
      cases blank
      rfl
    | some v => simp [merge, blank, Value.read_encode (result v rfl)]
  have afterStatus : ∀ e : Envelope, e.status = 0 →
      (if status ≠ 0 then [⟨5, .varint status.toUInt64⟩] else [] : List Field).foldlM merge e =
        some { e with status } := by
    intro e blank
    by_cases plain : status = 0
    · simp [plain, ← blank]
    · simp [plain, merge]
  have afterError : ∀ e : Envelope, e.error = [] →
      (if error ≠ [] then [⟨6, .bytes error⟩] else [] : List Field).foldlM merge e =
        some { e with error } := by
    intro e blank
    by_cases plain : error = []
    · simp [plain, ← blank]
    · simp [plain, merge, textual.2]
  simp only [fields, List.foldlM_append, Option.bind_eq_bind, afterType, Option.bind_some,
    afterMethod, merge_arguments _ arguments, afterResult, afterStatus, afterError, List.nil_append]

theorem mem_fields_argument {e : Envelope} {v : Value} (mem : v ∈ e.arguments) :
    ⟨3, .bytes v.encode⟩ ∈ e.fields := by
  simp only [fields, List.mem_append, List.mem_map]
  exact .inl (.inl (.inl (.inr ⟨v, mem, rfl⟩)))

theorem mem_fields_result {e : Envelope} {v : Value} (here : e.result = some v) :
    ⟨4, .bytes v.encode⟩ ∈ e.fields := by
  simp [fields, here]

/-- The conditions under which the fields of a message are valid. -/
theorem valid_fields {e : Envelope} (short : (encodeFields e.fields).length < 2 ^ 31) :
    ∀ f ∈ e.fields, f.Valid := by
  have bytes : ∀ {k b}, ⟨k, .bytes b⟩ ∈ e.fields → 0 < k → k < 2 ^ 29 →
      (⟨k, .bytes b⟩ : Field).Valid := by
    intro k b mem low high
    have inside := length_bytes_le mem
    refine ⟨low, high, ?_⟩
    change b.length < 2 ^ 64
    omega
  intro f mem
  have whole := mem
  simp only [fields, List.mem_append] at mem
  rcases mem with ((((mem | mem) | mem) | mem) | mem) | mem
  · split at mem
    · obtain rfl := List.mem_singleton.mp mem
      exact ⟨by norm_num, by norm_num, trivial⟩
    · cases mem
  · split at mem
    · obtain rfl := List.mem_singleton.mp mem
      exact bytes whole (by norm_num) (by norm_num)
    · cases mem
  · obtain ⟨v, -, rfl⟩ := List.mem_map.mp mem
    exact bytes whole (by norm_num) (by norm_num)
  · obtain ⟨v, -, rfl⟩ := List.mem_map.mp mem
    exact bytes whole (by norm_num) (by norm_num)
  · split at mem
    · obtain rfl := List.mem_singleton.mp mem
      exact ⟨by norm_num, by norm_num, trivial⟩
    · cases mem
  · split at mem
    · obtain rfl := List.mem_singleton.mp mem
      exact bytes whole (by norm_num) (by norm_num)
    · cases mem

end Envelope

theorem wireRpcCodec_lawful : wireRpcCodec.Lawful where
  parse_serialize e textual short := by
    have inside : ∀ {k v}, ⟨k, .bytes (Value.encode v)⟩ ∈ e.fields → v.encode.length < 2 ^ 31 :=
      fun mem => (length_bytes_le mem).trans_lt short
    have merged := Envelope.foldlM_merge_fields textual
      (fun v mem => inside (Envelope.mem_fields_argument mem))
      (fun v here => inside (Envelope.mem_fields_result here))
    change (readFields (encodeFields e.fields).length (encodeFields e.fields)).bind _ = some e
    rw [readFields_encodeFields (Envelope.valid_fields short) (length_encodeFields _),
      Option.bind_some, merged]
  length_message e bytes here := by
    have inner : bytes.length ≤ (Value.message bytes).encode.length :=
      length_bytes_le (k := 6) (by simp [Value.fields])
    exact inner.trans (length_bytes_le (Envelope.mem_fields_result here))

end KVRPC
