import KVRPC.Client.Transport
import KVRPC.Protocol.CacheValue

/-!
# The cache client

`KVCacheClient` of `kvcache_client.h`: each method checks its arguments, builds a request frame
for the transport, and turns the response into the value of a future.
-/
namespace KVRPC.Client

open Library

/-- A call of a method. A time to live is a signed 64-bit number of milliseconds. -/
inductive KVCall where
  | set (key value : Bytes)
  | get (key : Bytes)
  | delete (key : Bytes)
  | stats
  | lookup (key : Bytes)
  | setWithTTL (key value : Bytes) (ttl : Int64)
  deriving DecidableEq

/-- What a future is fulfilled with. -/
inductive KVResult where
  | flag (b : Bool)
  | text (value : Bytes)
  | optional (value : Option Bytes)
  deriving DecidableEq, Repr

namespace KVCall

def command : KVCall → Command
  | .set .. => .set
  | .get _ => .get
  | .delete _ => .del
  | .stats => .stats
  | .lookup _ => .lookup
  | .setWithTTL .. => .setTtl

def key : KVCall → Bytes
  | .set key _ => key
  | .get key => key
  | .delete key => key
  | .stats => []
  | .lookup key => key
  | .setWithTTL key .. => key

/-- The longest value field of a request. -/
def valueLimit (command : Command) : Nat :=
  if command = .setTtl then maxWireValueSize else maxValueSize

/-- The part of `Request` before the call of `Submit`. -/
def buildRequest (options : ClientOptions) (command : Command) (key value : Bytes) :
    Except Thrown Bytes :=
  if key.length > maxKeySize ∨ value.length > valueLimit command ∨
      headerSize + key.length + value.length > options.maxFrameBytes then
    .error (.error ⟨.invalidArgument, "KVCache request exceeds frame limit"⟩)
  else (Message.encode command key value).mapError .exception

variable (codec : Codec)

/-- The message of `SetWithTTL`. -/
def ttlItem (value : Bytes) (ttl : Int64) : codec.Value :=
  { value, ttlMs := ttl.toUInt64, unknown := codec.noUnknown }

/-- The value field of the request. -/
def payload : KVCall → Bytes
  | .set _ value => value
  | .setWithTTL _ value ttl => codec.serialize (ttlItem codec value ttl)
  | _ => []

/-- The frame a method hands to the transport. -/
def request (options : ClientOptions) : KVCall → Except Thrown Bytes
  | .set key value => buildRequest options .set key value
  | .get key => buildRequest options .get key []
  | .delete key => buildRequest options .del key []
  | .stats => buildRequest options .stats [] []
  | .lookup key => buildRequest options .lookup key []
  | .setWithTTL key value ttl =>
    if ttl ≤ 0 ∨ value.length > maxValueSize then
      .error (.error ⟨.invalidArgument, "TTL must be positive"⟩)
    else buildRequest options .setTtl key (codec.serialize (ttlItem codec value ttl))

/-- What the completion makes of the value field of a response. -/
def result (call : KVCall) (value : Bytes) : Except Error KVResult :=
  match call with
  | .set .. | .delete _ | .setWithTTL .. => .ok (.flag true)
  | .lookup _ =>
    match codec.parse value with
    | none => .error ⟨.protocol, "Invalid lookup result"⟩
    | some item => .ok (.optional (if item.found then some item.value else none))
  | .get _ | .stats => .ok (.text value)

/-- What the completion makes of a response. -/
def complete (options : ClientOptions) (call : KVCall) (response : Bytes) : Except Error KVResult :=
  let h := Message.decodeHeader response
  if h.command ≠ call.command.toByte ∨ h.keyLen ≠ call.key.length ∨
      response.length > options.maxFrameBytes ∨
      ((call.command = .set ∨ call.command = .setTtl ∨ call.command = .del) ∧ h.valueLen ≠ 0) then
    .error ⟨.protocol, "Unexpected KVCache response"⟩
  else if (response.drop headerSize).take h.keyLen ≠ call.key then
    .error ⟨.protocol, "KVCache response key mismatch"⟩
  else result codec call ((response.drop (headerSize + h.keyLen)).take h.valueLen)

/-- The completion: what the future gets, and what is returned to the transport. -/
def completion (options : ClientOptions) (call : KVCall) : Outcome → Except Error KVResult × Bool
  | .error e => (.error e, true)
  | .response bytes =>
    match complete codec options call bytes with
    | .ok r => (.ok r, true)
    | .error e => (.error e, e.code ≠ .protocol)

variable {codec} {options : ClientOptions} {call : KVCall}

theorem buildRequest_ok {command : Command} {key value frame : Bytes}
    (accepted : buildRequest options command key value = .ok frame) :
    frame = Message.frame command key value ∧ Message.Encodable command key value ∧
      value.length ≤ valueLimit command ∧ frame.length ≤ options.maxFrameBytes := by
  unfold buildRequest at accepted
  split at accepted
  case isTrue => cases accepted
  case isFalse fits =>
    have encoded : Message.encode command key value = .ok frame := by
      cases built : Message.encode command key value with
      | error e =>
        rw [built] at accepted
        cases accepted
      | ok bytes =>
        rw [built] at accepted
        cases accepted
        rfl
    obtain ⟨encodable, rfl⟩ := Message.encode_ok_iff.mp encoded
    refine ⟨rfl, encodable, ?_, ?_⟩
    · omega
    · rw [Message.length_frame]
      omega

theorem buildRequest_eq {command : Command} {key value : Bytes}
    (encodable : Message.Encodable command key value)
    (short : command ≠ .setTtl → value.length ≤ maxValueSize)
    (wide : headerSize + key.length + value.length ≤ options.maxFrameBytes) :
    buildRequest options command key value = .ok (Message.frame command key value) := by
  have fits : value.length ≤ valueLimit command := by
    unfold valueLimit
    split
    · exact encodable.2.2
    case isFalse other => exact short other
  have key_le := encodable.2.1
  unfold buildRequest
  rw [if_neg (by omega), Message.encode_of_encodable encodable]
  rfl

/-- What a method checks of its arguments, apart from the length of the frame. -/
def Checked : KVCall → Prop
  | .set key value => key.length ≤ maxKeySize ∧ value.length ≤ maxValueSize
  | .setWithTTL key value ttl => key.length ≤ maxKeySize ∧ value.length ≤ maxValueSize ∧ 0 < ttl
  | call => call.key.length ≤ maxKeySize

instance : (call : KVCall) → Decidable call.Checked
  | .set .. => inferInstanceAs (Decidable (_ ∧ _))
  | .setWithTTL .. => inferInstanceAs (Decidable (_ ∧ _ ∧ _))
  | .get _ | .delete _ | .stats | .lookup _ => inferInstanceAs (Decidable (_ ≤ _))

theorem request_ok {frame : Bytes} (accepted : request codec options call = .ok frame) :
    frame = Message.frame call.command call.key (call.payload codec) ∧
      Message.Encodable call.command call.key (call.payload codec) ∧ call.Checked ∧
      frame.length ≤ options.maxFrameBytes := by
  cases call with
  | setWithTTL key value ttl =>
    simp only [request] at accepted
    split at accepted
    case isTrue => cases accepted
    case isFalse checked =>
      rw [not_or, Int64.not_le, Nat.not_lt] at checked
      obtain ⟨same, encodable, -, short⟩ := buildRequest_ok accepted
      exact ⟨same, encodable, ⟨encodable.2.1, checked.2, checked.1⟩, short⟩
  | set key value =>
    obtain ⟨same, encodable, limit, short⟩ := buildRequest_ok accepted
    exact ⟨same, encodable, ⟨encodable.2.1, limit⟩, short⟩
  | get | delete | stats | lookup =>
    obtain ⟨same, encodable, -, short⟩ := buildRequest_ok accepted
    exact ⟨same, encodable, encodable.2.1, short⟩

/-- A positive time to live keeps its value as an unsigned number. -/
theorem toNat_ttl {ttl : Int64} (positive : 0 < ttl) : (ttl.toUInt64.toNat : Int) = ttl.toInt := by
  have pos : 0 < ttl.toInt := Int64.lt_iff_toInt_lt.mp positive
  have bits : ttl.toUInt64.toNat = ttl.toBitVec.toNat := rfl
  have bound := ttl.toBitVec.isLt
  rw [bits]
  rw [← Int64.toInt_toBitVec, BitVec.toInt] at pos ⊢
  split at pos
  case isTrue small => rw [if_pos small]
  case isFalse => omega

end KVCall
end KVRPC.Client
