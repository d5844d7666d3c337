import KVRPC.Library.Bytes

/-!
# The KV wire protocol

Frames of `kv_protocol.h`: a twelve-octet header in network byte order followed by the
key and the value. The same frames travel between client and server and, wrapped in a
checksummed record, make up the append-only file.

A frame whose header passes `Message.validate` and announces its own length is
determined by its command, key and value (`eq_frame_of_decodeHeader`).
-/
namespace KVRPC

open Library

/-- The C++ exception classes thrown by the modelled code. -/
inductive ErrorClass where
  | runtimeError
  | aofCapacityError
  | lengthError
  | invalidArgument
  | logicError
  deriving DecidableEq, Repr

structure Exception where
  cls : ErrorClass
  what : String
  deriving DecidableEq, Repr

def runtimeError (what : String) : Exception := ⟨.runtimeError, what⟩
def aofCapacityError (what : String) : Exception := ⟨.aofCapacityError, what⟩
def lengthError (what : String) : Exception := ⟨.lengthError, what⟩
def invalidArgument (what : String) : Exception := ⟨.invalidArgument, what⟩
def logicError (what : String) : Exception := ⟨.logicError, what⟩

/-- What `catch (const std::runtime_error&)` catches. -/
def Exception.isRuntimeError (e : Exception) : Bool :=
  e.cls = .runtimeError || e.cls = .aofCapacityError

def magic : Nat := 0xCAFE
def version : UInt8 := 1
def headerSize : Nat := 12
def maxKeySize : Nat := 64 * 1024
def maxValueSize : Nat := 1024 * 1024
def maxWireValueSize : Nat := maxValueSize + 64
def maxFrameSize : Nat := headerSize + maxKeySize + maxWireValueSize

inductive Command where
  | set
  | get
  | del
  | stats
  | lookup
  | setTtl
  | unknown
  deriving DecidableEq, Repr

def Command.toByte : Command → UInt8
  | .set => 1
  | .get => 2
  | .del => 3
  | .stats => 4
  | .lookup => 5
  | .setTtl => 6
  | .unknown => 0

/-- `static_cast<Command>` of a validated command octet. -/
def Command.ofByte (b : UInt8) : Command :=
  if b = 1 then .set else if b = 2 then .get else if b = 3 then .del
  else if b = 4 then .stats else if b = 5 then .lookup else if b = 6 then .setTtl
  else .unknown

structure Header where
  magic : Nat
  version : UInt8
  command : UInt8
  keyLen : Nat
  valueLen : Nat
  deriving DecidableEq, Repr

namespace Message

/-- The condition under which `validate` throws. -/
def Malformed (h : Header) : Prop :=
  h.magic ≠ KVRPC.magic ∨ h.version ≠ KVRPC.version ∨ h.command < 1 ∨ h.command > 6 ∨
    h.keyLen > maxKeySize ∨ h.valueLen > maxWireValueSize

instance (h : Header) : Decidable (Malformed h) := by unfold Malformed; infer_instance

def validate (h : Header) : Except Exception Unit :=
  if Malformed h then .error (runtimeError "Invalid KVCache frame header") else .ok ()

/-- The octets `encode` lays out. -/
def frame (command : Command) (key value : Bytes) : Bytes :=
  beBytes 2 magic ++ [version, command.toByte] ++ beBytes 4 key.length ++
    beBytes 4 value.length ++ key ++ value

def encode (command : Command) (key : Bytes) (value : Bytes) : Except Exception Bytes :=
  if key.length > maxKeySize ∨ value.length > maxWireValueSize then
    .error (lengthError "KVCache key or value exceeds protocol limit")
  else do
    validate ⟨magic, version, command.toByte, key.length % 2 ^ 32, value.length % 2 ^ 32⟩
    return frame command key value

/-- Callers supply at least `headerSize` octets. -/
def decodeHeader (bytes : Bytes) : Header where
  magic := beNat (bytes.take 2)
  version := bytes.getD 2 0
  command := bytes.getD 3 0
  keyLen := beNat ((bytes.drop 4).take 4)
  valueLen := beNat ((bytes.drop 8).take 4)

end Message

theorem Command.ofByte_toByte (c : Command) : Command.ofByte c.toByte = c := by
  cases c <;> rfl

theorem Command.toByte_ofByte {b : UInt8} (h₁ : ¬ b < 1) (h₂ : ¬ b > 6) :
    (Command.ofByte b).toByte = b := by
  unfold Command.ofByte
  split_ifs with h1 h2 h3 h4 h5 h6
  all_goals first | (subst_vars; rfl) | skip
  simp only [gt_iff_lt, UInt8.lt_iff_toNat_lt, ← UInt8.toNat_inj] at *
  simp at *
  omega

namespace Message

variable {command : Command} {key value : Bytes}

@[simp] theorem length_frame :
    (frame command key value).length = headerSize + key.length + value.length := by
  simp [frame, headerSize]
  omega

/-- A command other than `UNKNOWN` with key and value inside the protocol limits. -/
def Encodable (command : Command) (key value : Bytes) : Prop :=
  command ≠ .unknown ∧ key.length ≤ maxKeySize ∧ value.length ≤ maxWireValueSize

instance : Decidable (Encodable command key value) := by unfold Encodable; infer_instance

theorem not_malformed_iff (h : Header) :
    ¬ Malformed h ↔ h.magic = KVRPC.magic ∧ h.version = KVRPC.version ∧ ¬ h.command < 1 ∧
      ¬ h.command > 6 ∧ h.keyLen ≤ maxKeySize ∧ h.valueLen ≤ maxWireValueSize := by
  simp only [Malformed, not_or, not_not, Nat.not_lt, gt_iff_lt]

theorem validate_of_malformed {h : Header} (bad : Malformed h) :
    validate h = .error (runtimeError "Invalid KVCache frame header") := if_pos bad

/-- Encoding never reports a full log. -/
theorem encode_error_cls {key value : Bytes} {e : Exception}
    (h : encode command key value = .error e) : e.cls ≠ .aofCapacityError := by
  unfold encode at h
  split at h
  · cases h
    decide
  · unfold validate at h
    split at h
    · cases h
      decide
    · cases h

theorem validate_ok_iff (h : Header) : validate h = .ok () ↔ ¬ Malformed h := by
  unfold validate
  split <;> simp [*]

theorem not_malformed_header (hc : command ≠ .unknown) {k v : Nat} (hk : k ≤ maxKeySize)
    (hv : v ≤ maxWireValueSize) : ¬ Malformed ⟨magic, version, command.toByte, k, v⟩ := by
  have octet : ¬ command.toByte < 1 ∧ ¬ command.toByte > 6 := by
    cases command <;> first | exact absurd rfl hc | exact ⟨by decide, by decide⟩
  rw [not_malformed_iff]
  exact ⟨rfl, rfl, octet.1, octet.2, hk, hv⟩

theorem encode_of_encodable (h : Encodable command key value) :
    encode command key value = .ok (frame command key value) := by
  obtain ⟨hc, hk, hv⟩ := h
  have wf := not_malformed_header hc ((Nat.mod_le key.length (2 ^ 32)).trans hk)
    ((Nat.mod_le value.length (2 ^ 32)).trans hv)
  rw [encode, if_neg (by omega), (validate_ok_iff _).mpr wf]
  rfl

theorem encode_ok_iff {bytes : Bytes} :
    encode command key value = .ok bytes ↔
      Encodable command key value ∧ bytes = frame command key value := by
  constructor
  · intro h
    by_cases fits : Encodable command key value
    · rw [encode_of_encodable fits] at h
      exact ⟨fits, (Except.ok.inj h).symm⟩
    · exfalso
      unfold encode at h
      split at h
      · cases h
      · rename_i limits
        have unknown : command = .unknown := by
          by_contra hc
          exact fits ⟨hc, by omega, by omega⟩
        subst unknown
        have bad : Malformed ⟨magic, version, Command.unknown.toByte, key.length % 2 ^ 32,
            value.length % 2 ^ 32⟩ :=
          Or.inr (Or.inr (Or.inl (show (0 : UInt8) < 1 by decide)))
        rw [validate, if_pos bad] at h
        cases h
  · rintro ⟨fits, rfl⟩
    exact encode_of_encodable fits

theorem encode_error_of_not_encodable (h : ¬ Encodable command key value) :
    ∃ e, encode command key value = .error e := by
  cases he : encode command key value with
  | error e => exact ⟨e, rfl⟩
  | ok bytes => exact absurd (encode_ok_iff.mp he).1 h

/-! ## Reading frames back -/

theorem frame_append (rest : Bytes) :
    frame command key value ++ rest =
      beBytes 2 magic ++ ([version, command.toByte] ++ (beBytes 4 key.length ++
        (beBytes 4 value.length ++ (key ++ (value ++ rest))))) := by
  simp [frame]

theorem decodeHeader_frame (hk : key.length < 2 ^ 32) (hv : value.length < 2 ^ 32)
    (rest : Bytes) :
    decodeHeader (frame command key value ++ rest) =
      ⟨magic, version, command.toByte, key.length, value.length⟩ := by
  rw [frame_append]
  have hm : magic < 256 ^ 2 := by decide
  simp only [decodeHeader, beBytes, List.cons_append, List.nil_append, List.take_succ_cons,
    List.take_zero, List.drop_succ_cons, List.drop_zero, List.getD_cons_succ,
    List.getD_cons_zero]
  have key4 := beNat_beBytes_of_lt (k := 4) (show key.length < 256 ^ 4 by omega)
  have value4 := beNat_beBytes_of_lt (k := 4) (show value.length < 256 ^ 4 by omega)
  have magic2 := beNat_beBytes_of_lt hm
  simp only [beBytes] at key4 value4 magic2
  rw [key4, value4, magic2]

theorem Encodable.decodeHeader (h : Encodable command key value) :
    decodeHeader (frame command key value) =
      ⟨magic, version, command.toByte, key.length, value.length⟩ := by
  obtain ⟨-, hk, hv⟩ := h
  unfold maxKeySize at hk
  unfold maxWireValueSize maxValueSize at hv
  have whole := @decodeHeader_frame command key value (by omega) (by omega) []
  rwa [List.append_nil] at whole

theorem decodeHeader_append {bytes : Bytes} (h : headerSize ≤ bytes.length) (rest : Bytes) :
    decodeHeader (bytes ++ rest) = decodeHeader bytes := by
  unfold headerSize at h
  simp only [decodeHeader]
  rw [List.take_append_of_le_length (by omega), List.drop_append_of_le_length (by omega),
    List.take_append_of_le_length (by simp; omega), List.drop_append_of_le_length (by omega),
    List.take_append_of_le_length (by simp; omega)]
  simp only [List.getD_eq_getElem?_getD]
  rw [List.getElem?_append_left (by omega), List.getElem?_append_left (by omega)]

theorem decodeHeader_take {bytes : Bytes} {n : Nat} (hn : headerSize ≤ n)
    (h : headerSize ≤ bytes.length) : decodeHeader (bytes.take n) = decodeHeader bytes := by
  conv_rhs => rw [← List.take_append_drop n bytes]
  rw [decodeHeader_append]
  simp
  omega

theorem frame_key : ((frame command key value).drop headerSize).take key.length = key := by
  have : frame command key value = (beBytes 2 magic ++ [version, command.toByte] ++
      beBytes 4 key.length ++ beBytes 4 value.length) ++ (key ++ value) := by
    simp [frame]
  rw [this, List.drop_left' (by simp [headerSize])]
  exact List.take_left' rfl

theorem frame_value :
    ((frame command key value).drop (headerSize + key.length)).take value.length = value := by
  have : frame command key value = (beBytes 2 magic ++ [version, command.toByte] ++
      beBytes 4 key.length ++ beBytes 4 value.length ++ key) ++ value := by
    simp [frame]
  rw [this, List.drop_left' (by simp [headerSize]; omega)]
  simp

/-- A valid header whose lengths account for all octets leaves no freedom in them. -/
theorem eq_frame_of_decodeHeader {bytes : Bytes} (hlen : headerSize ≤ bytes.length)
    (hvalid : ¬ Malformed (decodeHeader bytes))
    (htotal : headerSize + (decodeHeader bytes).keyLen + (decodeHeader bytes).valueLen =
      bytes.length) :
    bytes = frame (Command.ofByte (decodeHeader bytes).command)
      ((bytes.drop headerSize).take (decodeHeader bytes).keyLen)
      ((bytes.drop (headerSize + (decodeHeader bytes).keyLen)).take
        (decodeHeader bytes).valueLen) := by
  obtain ⟨hm, hver, hc₁, hc₂, _, _⟩ := (not_malformed_iff _).mp hvalid
  have hk : ((bytes.drop headerSize).take (decodeHeader bytes).keyLen).length =
      (decodeHeader bytes).keyLen := by simp; omega
  have hv : ((bytes.drop (headerSize + (decodeHeader bytes).keyLen)).take
      (decodeHeader bytes).valueLen).length = (decodeHeader bytes).valueLen := by simp; omega
  unfold frame
  rw [hk, hv, Command.toByte_ofByte hc₁ hc₂, ← hver, ← hm]
  unfold headerSize at *
  rcases bytes with _ | ⟨b0, _ | ⟨b1, _ | ⟨b2, _ | ⟨b3, _ | ⟨b4, _ | ⟨b5, _ | ⟨b6, _ | ⟨b7,
    _ | ⟨b8, _ | ⟨b9, _ | ⟨b10, _ | ⟨b11, body⟩⟩⟩⟩⟩⟩⟩⟩⟩⟩⟩⟩
  case cons.cons.cons.cons.cons.cons.cons.cons.cons.cons.cons.cons =>
    have m2 := beBytes_beNat [b0, b1]
    have k4 := beBytes_beNat [b4, b5, b6, b7]
    have v4 := beBytes_beNat [b8, b9, b10, b11]
    simp only [decodeHeader, List.length_cons, List.length_nil, List.take_succ_cons,
      List.take_zero, List.drop_succ_cons, List.drop_zero, List.getD_cons_succ,
      List.getD_cons_zero, Nat.reduceAdd] at *
    rw [m2, k4, v4, Nat.add_comm 12]
    simp only [List.drop_succ_cons]
    have rest : (body.drop (beNat [b4, b5, b6, b7])).take (beNat [b8, b9, b10, b11]) =
        body.drop (beNat [b4, b5, b6, b7]) := List.take_of_length_le (by simp; omega)
    rw [rest, List.append_assoc, List.take_append_drop]
    rfl
  all_goals simp at hlen

end Message
end KVRPC
