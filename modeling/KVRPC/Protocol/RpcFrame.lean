import KVRPC.Library.Framing
import KVRPC.Protocol.Message

/-!
# The two frame sizers

`rpcFrameSize` is `RpcFrameSize` of `rpc_protocol.h`; `kvFrameSize` is the sizer that
`main.cpp` installs in the KV server. Both look only at a header of fixed size, so both
cut a stream in one way.
-/
namespace KVRPC

open Library Library.Framing

inductive ErrorCode where
  | invalidArgument
  | overloaded
  | closed
  | timeout
  | connection
  | transport
  | protocol
  | remote
  deriving DecidableEq, Repr

/-- `kvrpc::Error`. -/
structure Error where
  code : ErrorCode
  what : String
  deriving DecidableEq, Repr

/-- An exception of one of the two hierarchies. -/
inductive Thrown where
  | error (e : Error)
  | exception (e : Exception)
  deriving DecidableEq, Repr

def rpcHeader : Nat := 16

/-- The octets of `"KVR2"`. -/
def rpcVersion : Bytes := [0x4b, 0x56, 0x52, 0x32]

def rpcFrameSize (bytes : Bytes) : Except Error Nat :=
  if bytes.length < rpcHeader then .ok 0
  else if bytes.take 4 ≠ rpcVersion then .error ⟨.protocol, "Invalid RPC version"⟩
  else .ok (rpcHeader + beNat ((bytes.drop 4).take 4))

/-- The identifier in a complete frame. -/
def rpcId (bytes : Bytes) : Except Error Nat :=
  let id := beNat ((bytes.drop 8).take 8)
  if id = 0 then .error ⟨.protocol, "Zero request identifier"⟩ else .ok id

def kvFrameSize (bytes : Bytes) : Except Exception Nat :=
  if bytes.length < headerSize then .ok 0
  else do
    let h := Message.decodeHeader bytes
    Message.validate h
    return headerSize + h.keyLen + h.valueLen

theorem rpcId_ok {bytes : Bytes} {id : Nat} (h : rpcId bytes = .ok id) : id ≠ 0 ∧ id < 2 ^ 64 := by
  unfold rpcId at h
  dsimp only at h
  split at h
  case isTrue => cases h
  case isFalse nonzero =>
    cases h
    refine ⟨nonzero, (beNat_lt _).trans_le ?_⟩
    calc 256 ^ ((bytes.drop 8).take 8).length ≤ 256 ^ 8 :=
          Nat.pow_le_pow_right (by norm_num) (List.length_take_le _ _)
      _ = 2 ^ 64 := by norm_num

/-- The sizers a server of this repository is given. -/
inductive KnownSizer : {ε : Type} → Sizer ε → Prop
  | rpc : KnownSizer rpcFrameSize
  | kv : KnownSizer kvFrameSize

theorem rpcFrameSize_lawful : Lawful rpcFrameSize := by
  apply lawful_of_header rpcHeader
  · decide
  · intro bs short
    simp [rpcFrameSize, short]
  · intro bs long more
    have long' : 16 ≤ bs.length := long
    have version : (bs ++ more).take 4 = bs.take 4 := List.take_append_of_le_length (by omega)
    have length : ((bs ++ more).drop 4).take 4 = (bs.drop 4).take 4 := by
      rw [List.drop_append_of_le_length (by omega), List.take_append_of_le_length (by simp; omega)]
    have reached : ¬ (bs ++ more).length < rpcHeader := by
      rw [List.length_append]
      omega
    simp only [rpcFrameSize, version, length, reached, if_false, Nat.not_lt.mpr long]
  · intro bs n long result
    simp only [rpcFrameSize, Nat.not_lt.mpr long, if_false] at result
    split at result
    · cases result
    · cases result
      omega

theorem kvFrameSize_eq {bs : Bytes} (long : headerSize ≤ bs.length) :
    kvFrameSize bs =
      if Message.Malformed (Message.decodeHeader bs) then
        .error (runtimeError "Invalid KVCache frame header")
      else .ok (headerSize + (Message.decodeHeader bs).keyLen +
        (Message.decodeHeader bs).valueLen) := by
  have reached : ¬ bs.length < headerSize := by omega
  simp only [kvFrameSize, reached, if_false]
  by_cases bad : Message.Malformed (Message.decodeHeader bs)
  · rw [if_pos bad, Message.validate_of_malformed bad]
    rfl
  · rw [if_neg bad, (Message.validate_ok_iff _).mpr bad]
    rfl

theorem kvFrameSize_frame {command : Command} {key value : Bytes}
    (h : Message.Encodable command key value) :
    kvFrameSize (Message.frame command key value) =
      .ok (Message.frame command key value).length := by
  rw [kvFrameSize_eq (by rw [Message.length_frame]; omega), h.decodeHeader,
    if_neg (Message.not_malformed_header h.1 h.2.1 h.2.2), Message.length_frame]

theorem kvFrameSize_lawful : Lawful kvFrameSize := by
  apply lawful_of_header headerSize
  · decide
  · intro bs short
    simp [kvFrameSize, short]
  · intro bs long more
    have reached : headerSize ≤ (bs ++ more).length := by
      rw [List.length_append]
      omega
    rw [kvFrameSize_eq long, kvFrameSize_eq reached, Message.decodeHeader_append long]
  · intro bs n long result
    rw [kvFrameSize_eq long] at result
    split at result
    · cases result
    · cases result
      omega

theorem KnownSizer.lawful {ε : Type} {sizer : Sizer ε} (h : KnownSizer sizer) : Lawful sizer := by
  cases h with
  | rpc => exact rpcFrameSize_lawful
  | kv => exact kvFrameSize_lawful

end KVRPC
