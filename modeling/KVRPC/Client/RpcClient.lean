import KVRPC.Client.Transport
import KVRPC.Server.RpcServer

/-!
# The RPC client

`RpcClient` of `rpc_client.h`: `Call` encodes a request for the transport, and the completion
turns the response into the value of a future. Against `Dispatch`, a call comes back with what
the callback returned, or with the status that says why it did not.
-/
namespace KVRPC.Client

open Library Server

/-- What a future fails with. A `RemoteError` is an `Error` with the code `remote`. -/
inductive Failure where
  | error (e : Error)
  | remote (status : UInt32) (what : Bytes)
  deriving DecidableEq

def Failure.code : Failure → ErrorCode
  | .error e => e.code
  | .remote .. => .remote

section Definitions

variable (codec : RpcCodec)

/-- The request of a call, before it is encoded. -/
def requestOf (name : Bytes) (args : List Argument) : Except Error Envelope := do
  let arguments ← args.mapM Argument.toValue
  return { method := name, arguments }

/-- The part of `Call` before `Submit`. -/
def rpcCall (options : ClientOptions) (id : UInt64) (name : Bytes) (args : List Argument) :
    Except Error Bytes := do
  let request ← requestOf name args
  rpcEncode codec id request options.maxFrameBytes

/-- The value in a response without an error. -/
def rpcResult (response : Envelope) : (ret : Option RpcType) → Except Failure (Returned ret)
  | none =>
    if response.result.isSome then .error (.error ⟨.protocol, "Unexpected result"⟩) else .ok ()
  | some τ => (fromValue τ (response.result.getD .unset)).mapError .error

/-- What the completion makes of a response. -/
def rpcComplete (ret : Option RpcType) (bytes : Bytes) : Except Failure (Returned ret) := do
  let response ← (rpcDecode codec bytes).mapError .error
  if response.type ≠ .response ∨ response.status > 4 then
    .error (.error ⟨.protocol, "Invalid RPC response type or status"⟩)
  else if response.status ≠ 0 then .error (.remote response.status response.error)
  else rpcResult response ret

/-- The completion: what the future gets, and what is returned to the transport. -/
def rpcCompletion (ret : Option RpcType) : Outcome → Except Failure (Returned ret) × Bool
  | .error e => (.error (.error e), true)
  | .response bytes =>
    match rpcComplete codec ret bytes with
    | .ok value => (.ok value, true)
    | .error failure => (.error failure, failure.code ≠ .protocol)

end Definitions

variable {codec : RpcCodec} {options : ClientOptions} {id : UInt64} {name : Bytes}
  {args : List Argument} {s : RpcServer}

theorem mapM_toValue_ok {values : List Value} (h : args.mapM Argument.toValue = .ok values) :
    List.Forall₂ (fun a v => Argument.toValue a = .ok v) args values := by
  induction args generalizing values with
  | nil =>
    cases h
    exact .nil
  | cons a args ih =>
    rw [List.mapM_cons] at h
    cases first : a.toValue with
    | error e => rw [first] at h; cases h
    | ok v =>
      cases rest : args.mapM Argument.toValue with
      | error e => rw [first, rest] at h; cases h
      | ok vs =>
        rw [first, rest] at h
        cases h
        exact .cons first (ih rest)

/-- What `Call` hands to the transport. -/
theorem rpcCall_ok {frame : Bytes} (sent : rpcCall codec options id name args = .ok frame) :
    ∃ values, List.Forall₂ (fun a v => Argument.toValue a = .ok v) args values ∧
      frame = rpcFrame codec id { method := name, arguments := values } ∧
      (codec.serialize { method := name, arguments := values }).length ≤
        options.maxFrameBytes := by
  unfold rpcCall requestOf at sent
  cases encoded : args.mapM Argument.toValue with
  | error e => rw [encoded] at sent; cases sent
  | ok values =>
    rw [encoded] at sent
    obtain ⟨short, same⟩ := rpcEncode_ok_iff.mp sent
    exact ⟨values, mapM_toValue_ok encoded, same, short⟩

theorem rpcComplete_of_decoded {bytes : Bytes} {response : Envelope}
    (decoded : rpcDecode codec bytes = .ok response) (formed : RpcServer.WellFormed response)
    (ret : Option RpcType) :
    rpcComplete codec ret bytes =
      if response.status ≠ 0 then .error (.remote response.status response.error)
      else rpcResult response ret := by
  have low : ¬ (response.type ≠ .response ∨ response.status > 4) := by
    rw [not_or, not_not, gt_iff_lt, UInt32.not_lt]
    have three : (3 : UInt32) ≤ 4 := by decide
    exact ⟨formed.type_eq, UInt32.le_trans formed.status_le three⟩
  simp only [rpcComplete, decoded, Except.mapError, bind, Except.bind, if_neg low]

/-- A returned value is read back by a client that asks for its type. -/
theorem rpcResult_store {ret : Option RpcType} (value : Returned ret)
    (short : ∀ bytes, (store { type := .response } ret value).result = some (.message bytes) →
      bytes.length < 2 ^ 31) :
    rpcResult (store { type := .response } ret value) ret = .ok value := by
  cases ret with
  | none => rfl
  | some τ =>
    have read := fromValue_toValue value fun bytes same => short bytes (congrArg some same)
    change (fromValue τ (toValue τ value)).mapError Failure.error = .ok value
    rw [read]
    rfl

/-- The call as `Dispatch` sees it, and the response as the completion sees it. -/
theorem exchange (lawful : codec.Lawful) (early : Bool) (nonzero : id ≠ 0)
    (text : Wire.utf8Valid name = true) {frame : Bytes}
    (sent : rpcCall codec options id name args = .ok frame)
    (within : frame.length ≤ s.server.maxFrameBytes)
    (fits : ∀ request, rpcDecode codec frame = .ok request →
      (codec.serialize (s.respond early request)).length ≤ s.limit) :
    ∃ request reply, request.method = name ∧
      List.Forall₂ (fun a v => Argument.toValue a = .ok v) args request.arguments ∧
      s.dispatch codec early frame = .ok reply ∧ rpcId reply = .ok id.toNat ∧
      rpcDecode codec reply = .ok (s.respond early request) ∧
      (codec.serialize (s.respond early request)).length < 2 ^ 31 := by
  obtain ⟨values, carried, rfl, -⟩ := rpcCall_ok sent
  rw [length_rpcFrame] at within
  obtain ⟨sum, small⟩ := s.limit_add ((Nat.le_add_right _ _).trans within)
  have textual : Envelope.Textual { method := name, arguments := values } := ⟨text, rfl⟩
  have decoded : rpcDecode codec (rpcFrame codec id { method := name, arguments := values }) =
      .ok { method := name, arguments := values } := rpcDecode_frame lawful textual (by omega)
  obtain ⟨reply, answered, same, read, -⟩ := RpcServer.dispatch_ok lawful decoded
    (rpcId_frame nonzero) rfl (by rw [length_rpcFrame]; exact within) (fits _ decoded)
  exact ⟨_, reply, rfl, carried, answered, same, read, (fits _ decoded).trans_lt small⟩

/-- **A call comes back with what the callback did.** For every table of methods and every list
of arguments whose request and response are within the limits, with the client asking for the
registered type of the result: the response carries the identifier of the request, it has a
result only if its status is zero, and the future gets the value the callback returned for
parameters with the values of the arguments, or a remote error. Its status is three if the
callback threw, two if the number of arguments is wrong or one of them does not fit its
parameter, and one if there is no such method. -/
theorem rpc_end_to_end (lawful : codec.Lawful) (s : RpcServer) (early : Bool) (nonzero : id ≠ 0)
    (text : Wire.utf8Valid name = true) {frame : Bytes}
    (sent : rpcCall codec options id name args = .ok frame)
    (within : frame.length ≤ s.server.maxFrameBytes)
    (fits : ∀ request, rpcDecode codec frame = .ok request →
      (codec.serialize (s.respond early request)).length ≤ s.limit) :
    ∃ reply response, s.dispatch codec early frame = .ok reply ∧
      rpcDecode codec reply = .ok response ∧ rpcId reply = .ok id.toNat ∧
      (response.status ≠ 0 → response.result = none) ∧
      (s.find name = none → ∀ ret, rpcCompletion codec ret (.response reply) =
        (.error (.remote 1 (Wire.utf8 "Method not found")), true)) ∧
      ∀ m, s.find name = some m →
        (¬ List.Forall₂ Fits args m.params → ∀ ret, rpcCompletion codec ret (.response reply) =
          (.error (.remote 2 (Wire.utf8 "Invalid method arguments")), true)) ∧
        ∀ xs, CarriesAll args m.params xs →
          (m.function xs = none → ∀ ret, rpcCompletion codec ret (.response reply) =
            (.error (.remote 3 (Wire.utf8 "Method execution failed")), true)) ∧
          ∀ value, m.function xs = some value →
            rpcCompletion codec m.ret (.response reply) = (.ok value, true) := by
  obtain ⟨request, reply, rfl, carried, answered, same, read, short⟩ :=
    exchange lawful early nonzero text sent within fits
  have formed := (RpcServer.respond_responds s early request).wellFormed
  have completed := rpcComplete_of_decoded read formed
  have refused : ∀ {status : UInt32} {error : String}, status ≠ 0 →
      s.respond early request = RpcServer.failure status error → ∀ ret,
        rpcCompletion codec ret (.response reply) =
          (.error (.remote status (Wire.utf8 error)), true) := by
    intro status error nonzero response ret
    have failed : rpcComplete codec ret reply = .error (.remote status (Wire.utf8 error)) := by
      rw [completed, response]
      exact if_pos nonzero
    simp [rpcCompletion, failed, Failure.code]
  refine ⟨reply, _, answered, read, same, formed.result_eq_none, fun missing => ?_,
    fun m found => ⟨fun bad => ?_, fun xs carries => ⟨fun threw => ?_, fun value ran => ?_⟩⟩⟩
  · exact refused (by decide) (RpcServer.respond_eq (.unknown missing))
  · refine refused (by decide) (RpcServer.respond_eq (.invalid found fun xs accepted => bad ?_))
    exact exists_carriesAll_iff.mp ⟨xs, (decodes_iff carried).mp accepted⟩
  · have decoded := (decodes_iff carried).mpr carries
    exact refused (by decide) (RpcServer.respond_eq (.failed found decoded threw))
  · have decoded := (decodes_iff carried).mpr carries
    have response : s.respond early request = store { type := .response } m.ret value :=
      RpcServer.respond_eq (.returned found decoded ran)
    obtain ⟨r, stored⟩ := exists_store_eq { type := .response } value
    have value_read := rpcResult_store value fun bytes message =>
      (lawful.length_message _ bytes message).trans_lt (response ▸ short)
    have finished : rpcComplete codec m.ret reply = .ok value := by
      rw [completed, response, if_neg, value_read]
      rw [stored]
      exact not_not.mpr rfl
    simp only [rpcCompletion, finished]

def int32 : Width := ⟨32, by decide, by decide⟩
def int64 : Width := ⟨64, by decide, by decide⟩

/-- The sum of two `int32_t` as an `int64_t`. -/
def add : Method where
  params := [.signed int32, .signed int32]
  ret := some (.signed int64)
  function := fun xs => some (BitVec.ofInt 64 (xs.1.toInt + xs.2.1.toInt))

/-- A server with that method. -/
def adding : RpcServer := { RpcServer.repeating 0 with
  methods := [(Wire.utf8 "add", add)]
  unique := by simp
  named := by
    intro entry mem
    rw [List.mem_singleton.mp mem]
    exact (by decide +kernel : Wire.utf8 "add" ≠ [] ∧ (Wire.utf8 "add").length ≤ 64) }

/-- `add(int64_t(-20), int32_t(62))`. -/
def sumArguments : List Argument :=
  [.value (.signed int64) (BitVec.ofInt 64 (-20)), .value (.signed int32) (BitVec.ofInt 32 62)]

theorem rpc_end_to_end_sum : ∃ frame reply,
    rpcCall wireRpcCodec {} 7 (Wire.utf8 "add") sumArguments = .ok frame ∧
      adding.dispatch wireRpcCodec false frame = .ok reply ∧ rpcId reply = .ok 7 ∧
      rpcCompletion wireRpcCodec (some (.signed int64)) (.response reply) =
        (.ok (BitVec.ofInt 64 42), true) := by
  let request : Envelope :=
    { method := Wire.utf8 "add", arguments := [.signed (-20), .signed 62] }
  have sent : rpcCall wireRpcCodec {} 7 (Wire.utf8 "add") sumArguments =
      .ok (rpcFrame wireRpcCodec 7 request) := by decide +kernel
  have decoded : rpcDecode wireRpcCodec (rpcFrame wireRpcCodec 7 request) = .ok request :=
    rpcDecode_frame wireRpcCodec_lawful (by decide +kernel) (by decide +kernel)
  have fits : ∀ r, rpcDecode wireRpcCodec (rpcFrame wireRpcCodec 7 request) = .ok r →
      (wireRpcCodec.serialize (adding.respond false r)).length ≤ adding.limit := by
    intro r read
    cases decoded.symm.trans read
    decide +kernel
  obtain ⟨reply, response, answered, -, same, -, -, known⟩ := rpc_end_to_end wireRpcCodec_lawful
    adding false (by decide) (by decide +kernel) sent (by decide +kernel) fits
  have carries : CarriesAll sumArguments add.params
      (BitVec.ofInt 32 (-20), BitVec.ofInt 32 62, ()) :=
    .cons (.signed (by decide)) (.cons (.signed (by decide)) .nil)
  have returned := ((known add rfl).2 _ carries).2 (BitVec.ofInt 64 42) rfl
  exact ⟨_, reply, sent, answered, same, returned⟩

end KVRPC.Client
