import KVRPC.Protocol.Envelope
import KVRPC.Server.JobQueue

/-!
# The RPC server

`RpcServer` of `rpc_server.h`: a table of typed methods, and `Dispatch`, which turns a request
frame into a response frame. Whatever a callback does is answered with a response, but the
response is encoded outside the `try` block: one that exceeds the limit makes `Dispatch` throw.
-/
namespace KVRPC.Server

open Library

/-- What a callback of a return type returns; `none` is `void`. -/
abbrev Returned : Option RpcType → Type
  | none => Unit
  | some τ => τ.Carrier

/-- A callback with its types. It throws, whatever it throws, by returning `none`. -/
structure Method where
  params : List RpcType
  ret : Option RpcType
  function : Tuple params → Option (Returned ret)

/-- What leaves the function object that `Register` makes. -/
inductive Refusal where
  | badArguments
  | other
  deriving DecidableEq

def decode : (τs : List RpcType) → List Value → Except Error (Tuple τs)
  | [], _ => .ok ()
  | τ :: τs, values => do
    let x ← fromValue τ (values.headD .unset)
    let xs ← decode τs values.tail
    return (x, xs)

/-- The result of a callback in the response. -/
def store (result : Envelope) : (ret : Option RpcType) → Returned ret → Envelope
  | none, _ => result
  | some τ, value => { result with result := some (toValue τ value) }

/-- Storing a result changes nothing else. -/
theorem exists_store_eq (result : Envelope) {ret : Option RpcType} (value : Returned ret) :
    ∃ r, store result ret value = { result with result := r } := by
  cases ret with
  | none => exact ⟨result.result, rfl⟩
  | some τ => exact ⟨_, rfl⟩

namespace Method

/-- The function object for a method, with the response as it leaves it. The arguments of
`ToValue` are evaluated in any order: `early` says that the result has been created when the
callback runs. -/
def invoke (m : Method) (early : Bool) (request result : Envelope) :
    Except Refusal Unit × Envelope :=
  if request.arguments.length ≠ m.params.length then (.error .badArguments, result)
  else
    match decode m.params request.arguments with
    | .error _ => (.error .badArguments, result)
    | .ok args =>
      match m.function args with
      | some value => (.ok (), store result m.ret value)
      | none =>
        (.error .other,
          if early ∧ m.ret.isSome then { result with result := some .unset } else result)

end Method

/-- The constructor passes `max_payload + RPC_HEADER` on, a sum of `size_t` values, and
`Register` keeps the table of methods free of duplicates. -/
structure RpcServer where
  limit : Nat
  limit_lt : limit < 2 ^ 64
  server : TcpServer Error
  sizer_eq : server.sizer = some rpcFrameSize
  handler_eq : server.batchHandler = false
  maxFrameBytes_eq : server.maxFrameBytes = (limit + rpcHeader) % 2 ^ 64
  methods : List (Bytes × Method)
  unique : (methods.map Prod.fst).Nodup
  named : ∀ entry ∈ methods, entry.1 ≠ [] ∧ entry.1.length ≤ limit

namespace RpcServer

def register (s : RpcServer) (name : Bytes) (m : Method) : Except Exception RpcServer :=
  if valid : name = [] ∨ name.length > s.limit then .error (invalidArgument "Invalid method name")
  else if fresh : name ∈ s.methods.map Prod.fst then
    .error (invalidArgument "Duplicate RPC method")
  else .ok { s with
    methods := (name, m) :: s.methods
    unique := List.nodup_cons.mpr ⟨fresh, s.unique⟩
    named := by
      intro entry mem
      rcases List.mem_cons.mp mem with rfl | mem
      · rw [not_or, Nat.not_lt] at valid
        exact valid
      · exact s.named entry mem }

/-- The methods of the table by their names. -/
def find (s : RpcServer) (name : Bytes) : Option Method := s.methods.lookup name

/-- The response with an error. -/
def failure (status : UInt32) (error : String) : Envelope :=
  { type := .response, status := status, error := Wire.utf8 error }

def methodNotFound : Envelope := failure 1 "Method not found"
def invalidArguments : Envelope := failure 2 "Invalid method arguments"
def executionFailed : Envelope := failure 3 "Method execution failed"

/-- The response to a request, whichever way the callback ends. -/
def respond (s : RpcServer) (early : Bool) (request : Envelope) : Envelope :=
  let result : Envelope := { type := .response }
  match s.find request.method with
  | none => { result with status := 1, error := Wire.utf8 "Method not found" }
  | some m =>
    match m.invoke early request result with
    | (.ok (), result) => result
    | (.error .badArguments, result) =>
      { result with
        result := none, status := 2, error := Wire.utf8 "Invalid method arguments" }
    | (.error .other, result) =>
      { result with
        result := none, status := 3, error := Wire.utf8 "Method execution failed" }

variable (codec : RpcCodec)

def dispatch (s : RpcServer) (early : Bool) (bytes : Bytes) : Except Thrown Bytes := do
  let request ← (rpcDecode codec bytes).mapError .error
  let id ← (rpcId bytes).mapError .error
  if request.type ≠ .request then .error (.exception (runtimeError "Expected RPC request"))
  else (rpcEncode codec (UInt64.ofNat id) (s.respond early request) s.limit).mapError .error

/-- The call of the handler in `Work`; it reports the whole input as consumed. -/
def handler (s : RpcServer) (early : Bool) (bytes : Bytes) : Handled :=
  match s.dispatch codec early bytes with
  | .ok response => .single response bytes.length
  | .error _ => .threw

end RpcServer

/-! ## Arguments -/

section Arguments

variable {args : List Argument} {values : List Value} {τs : List RpcType}

/-- The number of the values is right and each of them is accepted. -/
def Decodes (τs : List RpcType) (values : List Value) (xs : Tuple τs) : Prop :=
  values.length = τs.length ∧ decode τs values = .ok xs

theorem Decodes.unique {xs ys : Tuple τs} (h : Decodes τs values xs) (h' : Decodes τs values ys) :
    xs = ys := Except.ok.inj (h.2.symm.trans h'.2)

theorem decodes_cons_iff {τ : RpcType} {v : Value} {x : τ.Carrier} {xs : Tuple τs} :
    Decodes (τ :: τs) (v :: values) (x, xs) ↔ fromValue τ v = .ok x ∧ Decodes τs values xs := by
  simp only [Decodes, decode, List.headD_cons, List.tail_cons, List.length_cons,
    Nat.add_right_cancel_iff, bind, Except.bind]
  cases fromValue τ v with
  | error e => simp
  | ok y =>
    cases decode τs values with
    | error e => simp
    | ok ys => simp [pure, Except.pure, and_left_comm]

/-- The server accepts the values of a list of arguments exactly if the parameters can have
them. -/
theorem decodes_iff (sent : List.Forall₂ (fun a v => Argument.toValue a = .ok v) args values)
    {xs : Tuple τs} : Decodes τs values xs ↔ CarriesAll args τs xs := by
  induction sent generalizing τs with
  | nil =>
    cases τs with
    | nil => exact iff_of_true ⟨rfl, rfl⟩ .nil
    | cons => exact iff_of_false (by simp [Decodes]) nofun
  | cons head _ ih =>
    cases τs with
    | nil => exact iff_of_false (by simp [Decodes]) nofun
    | cons τ τs =>
      obtain ⟨x, xs⟩ := xs
      rw [decodes_cons_iff, fromValue_ok_iff head, ih]
      constructor
      · exact fun ⟨first, rest⟩ => .cons first rest
      · rintro (_ | ⟨first, rest⟩)
        exact ⟨first, rest⟩

end Arguments

/-! ## Responses -/

namespace RpcServer

variable {codec : RpcCodec} {s : RpcServer} {request : Envelope} {early : Bool}

/-- The responses to a request. -/
inductive Responds (s : RpcServer) (request : Envelope) : Envelope → Prop
  | unknown (missing : s.find request.method = none) : Responds s request methodNotFound
  | invalid {m : Method} (found : s.find request.method = some m)
      (bad : ∀ xs, ¬ Decodes m.params request.arguments xs) : Responds s request invalidArguments
  | failed {m : Method} {xs : Tuple m.params} (found : s.find request.method = some m)
      (decoded : Decodes m.params request.arguments xs) (threw : m.function xs = none) :
      Responds s request executionFailed
  | returned {m : Method} {xs : Tuple m.params} {value : Returned m.ret}
      (found : s.find request.method = some m)
      (decoded : Decodes m.params request.arguments xs) (returned : m.function xs = some value) :
      Responds s request (store { type := .response } m.ret value)

theorem respond_responds (s : RpcServer) (early : Bool) (request : Envelope) :
    Responds s request (s.respond early request) := by
  unfold respond
  cases found : s.find request.method with
  | none => exact .unknown found
  | some m =>
    simp only [Method.invoke]
    by_cases count : request.arguments.length = m.params.length
    · rw [if_neg (not_not.mpr count)]
      cases decoded : decode m.params request.arguments with
      | error e => exact .invalid found fun xs accepted => by simp [accepted.2] at decoded
      | ok xs =>
        dsimp only
        cases ran : m.function xs with
        | some value => exact .returned found ⟨count, decoded⟩ ran
        | none =>
          have failed : Responds s request executionFailed := .failed found ⟨count, decoded⟩ ran
          dsimp only
          split <;> exact failed
    · rw [if_pos count]
      exact .invalid found fun xs accepted => count accepted.1

/-- There is one response to a request. -/
theorem Responds.unique {r r' : Envelope} (h : Responds s request r)
    (h' : Responds s request r') : r = r' := by
  cases h with
  | unknown missing =>
    cases h' with
    | unknown => rfl
    | invalid found | failed found | returned found => cases missing.symm.trans found
  | invalid found bad =>
    cases h' with
    | unknown missing => cases missing.symm.trans found
    | invalid => rfl
    | failed found' decoded | returned found' decoded =>
      cases found.symm.trans found'
      exact absurd decoded (bad _)
  | failed found decoded threw =>
    cases h' with
    | unknown missing => cases missing.symm.trans found
    | invalid found' bad =>
      cases found.symm.trans found'
      exact absurd decoded (bad _)
    | failed => rfl
    | returned found' decoded' ran =>
      cases found.symm.trans found'
      cases decoded.unique decoded'
      cases threw.symm.trans ran
  | returned found decoded ran =>
    cases h' with
    | unknown missing => cases missing.symm.trans found
    | invalid found' bad =>
      cases found.symm.trans found'
      exact absurd decoded (bad _)
    | failed found' decoded' threw =>
      cases found.symm.trans found'
      cases decoded.unique decoded'
      cases threw.symm.trans ran
    | returned found' decoded' ran' =>
      cases found.symm.trans found'
      cases decoded.unique decoded'
      cases ran.symm.trans ran'
      rfl

theorem respond_eq {response : Envelope} (h : Responds s request response) :
    s.respond early request = response := (respond_responds s early request).unique h

/-- What every response has in common. -/
structure WellFormed (response : Envelope) : Prop where
  type_eq : response.type = .response
  status_le : response.status ≤ 3
  textual : response.Textual
  result_eq_none : response.status ≠ 0 → response.result = none

theorem Responds.wellFormed {response : Envelope} (h : Responds s request response) :
    WellFormed response := by
  cases h with
  | @returned m xs value =>
    obtain ⟨r, same⟩ := exists_store_eq { type := .response } value
    rw [same]
    exact ⟨rfl, UInt32.zero_le, ⟨rfl, rfl⟩, absurd rfl⟩
  | unknown | invalid | failed => exact ⟨rfl, by decide, by decide +kernel, fun _ => rfl⟩

/-- A server that takes frames at all has a limit that does not wrap around. -/
theorem limit_add (s : RpcServer) (serves : rpcHeader ≤ s.server.maxFrameBytes) :
    s.limit + rpcHeader = s.server.maxFrameBytes ∧ s.limit < 2 ^ 31 := by
  have sum := s.maxFrameBytes_eq
  have small := s.limit_lt
  have bound := s.server.maxFrameBytes_le
  unfold rpcHeader at *
  omega

theorem dispatch_eq {bytes : Bytes} {id : Nat} (decoded : rpcDecode codec bytes = .ok request)
    (numbered : rpcId bytes = .ok id) (typed : request.type = .request) :
    s.dispatch codec early bytes =
      (rpcEncode codec (UInt64.ofNat id) (s.respond early request) s.limit).mapError .error := by
  simp only [dispatch, decoded, numbered, Except.mapError, bind, Except.bind, typed, ne_eq,
    not_true_eq_false, if_false]

/-- A response within the limit is sent in a frame of its own. -/
theorem dispatch_ok (lawful : codec.Lawful) {bytes : Bytes} {id : Nat}
    (decoded : rpcDecode codec bytes = .ok request) (numbered : rpcId bytes = .ok id)
    (typed : request.type = .request) (within : bytes.length ≤ s.server.maxFrameBytes)
    (fits : (codec.serialize (s.respond early request)).length ≤ s.limit) :
    ∃ frame, s.dispatch codec early bytes = .ok frame ∧ rpcId frame = .ok id ∧
      rpcDecode codec frame = .ok (s.respond early request) ∧
      frame.length ≤ s.server.maxFrameBytes := by
  have long : rpcHeader ≤ bytes.length := by
    by_contra short
    rw [rpcDecode, if_pos (Nat.not_le.mp short)] at decoded
    cases decoded
  obtain ⟨sum, small⟩ := s.limit_add (long.trans within)
  obtain ⟨nonzero, bound⟩ := rpcId_ok numbered
  have exact_ : (UInt64.ofNat id).toNat = id := by
    rw [UInt64.toNat_ofNat', Nat.mod_eq_of_lt bound]
  have identified : UInt64.ofNat id ≠ 0 := by
    intro zero
    rw [zero] at exact_
    exact nonzero exact_.symm
  refine ⟨rpcFrame codec (UInt64.ofNat id) (s.respond early request), ?_, ?_, ?_, ?_⟩
  · rw [dispatch_eq decoded numbered typed, rpcEncode_of_le fits]
    rfl
  · rw [rpcId_frame identified, exact_]
  · exact rpcDecode_frame lawful (respond_responds s early request).wellFormed.textual (by omega)
  · rw [length_rpcFrame]
    omega

/-- A response beyond the limit is not sent. -/
theorem dispatch_error {bytes : Bytes} {id : Nat} (decoded : rpcDecode codec bytes = .ok request)
    (numbered : rpcId bytes = .ok id) (typed : request.type = .request)
    (large : ¬ (codec.serialize (s.respond early request)).length ≤ s.limit) :
    s.dispatch codec early bytes =
      .error (.error ⟨.invalidArgument, "RPC payload exceeds limit"⟩) := by
  rw [dispatch_eq decoded numbered typed, rpcEncode, if_pos (Nat.not_le.mp large)]
  rfl

/-- What the callback returns for the request, if it is called and returns, makes a response
within the limit. -/
def ResultFits (codec : RpcCodec) (s : RpcServer) (request : Envelope) : Prop :=
  ∀ (m : Method) (xs : Tuple m.params) (value : Returned m.ret),
    s.find request.method = some m → Decodes m.params request.arguments xs →
    m.function xs = some value →
    (codec.serialize (store { type := .response } m.ret value)).length ≤ s.limit

theorem respond_fits_iff (early : Bool)
    (errors : ∀ response ∈ [methodNotFound, invalidArguments, executionFailed],
      (codec.serialize response).length ≤ s.limit) :
    (codec.serialize (s.respond early request)).length ≤ s.limit ↔
      ResultFits codec s request := by
  constructor
  · intro fits m xs value found accepted ran
    rwa [respond_eq (.returned found accepted ran)] at fits
  · intro results
    have responds := respond_responds s early request
    generalize s.respond early request = response at responds
    cases responds with
    | unknown | invalid | failed => exact errors _ (by simp)
    | returned found accepted ran => exact results _ _ _ found accepted ran

/-- **What a callback does is answered**, exactly as long as the response with its result is
within the limit: for every table of methods and every request frame, `Dispatch` then returns a
response with the identifier of the request and a status of at most three, within the limit on
frames. -/
theorem callback_answered (lawful : codec.Lawful) (s : RpcServer) (early : Bool) {bytes : Bytes}
    {id : Nat} (decoded : rpcDecode codec bytes = .ok request) (numbered : rpcId bytes = .ok id)
    (typed : request.type = .request) (within : bytes.length ≤ s.server.maxFrameBytes)
    (errors : ∀ response ∈ [methodNotFound, invalidArguments, executionFailed],
      (codec.serialize response).length ≤ s.limit) :
    ((∃ frame, s.dispatch codec early bytes = .ok frame) ↔ ResultFits codec s request) ∧
    ∀ frame, s.dispatch codec early bytes = .ok frame → ∃ response,
      s.handler codec early bytes = .single frame bytes.length ∧
      rpcDecode codec frame = .ok response ∧ rpcId frame = .ok id ∧
      response.type = .response ∧ response.status ≤ 3 ∧
      (codec.serialize response).length ≤ s.limit ∧ frame.length ≤ s.server.maxFrameBytes := by
  rw [← respond_fits_iff early errors]
  by_cases fits : (codec.serialize (s.respond early request)).length ≤ s.limit
  · obtain ⟨frame, sent, same, read, short⟩ :=
      dispatch_ok lawful decoded numbered typed within fits
    refine ⟨iff_of_true ⟨frame, sent⟩ fits, fun frame' sent' => ?_⟩
    cases sent.symm.trans sent'
    have formed := (respond_responds s early request).wellFormed
    refine ⟨_, ?_, read, same, formed.type_eq, formed.status_le, fits, short⟩
    rw [handler, sent]
  · have thrown := dispatch_error decoded numbered typed fits
    rw [thrown]
    exact ⟨iff_of_false (by simp) fits, by simp⟩

/-- A server for payloads of at most 64 octets with one method, which repeats its argument a number
of times. -/
def repeating (times : Nat) : RpcServer where
  limit := 64
  limit_lt := by decide
  server := {
    maxConnections := 1
    maxFrameBytes := 80
    options := .initial 80
    batchHandler := false
    sizer := some rpcFrameSize
    maxConnections_pos := Nat.one_pos
    maxFrameBytes_pos := by decide
    maxFrameBytes_le := by decide
    configured := ServerOptions.initial_valid }
  sizer_eq := rfl
  handler_eq := rfl
  maxFrameBytes_eq := rfl
  methods := [(Wire.utf8 "repeat", {
    params := [.string]
    ret := some .string
    function := fun xs => some (List.replicate times xs.1).flatten })]
  unique := List.nodup_singleton _
  named := by
    intro entry mem
    rw [List.mem_singleton.mp mem]
    exact (by decide +kernel : Wire.utf8 "repeat" ≠ [] ∧ (Wire.utf8 "repeat").length ≤ 64)

/-- A call of that method. -/
def repeatRequest : Envelope := { method := Wire.utf8 "repeat", arguments := [.string [1, 2]] }

theorem repeatRequest_decoded :
    rpcDecode wireRpcCodec (rpcFrame wireRpcCodec 7 repeatRequest) = .ok repeatRequest :=
  rpcDecode_frame wireRpcCodec_lawful (by decide +kernel) (by decide +kernel)

theorem repeating_errors_fit (times : Nat) :
    ∀ response ∈ [methodNotFound, invalidArguments, executionFailed],
      (wireRpcCodec.serialize response).length ≤ (repeating times).limit := by
  change ∀ response ∈ [methodNotFound, invalidArguments, executionFailed],
    (wireRpcCodec.serialize response).length ≤ 64
  decide +kernel

/-- The result is sent back three times. -/
theorem callback_answered_three : ∃ frame response,
    (repeating 3).dispatch wireRpcCodec true (rpcFrame wireRpcCodec 7 repeatRequest) = .ok frame ∧
      rpcDecode wireRpcCodec frame = .ok response ∧ rpcId frame = .ok 7 ∧
      response.status ≤ 3 := by
  have seven : (7 : UInt64) ≠ 0 := by decide
  have results : ResultFits wireRpcCodec (repeating 3) repeatRequest := by
    intro m xs value found accepted ran
    cases found
    obtain ⟨text, ⟨⟩⟩ := xs
    cases accepted.2
    cases ran
    decide +kernel
  obtain ⟨answered, answer⟩ := callback_answered wireRpcCodec_lawful (repeating 3) true
    repeatRequest_decoded (rpcId_frame seven) rfl (by decide +kernel) (repeating_errors_fit 3)
  obtain ⟨frame, sent⟩ := answered.mpr results
  obtain ⟨response, -, read, same, -, status, -⟩ := answer frame sent
  exact ⟨frame, response, sent, read, same, status⟩

/-- The callback returns, but its result makes `Dispatch` throw, and the worker that called it
answers by closing the connection. -/
theorem callback_closes : ∃ bytes,
    rpcDecode wireRpcCodec bytes = .ok repeatRequest ∧ repeatRequest.type = .request ∧
      rpcId bytes = .ok 7 ∧ bytes.length ≤ (repeating 40).server.maxFrameBytes ∧
      (∀ response ∈ [methodNotFound, invalidArguments, executionFailed],
        (wireRpcCodec.serialize response).length ≤ (repeating 40).limit) ∧
      (repeating 40).dispatch wireRpcCodec true bytes =
        .error (.error ⟨.invalidArgument, "RPC payload exceeds limit"⟩) ∧
      (repeating 40).handler wireRpcCodec true bytes = .threw ∧
      ((repeating 40).handler wireRpcCodec true bytes).Answers 1 0 closeReply := by
  have seven : (7 : UInt64) ≠ 0 := by decide
  have large : ¬ (wireRpcCodec.serialize ((repeating 40).respond true repeatRequest)).length ≤
      (repeating 40).limit := by decide +kernel
  have threw : (repeating 40).dispatch wireRpcCodec true (rpcFrame wireRpcCodec 7 repeatRequest) =
      .error (.error ⟨.invalidArgument, "RPC payload exceeds limit"⟩) :=
    dispatch_error repeatRequest_decoded (rpcId_frame seven) rfl large
  have handled : (repeating 40).handler wireRpcCodec true (rpcFrame wireRpcCodec 7 repeatRequest) =
      .threw := by
    rw [handler, threw]
  refine ⟨rpcFrame wireRpcCodec 7 repeatRequest, repeatRequest_decoded, rfl, rpcId_frame seven,
    by decide +kernel, repeating_errors_fit 40, threw, handled, ?_⟩
  rw [handled]
  rfl

end RpcServer
end KVRPC.Server
