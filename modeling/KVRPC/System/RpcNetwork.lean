import KVRPC.Client.RpcClient
import KVRPC.System.Network

/-!
# Remote calls across the network

An `RpcClient` and an `RpcServer` with a network between them. The client's calls come from any
number of threads; its connections fail and are opened again, deadlines pass, and late responses
are dropped. The server handles the requests of a connection in any order. A call is executed at
most once, and if it comes back with a response it was executed once, and the response is that of
the callback registered under its name.
-/
namespace KVRPC.System

open Library Library.Framing Server Client

/-- The transport of an `RpcClient`, an `RpcServer`, and the connections between them. -/
structure RpcNetwork where
  codec : RpcCodec
  transport : AsyncTransport Error
  framing_eq : transport.framing = rpcFrameSize
  ids_eq : transport.ids = some rpcId
  server : RpcServer
  links : List (Nat × Nat)
  tokens : (links.map Prod.fst).Nodup
  conns : (links.map Prod.snd).Nodup

namespace RpcNetwork

def network (n : RpcNetwork) : Network Error Error where
  client := n.transport
  server := n.server.server
  sizer := rpcFrameSize
  sizer_eq := n.server.sizer_eq
  links := n.links
  tokens := n.tokens
  conns := n.conns
  Replies bytes reply := ∃ early, (n.server.handler n.codec early bytes).Answers 1 0 reply

instance (h : Handled) (reply : Reply) : Decidable (h.Answers 1 0 reply) :=
  match h with
  | .threw => instDecidableEqReply reply closeReply
  | .batch replies => inferInstanceAs (Decidable (if replies.length = 1 then
      replies[0]? = some reply else reply = closeReply))
  | .single bytes consumed => instDecidableEqReply reply ⟨consumed, bytes, false⟩

instance (n : RpcNetwork) (bytes : Bytes) (reply : Reply) :
    Decidable (n.network.Replies bytes reply) :=
  decidable_of_iff ((n.server.handler n.codec false bytes).Answers 1 0 reply ∨
    (n.server.handler n.codec true bytes).Answers 1 0 reply)
    ⟨fun either => either.elim (⟨false, ·⟩) (⟨true, ·⟩), fun
      | ⟨false, answers⟩ => .inl answers
      | ⟨true, answers⟩ => .inr answers⟩

/-- The request was made by a call of `Call`. -/
def Called (n : RpcNetwork) (c : Client.State) (r : Nat) (name : Bytes) (args : List Argument) :
    Prop :=
  ∃ id : UInt64, id ≠ 0 ∧ (c.heap r).id = id.toNat ∧
    rpcCall n.codec n.transport.options id name args = .ok (c.heap r).bytes

end RpcNetwork

/-! ## What `Dispatch` sends -/

section Dispatch

variable {codec : RpcCodec} {s : RpcServer} {early : Bool} {bytes response : Bytes}

theorem dispatch_eq_ok (sent : s.dispatch codec early bytes = .ok response) :
    ∃ request id, rpcDecode codec bytes = .ok request ∧ rpcId bytes = .ok id ∧
      (codec.serialize (s.respond early request)).length ≤ s.limit ∧
      response = rpcFrame codec (UInt64.ofNat id) (s.respond early request) := by
  unfold RpcServer.dispatch at sent
  cases decoded : rpcDecode codec bytes with
  | error e => rw [decoded] at sent; cases sent
  | ok request =>
    cases numbered : rpcId bytes with
    | error e => rw [decoded, numbered] at sent; cases sent
    | ok id =>
      simp only [decoded, numbered, Except.mapError, bind, Except.bind] at sent
      split at sent
      · cases sent
      · cases encoded : rpcEncode codec (UInt64.ofNat id) (s.respond early request) s.limit with
        | error e => rw [encoded] at sent; cases sent
        | ok frame =>
          rw [encoded] at sent
          cases sent
          obtain ⟨fits, same⟩ := rpcEncode_ok_iff.mp encoded
          exact ⟨request, id, rfl, rfl, fits, same⟩

/-- A response is a frame with the identifier of its request. -/
theorem dispatch_frame (small : s.limit < 2 ^ 31)
    (sent : s.dispatch codec early bytes = .ok response) :
    Frame rpcFrameSize response ∧ response.length ≤ s.limit + 16 ∧
      rpcId response = rpcId bytes := by
  obtain ⟨request, id, -, numbered, fits, rfl⟩ := dispatch_eq_ok sent
  have length : (rpcFrame codec (UInt64.ofNat id) (s.respond early request)).length =
      rpcHeader + (codec.serialize (s.respond early request)).length := length_rpcFrame
  have nonempty : rpcFrame codec (UInt64.ofNat id) (s.respond early request) ≠ [] := by
    rw [← List.length_pos_iff, length]
    unfold rpcHeader
    omega
  obtain ⟨nonzero, bound⟩ := rpcId_ok numbered
  have exact_ : (UInt64.ofNat id).toNat = id := by
    rw [UInt64.toNat_ofNat', Nat.mod_eq_of_lt bound]
  have identified : UInt64.ofNat id ≠ 0 := by
    intro zero
    rw [zero] at exact_
    exact nonzero exact_.symm
  refine ⟨⟨nonempty, rpcFrameSize_frame (fits.trans_lt small)⟩, ?_, ?_⟩
  · rw [length]
    unfold rpcHeader
    omega
  · rw [rpcId_frame identified, exact_, numbered]

/-- A reply that does not close the connection is a response. -/
theorem dispatched {reply : Reply} (answers : (s.handler codec early bytes).Answers 1 0 reply)
    (open_ : reply.close = false) : s.dispatch codec early bytes = .ok reply.bytes := by
  unfold RpcServer.handler at answers
  cases sent : s.dispatch codec early bytes with
  | error e =>
    rw [sent] at answers
    obtain rfl : reply = closeReply := answers
    cases open_
  | ok frame =>
    rw [sent] at answers
    obtain rfl : reply = ⟨bytes.length, frame, false⟩ := answers
    rfl

end Dispatch

namespace RpcNetwork

variable {n : RpcNetwork} {c : Client.State} {r : Nat} {name : Bytes} {args : List Argument}

/-- Every call has a request frame of its own. -/
theorem Called.frame (h : n.Called c r name args)
    (small : n.transport.options.maxFrameBytes < 2 ^ 31) :
    Frame rpcFrameSize (c.heap r).bytes ∧ rpcId (c.heap r).bytes = .ok (c.heap r).id := by
  obtain ⟨id, nonzero, numbered, sent⟩ := h
  obtain ⟨values, -, same, fits⟩ := rpcCall_ok sent
  rw [same, numbered]
  refine ⟨⟨?_, rpcFrameSize_frame (fits.trans_lt small)⟩, rpcId_frame nonzero⟩
  rw [← List.length_pos_iff, length_rpcFrame]
  unfold rpcHeader
  omega

theorem Called.suits (h : n.Called c r name args)
    (small : n.transport.options.maxFrameBytes < 2 ^ 31)
    (limit : n.server.limit ≤ n.transport.options.maxFrameBytes) :
    n.network.Suits (fun r => (c.heap r).id) (c.heap r).bytes r := by
  obtain ⟨frame, numbered⟩ := h.frame small
  refine ⟨frame, fun reply ⟨early, answers⟩ open_ => ?_⟩
  obtain ⟨response, within, same⟩ :=
    dispatch_frame (limit.trans_lt small) (dispatched answers open_)
  refine ⟨?_, ?_, fun ids has => ?_⟩
  · change Frame n.transport.framing reply.bytes
    rw [n.framing_eq]
    exact response
  · change reply.bytes.length ≤ n.transport.frameLimit
    rw [AsyncTransport.frameLimit, n.ids_eq, Option.isSome_some, if_pos rfl]
    omega
  · obtain rfl : rpcId = ids := Option.some.inj (n.ids_eq.symm.trans has)
    exact same.trans numbered

/-- What the callback has made of a call, as the client reads it. -/
theorem Called.responds (lawful : n.codec.Lawful) (h : n.Called c r name args)
    (text : Wire.utf8Valid name = true) (small : n.transport.options.maxFrameBytes < 2 ^ 31)
    (limit : n.server.limit ≤ n.transport.options.maxFrameBytes) {early : Bool} {response : Bytes}
    (sent : n.server.dispatch n.codec early (c.heap r).bytes = .ok response) :
    ∃ request answer, request.method = name ∧
      List.Forall₂ (fun a v => Argument.toValue a = .ok v) args request.arguments ∧
      n.server.Responds request answer ∧ rpcDecode n.codec response = .ok answer := by
  obtain ⟨id, -, -, called⟩ := h
  obtain ⟨values, carried, same, fits⟩ := rpcCall_ok called
  have textual : Envelope.Textual { method := name, arguments := values } := ⟨text, rfl⟩
  obtain ⟨request, id', decoded, -, within, rfl⟩ := dispatch_eq_ok sent
  rw [same, rpcDecode_frame lawful textual (fits.trans_lt small)] at decoded
  cases decoded
  have responds := RpcServer.respond_responds n.server early { method := name, arguments := values }
  exact ⟨_, _, rfl, carried, responds, rpcDecode_frame lawful responds.wellFormed.textual
    ((within.trans limit).trans_lt small)⟩

/-- **Remote calls.** Over all runs of client, network and server, in any interleaving, with
connections failing and deadlines passing: every call is executed at most once; a call that comes
back with a response has been executed exactly once, on its own request, and the response is what
its method responds to its arguments; and the client never has to refuse a frame. Identifiers are
not used twice before `next_` wraps around, frames are shorter than 2 GiB, and the client takes
responses as large as the server sends. -/
theorem calls_at_most_once (n : RpcNetwork) (lawful : n.codec.Lawful)
    (small : n.transport.options.maxFrameBytes < 2 ^ 31)
    (limit : n.server.limit ≤ n.transport.options.maxFrameBytes) {p : Pair}
    (reached : n.network.Reaches p) (distinct : p.client.ledger.Distinct)
    (calls : ∀ r ∈ p.client.accepted, ∃ name args, n.Called p.client r name args) :
    (∀ r ∈ p.client.accepted, (n.network.executions p r).length ≤ 1) ∧
    (∀ r b, (r, .response b) ∈ p.client.completed → ∃ call,
      n.network.executions p r = [call] ∧ call.2.bytes = b ∧
      ∀ name args, Wire.utf8Valid name = true → n.Called p.client r name args →
        ∃ request answer, request.method = name ∧
          List.Forall₂ (fun a v => Argument.toValue a = .ok v) args request.arguments ∧
          n.server.Responds request answer ∧ rpcDecode n.codec b = .ok answer) ∧
    ∀ token, ∀ f ∈ p.client.frames token, f.2 ≠ .unknown ∧ f.2 ≠ .invalid := by
  have framing : Lawful n.network.client.framing := n.framing_eq ▸ rpcFrameSize_lawful
  have sizer : Lawful n.network.sizer := rpcFrameSize_lawful
  have suits : n.network.AllSuit (fun r => (p.client.heap r).id) (fun r => (p.client.heap r).bytes)
      p.client := by
    intro r mem
    obtain ⟨name, args, called⟩ := calls r mem
    exact ⟨rfl, called.suits small limit⟩
  have apart : ∀ a ∈ p.client.accepted, ∀ b ∈ p.client.accepted,
      (p.client.heap a).bytes = (p.client.heap b).bytes → a = b := by
    intro a mem b mem' same
    obtain ⟨_, _, called⟩ := calls a mem
    obtain ⟨_, _, called'⟩ := calls b mem'
    have ids := (called.frame small).2.symm.trans (same ▸ (called'.frame small).2)
    exact distinct a mem b mem' (Except.ok.inj ids)
  have once : ∀ r ∈ p.client.accepted, (n.network.executions p r).length ≤ 1 :=
    fun r mem => reached.atMostOnce sizer suits apart mem
  obtain ⟨responses, frames⟩ := reached.responses framing sizer distinct suits
  refine ⟨once, fun r b mem => ?_, frames⟩
  obtain ⟨accepted, l, link, call, answered, input, rfl, open_⟩ := responses r b mem
  obtain ⟨handled, conn⟩ := List.mem_filter.mp answered
  have conn : call.1.complete.conn = l.2 := of_decide_eq_true conn
  have executed : call ∈ n.network.executions p r := by
    refine List.mem_filter.mpr ⟨handled, decide_eq_true ⟨?_, input⟩⟩
    exact List.mem_map.mpr ⟨l, link, conn.symm⟩
  refine ⟨call, ?_, rfl, fun name args text called => ?_⟩
  · obtain ⟨other, single⟩ := List.length_eq_one_iff.mp
      (le_antisymm (once r accepted) (List.length_pos_of_mem executed))
    rw [single, List.mem_singleton] at executed
    rw [single, executed]
  · obtain ⟨early, answers⟩ := reached.replied call handled
    rw [input] at answers
    exact called.responds lawful text small limit (dispatched answers open_)

/-- A client with one connection and a server that adds. -/
def calculator : RpcNetwork where
  codec := wireRpcCodec
  transport := rpcClient
  framing_eq := rfl
  ids_eq := rfl
  server := adding
  links := [(2, 0)]
  tokens := List.nodup_singleton _
  conns := List.nodup_singleton _

/-- The request of `add(-20, 62)` and the response to it. -/
def sumFrame (id : UInt64) : Bytes :=
  rpcFrame wireRpcCodec id { method := Wire.utf8 "add", arguments := [.signed (-20), .signed 62] }

def sumReply (id : UInt64) : Bytes :=
  rpcFrame wireRpcCodec id { type := .response, result := some (.signed 42) }

/-- Two calls are sent. The second is executed first and comes back; the first misses its
deadline and is executed afterwards. -/
def overtaking : List Network.Event :=
  [.client (.call (.submit 1 (sumFrame 1))), .client (.call (.post 0)),
    .client (.call (.submit 2 (sumFrame 2))), .client (.call (.post 1)),
    .client (.task { connects := [.connected], sends := [.wrote 100] }),
    .client (.task { sends := [.wrote 100] }), .server .accept, .server (.task 0 {}),
    .server (.ready 0 1 false { receives := [.data (sumFrame 1 ++ sumFrame 2)] }),
    .server (.take 0), .server (.take 1),
    .server (.handle 1 (.single (sumReply 2) (sumFrame 2).length)), .server (.complete 1),
    .client (.timer 1 {}), .server (.task 0 { sends := [.wrote 100] }),
    .client (.ready 2 { receives := [.data (sumReply 2)] }),
    .server (.handle 0 (.single (sumReply 1) (sumFrame 1).length)), .server (.complete 0),
    .server (.task 0 { sends := [.wrote 100] }),
    .client (.ready 2 { receives := [.data (sumReply 1)] })]

theorem calls_at_most_once_overtaking : ∃ p, calculator.network.Reaches p ∧
    p.client.completed = [(0, .error deadlineExceeded), (1, .response (sumReply 2))] ∧
    (calculator.network.executions p 0).length ≤ 1 ∧
    ∃ call, calculator.network.executions p 1 = [call] ∧ call.2.bytes = sumReply 2 := by
  obtain ⟨p, _, run, completed, accepted, distinct, first, second⟩ :=
    Run.after (.nil : calculator.network.Runs [] _) (show
      After calculator.network.step calculator.network.initial overtaking fun p =>
        p.client.completed = [(0, .error deadlineExceeded), (1, .response (sumReply 2))] ∧
        p.client.accepted = [0, 1] ∧ p.client.ledger.Distinct ∧
        ((p.client.heap 0).id = 1 ∧ (p.client.heap 0).bytes = sumFrame 1) ∧
        (p.client.heap 1).id = 2 ∧ (p.client.heap 1).bytes = sumFrame 2 by decide +kernel)
  have calls : rpcCall wireRpcCodec {} 1 (Wire.utf8 "add") sumArguments = .ok (sumFrame 1) ∧
      rpcCall wireRpcCodec {} 2 (Wire.utf8 "add") sumArguments = .ok (sumFrame 2) := by
    decide +kernel
  have reached := (Network.Runs.reaches run).2
  obtain ⟨once, responses, -⟩ := calls_at_most_once calculator wireRpcCodec_lawful (by decide)
    (by decide) reached distinct (by
      intro r mem
      refine ⟨Wire.utf8 "add", sumArguments, ?_⟩
      rw [accepted] at mem
      obtain rfl | rfl : r = 0 ∨ r = 1 := by simpa using mem
      · exact ⟨1, by decide, first.1, first.2 ▸ calls.1⟩
      · exact ⟨2, by decide, second.1, second.2 ▸ calls.2⟩)
  obtain ⟨call, executed, bytes, -⟩ := responses 1 (sumReply 2) (by simp [completed])
  exact ⟨p, reached, completed, once 0 (by simp [accepted]), call, executed, bytes⟩

end RpcNetwork
end KVRPC.System
