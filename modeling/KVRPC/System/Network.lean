import KVRPC.Client.Correlation
import KVRPC.Client.Traffic
import KVRPC.Library.Simulation
import KVRPC.Server.Pipelined

/-!
# A client and a server

A transport and a server run side by side, in any interleaving of their steps. Between them is a
network that keeps octets in order and makes none up: what one side has received on a connection
is at all times a beginning of what the other has sent. Some connections of the server are linked
to sessions of the client; the others belong to other clients, of which nothing is assumed.

To the client, a linked connection behaves well (`Linked`): the replies of the handler are
answers to the requests they were computed from. So the correlation of responses, which the
transport guarantees towards well-behaved servers, holds towards this server.
-/
namespace KVRPC.System

open Library Net Library.Framing Relation
open scoped List

variable {ε ε' : Type}

/-- A transport and a server, with the connection of the server that each linked session of the
client leads to. -/
structure Network (ε ε' : Type) where
  client : Client.AsyncTransport ε
  server : Server.TcpServer ε'
  sizer : Sizer ε'
  sizer_eq : server.sizer = some sizer
  links : List (Nat × Nat)
  tokens : (links.map Prod.fst).Nodup
  conns : (links.map Prod.snd).Nodup
  /-- What a call of the handler may reply to a frame. -/
  Replies : Bytes → Server.Reply → Prop

/-- The octets of the requests that have been sent completely over a session. -/
def outgoing (c : Client.State) (token : Nat) : Bytes :=
  ((Client.sents (c.wire token)).map fun r => (c.heap r).bytes).flatten

/-- The server has received no more than what was sent over the session: complete requests, and a
part of one more. -/
def Arrives (c : Client.State) (token : Nat) (received : Bytes) : Prop :=
  received <+: outgoing c token ∨
    ∃ ref ∈ c.accepted, received <+: outgoing c token ++ (c.heap ref).bytes.dropLast

instance (c : Client.State) (token : Nat) (received : Bytes) :
    Decidable (Arrives c token received) :=
  inferInstanceAs (Decidable (_ ∨ _))

/-- The two sides at one moment. -/
structure Pair where
  phase : Client.Phase := {}
  client : Client.State := {}
  server : Server.State

namespace Network

/-- The client has received nothing but what the server has sent. -/
structure Answered (n : Network ε ε') (c : Client.State) (s : Server.State) : Prop where
  linked : ∀ l ∈ n.links, Client.octets (c.wire l.1) <+: (s.conns l.2).delivered
  others : ∀ token, token ∉ n.links.map Prod.fst → Client.octets (c.wire token) = []

/-- The server has received nothing on the links but what the client has sent, and the handler
has been what it is. -/
structure Asked (n : Network ε ε') (c : Client.State) (s : Server.State) : Prop where
  linked : ∀ l ∈ n.links, Arrives c l.1 (s.conns l.2).received
  replied : ∀ call ∈ s.handled, n.Replies call.1.input call.2

/-- One of the sides takes a step. -/
inductive Step (n : Network ε ε') : Pair → Pair → Prop
  | client {p : Pair} {x : Client.Phase} {c : Client.State}
      (step : Client.Step n.client (p.phase, p.client) (x, c)) (answered : n.Answered c p.server) :
      Step n p { p with phase := x, client := c }
  | server {p : Pair} {s : Server.State} (act : Server.Act n.server p.server s)
      (asked : n.Asked p.client s) : Step n p { p with server := s }

def initial (n : Network ε ε') : Pair := { server := .initial n.server }

/-- The pairs of states that are reached from the start. -/
abbrev Reaches (n : Network ε ε') (p : Pair) : Prop := ReflTransGen n.Step n.initial p

variable {n : Network ε ε'} {p p' : Pair}

theorem Reaches.client (h : n.Reaches p) : Client.Steps n.client ({}, {}) (p.phase, p.client) := by
  induction h with
  | refl => exact .refl
  | tail _ step ih =>
    cases step with
    | client step _ => exact ih.tail step
    | server _ _ => exact ih

theorem Reaches.server (h : n.Reaches p) :
    Server.Acts n.server (.initial n.server) p.server := by
  induction h with
  | refl => exact .refl
  | tail _ step ih =>
    cases step with
    | client _ _ => exact ih
    | server act _ => exact ih.tail act

theorem Reaches.replied (h : n.Reaches p) :
    ∀ call ∈ p.server.handled, n.Replies call.1.input call.2 := by
  induction h with
  | refl => exact fun _ mem => nomatch mem
  | tail _ step ih =>
    cases step with
    | client _ _ => exact ih
    | server _ asked => exact asked.replied

theorem Reaches.silent (h : n.Reaches p) {token : Nat} (other : token ∉ n.links.map Prod.fst) :
    Client.octets (p.client.wire token) = [] := by
  induction h with
  | refl => rfl
  | tail _ step ih =>
    cases step with
    | client _ answered => exact answered.others token other
    | server _ _ => exact ih

/-- What is known of the client alone. -/
theorem Reaches.sentOnce (h : n.Reaches p) :
    p.client.ledger.Sound ∧ Client.Placed n.client p.phase p.client ∧ Client.SentOnce p.client := by
  refine ⟨Client.Steps.sound h.client Client.sound_init, ?_⟩
  refine Client.Steps.invariant h.client
    (fun x s => Client.Placed n.client x s ∧ Client.SentOnce s) ⟨.init, .init⟩ ?_
  intro x s x' s' sound inv step
  exact ⟨inv.1.step sound step, inv.2.step sound inv.1 step⟩

/-- What is known of the server alone. -/
structure Healthy (n : Network ε ε') (s : Server.State) : Prop where
  base : Server.Base n.server s
  served : Server.AllServed n.server s
  orderly : ∀ c, Server.Orderly n.server (s.conns c)
  framed : ∀ c, Server.Framed n.server n.sizer (s.conns c)

theorem Reaches.healthy (lawful : Lawful n.sizer) (h : n.Reaches p) : n.Healthy p.server := by
  have inv := Server.Acts.invariant h.server
    (P := fun s => (∀ c, Server.Orderly n.server (s.conns c)) ∧
      ∀ c, Server.Framed n.server n.sizer (s.conns c))
    ⟨.initial _, .initial _, .initial _, fun _ => .initial,
      fun _ => .initial⟩
    fun base served inv act => ⟨Server.Orderly.act inv.1 base served act, fun c =>
      (inv.2 c).turn lawful n.sizer_eq (served c) (act.turn base c)⟩
  obtain ⟨base, -, served, orderly, framed⟩ := inv
  exact ⟨base, served, orderly, framed⟩

end Network

/-! ## The server behaves well -/

/-- A part of a frame holds no frame. -/
theorem not_complete_dropLast {sizer : Sizer ε'} (lawful : Lawful sizer) {f : Bytes}
    (frame : Frame sizer f) (size : Nat) : ¬ Complete sizer f.dropLast size := by
  rintro ⟨result, positive, enough⟩
  rw [List.length_dropLast] at enough
  have whole : f.dropLast ++ [f.getLast frame.1] = f ++ [] := by
    rw [List.dropLast_append_getLast, List.append_nil]
  obtain early | announced := frame.front lawful whole
  · rw [early] at result
    cases result
    exact positive.ne rfl
  · rw [announced] at result
    cases result
    have nonempty := List.length_pos_iff.mpr frame.1
    omega

/-- What the server has cut off the stream are the first of the requests sent. -/
theorem Arrives.submitted {t : Server.TcpServer ε'} {sizer : Sizer ε'} (lawful : Lawful sizer)
    {c : Client.State} {token : Nat} {conn : Server.Connection} (h : Arrives c token conn.received)
    (framed : Server.Framed t sizer conn) (frames : ∀ r ∈ c.accepted, Frame sizer (c.heap r).bytes)
    (known : ∀ r ∈ Client.sents (c.wire token), r ∈ c.accepted) :
    conn.submitted <+: (Client.sents (c.wire token)).map fun r => (c.heap r).bytes := by
  have sent : ∀ f ∈ (Client.sents (c.wire token)).map fun r => (c.heap r).bytes,
      Frame sizer f := by
    intro f mem
    obtain ⟨r, member, rfl⟩ := List.mem_map.mp mem
    exact frames r (known r member)
  obtain whole | ⟨ref, member, part⟩ := h
  · refine frames_prefix lawful whole framed.split framed.frames
      ⟨(List.append_nil _).symm, sent, fun size complete => ?_⟩
    rw [Complete, lawful.empty] at complete
    obtain ⟨zero, positive, -⟩ := complete
    cases zero
    exact positive.ne rfl
  · exact frames_prefix lawful part framed.split framed.frames
      ⟨rfl, sent, not_complete_dropLast lawful (frames ref member)⟩

/-- A request the server can read and the replies to it are answers. -/
structure Network.Suits (n : Network ε ε') (idOf : Nat → Nat) (request : Bytes) (r : Nat) :
    Prop where
  frame : Frame n.sizer request
  answer : ∀ reply, n.Replies request reply → reply.close = false →
    Client.Answer n.client idOf r reply.bytes

/-- The answer is what the handler has replied to the request. -/
structure Matches (bytesOf : Nat → Bytes) (answer : Nat × Bytes)
    (call : Server.Job Server.Completion × Server.Reply) : Prop where
  input : call.1.input = bytesOf answer.1
  bytes : answer.2 = call.2.bytes
  open_ : call.2.close = false

/-- The calls of the handler for a connection, as the client sees them. -/
def Network.Linked (n : Network ε ε') (idOf : Nat → Nat) (bytesOf : Nat → Bytes) (p : Pair)
    (token conn : Nat) : Prop :=
  ∃ peer sent, Server.Tracks n.server p.server conn sent ∧
    Client.WellBehaved n.client idOf (p.client.wire token) peer ∧
    List.Forall₂ (Matches bytesOf) peer.answers sent

namespace Network.Linked

variable {n : Network ε ε'} {idOf : Nat → Nat} {bytesOf : Nat → Bytes} {p : Pair}
  {token conn : Nat}

theorem replies_eq {answers : List (Nat × Bytes)}
    {sent : List (Server.Job Server.Completion × Server.Reply)}
    (h : List.Forall₂ (Matches bytesOf) answers sent) :
    (answers.map Prod.snd).flatten = Server.replyBytes sent ∧
      answers.map (fun a => bytesOf a.1) = sent.map fun call => call.1.input := by
  induction h with
  | nil => exact ⟨rfl, rfl⟩
  | cons same _ ih =>
    refine ⟨?_, ?_⟩
    · simp only [List.map_cons, List.flatten_cons, ih.1, same.bytes, Server.replyBytes]
    · simp only [List.map_cons, ih.2, same.input]

/-- The client takes a step. -/
theorem client (h : n.Linked idOf bytesOf p token conn) {x : Client.Phase} {c : Client.State}
    (step : Client.Step n.client (p.phase, p.client) (x, c))
    (answered : Client.octets (c.wire token) <+: (p.server.conns conn).delivered) :
    n.Linked idOf bytesOf { p with phase := x, client := c } token conn := by
  obtain ⟨peer, sent, tracks, behaved, answers⟩ := h
  have same : c.wire token = p.client.wire token →
      n.Linked idOf bytesOf { p with phase := x, client := c } token conn := by
    intro wire
    exact ⟨peer, sent, tracks, wire ▸ behaved, answers⟩
  cases step.transfer with
  | quiet wire _ => exact same (congrFun wire token)
  | assigned _ _ _ wire _ _ => exact same (congrFun wire token)
  | sent i ref _ _ wire _ =>
    by_cases here : token = (p.client.sockets i).token
    · have grown : c.wire token = p.client.wire token ++ [.sent ref] := by
        rw [wire, here, Function.update_self]
      exact ⟨peer.request ref, sent, tracks, grown ▸ behaved.request ref, answers⟩
    · exact same (by rw [wire, Function.update_of_ne here])
  | received i bytes _ wire _ =>
    by_cases here : token = (p.client.sockets i).token
    · have grown : c.wire token = p.client.wire token ++ [.received bytes] := by
        rw [wire, here, Function.update_self]
      -- what has arrived is a part of the replies, and so are the octets before it
      have arrived := answered.trans tracks.delivered
      rw [grown, Client.octets_received, ← (replies_eq answers).1, ← behaved.stream,
        List.prefix_append_right_inj] at arrived
      obtain ⟨rest, unread⟩ := arrived
      exact ⟨{ peer with unread := rest }, sent, tracks, grown ▸ behaved.read unread.symm, answers⟩
    · exact same (by rw [wire, Function.update_of_ne here])

/-- A reply that is put in the output is an answer to a request that has none. -/
theorem asked {peer : Client.Peer} {sent : List (Server.Job Server.Completion × Server.Reply)}
    (tracks : Server.Tracks n.server p.server conn sent)
    (behaved : Client.WellBehaved n.client idOf (p.client.wire token) peer)
    (answers : List.Forall₂ (Matches bytesOf) peer.answers sent)
    (cut : (p.server.conns conn).submitted <+:
      (Client.sents (p.client.wire token)).map bytesOf)
    {call : Server.Job Server.Completion × Server.Reply}
    (absorbs : Server.Tracks.Absorbs n.server p.server conn call) :
    ∃ ref ∈ peer.pending, call.1.input = bytesOf ref := by
  obtain ⟨more, whole⟩ := cut
  have requests := (behaved.requests.map bytesOf).trans (.of_eq whole.symm)
  have jobs := (tracks.all absorbs.alive).symm
  have handled := ((tracks.returned absorbs.alive).symm.map Prod.fst).map Server.Job.input
  have matched := (replies_eq answers).2
  have split : peer.answers.map (fun a => bytesOf a.1) ++ peer.pending.map bytesOf ~
      sent.map (fun call => call.1.input) ++
        ((p.server.returning n.server conn).map (fun call => call.1.input) ++
          ((p.server.upcoming conn).map Server.Job.input ++ more)) := by
    simp only [List.map_append, List.map_map] at requests jobs handled
    refine requests.trans ((jobs.append_right more).trans ?_)
    rw [List.append_assoc, ← List.append_assoc (sent.map _)]
    exact handled.append_right _
  rw [matched] at split
  have left := (List.perm_append_left_iff _).mp split
  have member : call.1.input ∈ peer.pending.map bytesOf :=
    left.symm.subset (List.mem_append_left _ (List.mem_map.mpr ⟨call, absorbs.returning, rfl⟩))
  obtain ⟨ref, pending, same⟩ := List.mem_map.mp member
  exact ⟨ref, pending, same.symm⟩

/-- The server takes a step. -/
theorem server (h : n.Linked idOf bytesOf p token conn) (healthy : n.Healthy p.server)
    (replied : ∀ call ∈ p.server.handled, n.Replies call.1.input call.2)
    (cut : (p.server.conns conn).submitted <+:
      (Client.sents (p.client.wire token)).map bytesOf)
    (suits : ∀ r ∈ Client.sents (p.client.wire token), n.Suits idOf (bytesOf r) r)
    {s : Server.State} (act : Server.Act n.server p.server s) :
    n.Linked idOf bytesOf { p with server := s } token conn := by
  obtain ⟨peer, sent, tracks, behaved, answers⟩ := h
  obtain same | ⟨call, absorbs, longer⟩ := tracks.act healthy.base healthy.orderly act
  · exact ⟨peer, sent, same, behaved, answers⟩
  · obtain ⟨ref, pending, input⟩ := asked tracks behaved answers cut absorbs
    have known : ref ∈ Client.sents (p.client.wire token) :=
      behaved.requests.subset (List.mem_append_right _ pending)
    have handled : call ∈ p.server.handled := by
      have answered := tracks.replies.subset (List.mem_append_right _ absorbs.returning)
      exact (List.mem_filter.mp answered).1
    have answer := (suits ref known).answer call.2 (input ▸ replied call handled) absorbs.good
    refine ⟨peer.answer ref call.2.bytes, sent ++ [call], longer, behaved.answer pending answer, ?_⟩
    exact List.rel_append answers (.cons ⟨input, rfl, absorbs.good⟩ .nil)

end Network.Linked

namespace Network

variable {n : Network ε ε'} {p : Pair}

/-- The requests of the client that have been admitted, with their octets and identifiers. -/
def AllSuit (n : Network ε ε') (idOf : Nat → Nat) (bytesOf : Nat → Bytes) (c : Client.State) :
    Prop :=
  ∀ r ∈ c.accepted, (c.heap r).bytes = bytesOf r ∧ n.Suits idOf (bytesOf r) r

theorem AllSuit.before {idOf : Nat → Nat} {bytesOf : Nat → Bytes} {x x' : Client.Phase}
    {c c' : Client.State} (h : n.AllSuit idOf bytesOf c') (sound : c.ledger.Sound)
    (step : Client.Step n.client (x, c) (x', c')) : n.AllSuit idOf bytesOf c := by
  intro r mem
  obtain ⟨bytes, suits⟩ := h r (step.accepted sound mem).1
  exact ⟨(step.bytes (sound.below r (.inl mem))).symm.trans bytes, suits⟩

theorem AllSuit.submitted {idOf : Nat → Nat} {bytesOf : Nat → Bytes}
    (lawful : Lawful n.sizer) (h : n.Reaches p) (suits : n.AllSuit idOf bytesOf p.client)
    {l : Nat × Nat} (mem : l ∈ n.links) :
    (p.server.conns l.2).submitted <+: (Client.sents (p.client.wire l.1)).map bytesOf := by
  induction h with
  | refl => exact List.nil_prefix
  | @tail q q' before last ih =>
    have reached : n.Reaches q := before
    cases last with
    | client step _ =>
      exact (ih (suits.before reached.sentOnce.1 step)).trans ((step.sents l.1).map bytesOf)
    | @server s act asked =>
      have later : n.Reaches { q with server := s } := before.tail (.server act asked)
      have known : ∀ r ∈ Client.sents (q.client.wire l.1), r ∈ q.client.accepted :=
        fun r member => (reached.sentOnce.2.2.known l.1 r member).1
      have cut := (asked.linked l mem).submitted lawful ((later.healthy lawful).framed l.2)
        (fun r member => (suits r member).1 ▸ (suits r member).2.frame) known
      rwa [List.map_congr_left fun r member => (suits r (known r member)).1] at cut

/-- **The server behaves well** towards the client on every link. -/
theorem Reaches.linked {idOf : Nat → Nat} {bytesOf : Nat → Bytes} (lawful : Lawful n.sizer)
    (h : n.Reaches p) (suits : n.AllSuit idOf bytesOf p.client) {l : Nat × Nat}
    (mem : l ∈ n.links) : n.Linked idOf bytesOf p l.1 l.2 := by
  induction h with
  | refl => exact ⟨{}, [], .initial _ _, .start, .nil⟩
  | @tail q q' before last ih =>
    have reached : n.Reaches q := before
    cases last with
    | client step answered =>
      exact (ih (suits.before reached.sentOnce.1 step)).client step (answered.linked l mem)
    | server act _ =>
      refine (ih suits).server (reached.healthy lawful) reached.replied
        (suits.submitted lawful reached mem) (fun r member => ?_) act
      exact (suits r (reached.sentOnce.2.2.known l.1 r member).1).2

/-- On every session, whatever has been answered was computed by the handler. -/
theorem Reaches.explained {idOf : Nat → Nat} {bytesOf : Nat → Bytes} (lawful : Lawful n.sizer)
    (h : n.Reaches p) (suits : n.AllSuit idOf bytesOf p.client) (token : Nat) :
    ∃ peer, Client.WellBehaved n.client idOf (p.client.wire token) peer ∧
      ∀ a ∈ peer.answers, a.1 ∈ p.client.accepted ∧
        ∃ l ∈ n.links, ∃ call ∈ p.server.answered l.2, Matches bytesOf a call := by
  by_cases linked : token ∈ n.links.map Prod.fst
  · obtain ⟨l, mem, rfl⟩ := List.mem_map.mp linked
    obtain ⟨peer, sent, tracks, behaved, answers⟩ := h.linked lawful suits mem
    refine ⟨peer, behaved, fun a given => ⟨?_, l, mem, ?_⟩⟩
    · have sent := behaved.requests.subset (List.mem_append_left _ (List.mem_map_of_mem given))
      exact (h.sentOnce.2.2.known l.1 a.1 sent).1
    · obtain ⟨call, member, same⟩ := exists_related answers given
      exact ⟨call, tracks.replies.subset (List.mem_append_left _ member), same⟩
  · exact ⟨_, .silent (h.silent linked), fun a given => nomatch given⟩

/-- **Correlation across the network.** A completion that gets a response gets the reply of a
call of the handler on the octets of its own request, and no frame is refused. -/
theorem Reaches.responses (framing : Lawful n.client.framing) (lawful : Lawful n.sizer)
    (h : n.Reaches p) (distinct : p.client.ledger.Distinct)
    (suits : n.AllSuit (fun r => (p.client.heap r).id) (fun r => (p.client.heap r).bytes)
      p.client) :
    (∀ r b, (r, .response b) ∈ p.client.completed → r ∈ p.client.accepted ∧
      ∃ l ∈ n.links, ∃ call ∈ p.server.answered l.2,
        Matches (fun r => (p.client.heap r).bytes) (r, b) call) ∧
    ∀ token, ∀ f ∈ p.client.frames token, f.2 ≠ .unknown ∧ f.2 ≠ .invalid := by
  have correlated := Client.Steps.correlated framing h.client distinct
  have answer : ∀ token, ∀ f ∈ p.client.frames token, ∃ a, Client.Settles p.client f a ∧
      a.1 ∈ p.client.accepted ∧ ∃ l ∈ n.links, ∃ call ∈ p.server.answered l.2,
        Matches (fun r => (p.client.heap r).bytes) a call := by
    intro token f mem
    obtain ⟨peer, behaved, computed⟩ := h.explained lawful suits token
    obtain ⟨done, queue, split, settled, -⟩ := correlated.explained token peer behaved
    obtain ⟨a, given, settles⟩ := exists_related settled mem
    exact ⟨a, settles, computed a (split ▸ List.mem_append_left _ given)⟩
  refine ⟨fun r b mem => ?_, fun token f mem => ?_⟩
  · obtain ⟨token, processed⟩ := Client.Steps.delivered h.client r b mem
    obtain ⟨⟨r', b'⟩, ⟨bytes, ⟨same, -⟩ | ⟨dropped, -⟩⟩, found⟩ := answer token _ processed
    · cases bytes
      cases same
      exact found
    · cases dropped
  · obtain ⟨a, ⟨-, ⟨verdict, -⟩ | ⟨verdict, -⟩⟩, -⟩ := answer token f mem
    · simp [verdict]
    · simp [verdict]

/-- The calls of the handler on the octets of a request, over the client's connections. -/
def executions (n : Network ε ε') (p : Pair) (r : Nat) :
    List (Server.Job Server.Completion × Server.Reply) :=
  p.server.handled.filter fun call =>
    call.1.complete.conn ∈ n.links.map Prod.snd ∧ call.1.input = (p.client.heap r).bytes

/-- **At most once.** If no two requests have the same octets, the handler is called at most once
for each of them. -/
theorem Reaches.atMostOnce {idOf : Nat → Nat} (lawful : Lawful n.sizer) (h : n.Reaches p)
    (suits : n.AllSuit idOf (fun r => (p.client.heap r).bytes) p.client)
    (apart : ∀ a ∈ p.client.accepted, ∀ b ∈ p.client.accepted,
      (p.client.heap a).bytes = (p.client.heap b).bytes → a = b) {r : Nat}
    (mem : r ∈ p.client.accepted) : (n.executions p r).length ≤ 1 := by
  obtain ⟨-, -, once⟩ := h.sentOnce
  have known : ∀ {token r}, r ∈ Client.sents (p.client.wire token) → r ∈ p.client.accepted :=
    fun member => (once.known _ _ member).1
  -- the request a call was made for has been sent over the connection of the call
  have sent : ∀ call ∈ n.executions p r, ∃ l ∈ n.links, call.1.complete.conn = l.2 ∧
      r ∈ Client.sents (p.client.wire l.1) := by
    intro call member
    obtain ⟨handled, conds⟩ := List.mem_filter.mp member
    obtain ⟨linked, input⟩ := of_decide_eq_true conds
    obtain ⟨l, link, same⟩ := List.mem_map.mp linked
    obtain ⟨_, calls, tracks, -⟩ := h.linked lawful suits link
    have answered : call ∈ p.server.answered l.2 :=
      List.mem_filter.mpr ⟨handled, decide_eq_true same.symm⟩
    have submitted : call.1.input ∈ (p.server.conns l.2).submitted :=
      tracks.requests.subset (List.mem_map.mpr ⟨call.1, List.mem_append_left _
        (List.mem_map.mpr ⟨call, answered, rfl⟩), rfl⟩)
    obtain ⟨r', member', bytes⟩ := List.mem_map.mp
      ((suits.submitted lawful h link).subset submitted)
    have own : r' = r := apart r' (known member') r mem (bytes.trans input)
    exact ⟨l, link, same.symm, own ▸ member'⟩
  match found : n.executions p r with
  | [] => exact Nat.zero_le _
  | [_] => exact le_rfl
  | u :: v :: rest =>
    exfalso
    have both : [u, v] <+ n.executions p r := by
      rw [found]
      exact ((List.nil_sublist rest).cons_cons v).cons_cons u
    obtain ⟨l, link, conn, member⟩ := sent u (both.subset (by simp))
    obtain ⟨l', link', conn', member'⟩ := sent v (both.subset (by simp))
    obtain rfl : l = l' :=
      List.inj_on_of_nodup_map n.tokens link link' (once.apart _ _ _ member member')
    obtain ⟨_, calls, tracks, -⟩ := h.linked lawful suits link
    have answered : [u, v] <+ p.server.answered l.2 := by
      have filtered := (both.trans List.filter_sublist).filter fun call =>
        decide (call.1.complete.conn = l.2)
      simp only [List.filter_cons, List.filter_nil, conn, conn', decide_true, if_true] at filtered
      exact filtered
    have inputs : ∀ call ∈ n.executions p r, call.1.input = (p.client.heap r).bytes :=
      fun call given => (of_decide_eq_true (List.mem_filter.mp given).2).2
    have twice : [(p.client.heap r).bytes, (p.client.heap r).bytes] <+~
        (Client.sents (p.client.wire l.1)).map fun r => (p.client.heap r).bytes := by
      have jobs := (answered.map Prod.fst).map Server.Job.input
      simp only [List.map_cons, List.map_nil, inputs u (both.subset (by simp)),
        inputs v (both.subset (by simp))] at jobs
      have all := (List.sublist_append_left ((p.server.answered l.2).map Prod.fst)
        (p.server.upcoming l.2)).map Server.Job.input
      exact ((jobs.trans all).subperm.trans tracks.requests).trans
        (suits.submitted lawful h link).sublist.subperm
    have distinct : ((Client.sents (p.client.wire l.1)).map
        fun r => (p.client.heap r).bytes).Nodup :=
      (once.once l.1).map_on fun a ha b hb => apart a (known ha) b (known hb)
    have single := twice.count_le (p.client.heap r).bytes
    rw [List.count_cons_self, List.count_cons_self] at single
    have := List.nodup_iff_count_le_one.mp distinct (p.client.heap r).bytes
    omega

/-! ## Events of both sides -/

/-- A callback of the client's loop or a call of another thread, or an event of the server. -/
inductive Event where
  | client (e : Client.State.Event)
  | server (e : Server.Event)

/-- Nothing has arrived on a session that exists but what the server has sent. -/
def AnsweredBelow (n : Network ε ε') (c : Client.State) (s : Server.State) : Prop :=
  (∀ l ∈ n.links, Client.octets (c.wire l.1) <+: (s.conns l.2).delivered) ∧
    ∀ token < c.loop.next, token ∉ n.links.map Prod.fst → Client.octets (c.wire token) = []

instance (n : Network ε ε') (c : Client.State) (s : Server.State) :
    Decidable (n.AnsweredBelow c s) := inferInstanceAs (Decidable (_ ∧ _))

instance (n : Network ε ε') [∀ bytes reply, Decidable (n.Replies bytes reply)] (c : Client.State)
    (s : Server.State) : Decidable (n.Asked c s) :=
  decidable_of_iff ((∀ l ∈ n.links, Arrives c l.1 (s.conns l.2).received) ∧
      ∀ call ∈ s.handled, n.Replies call.1.input call.2)
    ⟨fun h => ⟨h.1, h.2⟩, fun h => ⟨h.1, h.2⟩⟩

/-- One event of one side, if the network allows what has arrived. -/
def step (n : Network ε ε') [∀ bytes reply, Decidable (n.Replies bytes reply)] (p : Pair) :
    Event → Option Pair
  | .client e =>
    ((p.client.step n.client e).filter fun c => n.AnsweredBelow c p.server).map
      fun c => { p with client := c }
  | .server e =>
    ((p.server.step n.server e).filter fun s => n.Asked p.client s).map
      fun s => { p with server := s }

abbrev Runs (n : Network ε ε') [∀ bytes reply, Decidable (n.Replies bytes reply)]
    (trace : List (Pair × Event)) (p : Pair) : Prop :=
  Run (fun p e p' => n.step p e = some p') (fun _ => False) n.initial trace p

/-- The steps of one callback. What has arrived before its end has arrived at its end. -/
theorem Reaches.clients (h : n.Reaches p) {x : Client.Phase} {c : Client.State}
    (steps : Client.Steps n.client (p.phase, p.client) (x, c)) (answered : n.Answered c p.server) :
    n.Reaches { p with phase := x, client := c } := by
  suffices ∀ q, Client.Steps n.client (p.phase, p.client) q → n.Answered q.2 p.server →
      n.Reaches { p with phase := q.1, client := q.2 } from this (x, c) steps answered
  intro q steps
  induction steps with
  | refl => exact fun _ => h
  | @tail q q' _ last ih =>
    intro answered
    have before : n.Answered q.2 p.server := by
      refine ⟨fun l mem => (last.octets l.1).trans (answered.linked l mem), fun token other => ?_⟩
      have grown := last.octets token
      rw [answered.others token other] at grown
      exact List.prefix_nil.mp grown
    have middle : n.Reaches { p with phase := q.1, client := q.2 } := ih before
    exact middle.tail (.client last answered)

theorem Reaches.acts (h : n.Reaches p) {s : Server.State}
    (acts : Server.Acts n.server p.server s) (asked : n.Asked p.client s) :
    n.Reaches { p with server := s } := by
  induction acts with
  | refl => exact h
  | @tail s s' before act ih =>
    have base : Server.Base n.server s :=
      (Server.Wired.acts (.initial _) (.initial _) (h.server.trans before)).1
    refine (ih ⟨fun l mem => ?_, fun call mem => ?_⟩).tail (.server act asked)
    · have grown := act.received base l.2
      exact (asked.linked l mem).imp grown.trans fun ⟨ref, known, part⟩ =>
        ⟨ref, known, grown.trans part⟩
    · exact asked.replied call ((act.grows base).handled.subset mem)

/-- Whatever the two sides do, event by event, is a sequence of steps. -/
theorem Runs.reaches [∀ bytes reply, Decidable (n.Replies bytes reply)]
    {trace : List (Pair × Event)} (run : n.Runs trace p) : p.phase = {} ∧ n.Reaches p := by
  induction run with
  | nil => exact ⟨rfl, .refl⟩
  | @snoc trace p p' e _ _ taken ih =>
    obtain ⟨outside, reached⟩ := ih
    cases e with
    | client e =>
      obtain ⟨c, kept, rfl⟩ := Option.map_eq_some_iff.mp taken
      obtain ⟨stepped, answered⟩ := Option.filter_eq_some_iff.mp kept
      obtain ⟨linked, others⟩ : n.AnsweredBelow c p.server := of_decide_eq_true answered
      have steps := Client.step_steps (Client.Steps.sound reached.client Client.sound_init) stepped
      rw [← outside] at steps
      have whole := reached.client.trans steps
      have sessions := Client.Steps.invariant whole (fun x s => Client.Sessions x s) .init
        fun _ sessions step => sessions.step step
      refine ⟨outside, reached.clients steps ⟨linked, fun token other => ?_⟩⟩
      by_cases old : token < c.loop.next
      · exact others token old other
      · rw [(sessions.fresh token (Nat.not_lt.mp old)).1]
        rfl
    | server e =>
      obtain ⟨s, kept, rfl⟩ := Option.map_eq_some_iff.mp taken
      obtain ⟨stepped, asked⟩ := Option.filter_eq_some_iff.mp kept
      obtain ⟨base, wired⟩ := Server.Wired.acts (.initial _) (.initial _) reached.server
      exact ⟨outside, reached.acts (Server.step_acts base wired stepped) (of_decide_eq_true asked)⟩

end Network
end KVRPC.System
