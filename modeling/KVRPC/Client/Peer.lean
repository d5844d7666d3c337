import KVRPC.Client.Transport

/-!
# A well-behaved server

What passes over a connection, explained from the server's side. The server answers a request
when it has been sent completely, at most once, with a frame within the limit that carries the
identifier of the request, and sends nothing else. It may answer in any order: without
identifiers the transport never leaves a second request unanswered.
-/
namespace KVRPC.Client

open Library Net Library.Framing

variable {ε : Type} {t : AsyncTransport ε} {idOf : Nat → Nat}

/-- The server's end of a connection. -/
structure Peer where
  /-- The answers given so far, with the request each belongs to. -/
  answers : List (Nat × Bytes) := []
  /-- The requests sent completely and not answered. -/
  pending : List Nat := []
  /-- The octets of the answers that have not been received. -/
  unread : Bytes := []

structure Answer (t : AsyncTransport ε) (idOf : Nat → Nat) (ref : Nat) (bytes : Bytes) : Prop where
  frame : Frame t.framing bytes
  within : bytes.length ≤ t.frameLimit
  id : ∀ ids, t.ids = some ids → ids bytes = .ok (idOf ref)

namespace Peer

def request (p : Peer) (ref : Nat) : Peer := { p with pending := p.pending ++ [ref] }

def answer (p : Peer) (ref : Nat) (bytes : Bytes) : Peer where
  answers := p.answers ++ [(ref, bytes)]
  pending := p.pending.erase ref
  unread := p.unread ++ bytes

end Peer

/-- The server's end explains what the client has seen. -/
inductive WellBehaved (t : AsyncTransport ε) (idOf : Nat → Nat) : List Wire → Peer → Prop
  | start : WellBehaved t idOf [] {}
  | request {wire : List Wire} {peer : Peer} (ref : Nat) (h : WellBehaved t idOf wire peer) :
      WellBehaved t idOf (wire ++ [.sent ref]) (peer.request ref)
  | answer {wire : List Wire} {peer : Peer} {ref : Nat} {bytes : Bytes}
      (h : WellBehaved t idOf wire peer) (asked : ref ∈ peer.pending)
      (answer : Answer t idOf ref bytes) : WellBehaved t idOf wire (peer.answer ref bytes)
  | read {wire : List Wire} {peer : Peer} {bytes rest : Bytes}
      (h : WellBehaved t idOf wire peer) (unread : peer.unread = bytes ++ rest) :
      WellBehaved t idOf (wire ++ [.received bytes]) { peer with unread := rest }

namespace WellBehaved

theorem nil_inv {peer : Peer} (h : WellBehaved t idOf [] peer) : peer = {} := by
  generalize none : ([] : List Wire) = wire at h
  induction h with
  | start => rfl
  | request => simp at none
  | answer _ asked _ ih =>
    rw [ih none] at asked
    cases asked
  | read => simp at none

/-- What holds after the last event and is kept by further answers holds of every explanation. -/
theorem snoc {wire : List Wire} {last : Wire} {P : Peer → Prop}
    (sent : ∀ ref peer, last = .sent ref → WellBehaved t idOf wire peer → P (peer.request ref))
    (read : ∀ bytes rest peer, last = .received bytes → WellBehaved t idOf wire peer →
      peer.unread = bytes ++ rest → P { peer with unread := rest })
    (answer : ∀ peer ref bytes, P peer → ref ∈ peer.pending → Answer t idOf ref bytes →
      P (peer.answer ref bytes))
    {peer : Peer} (h : WellBehaved t idOf (wire ++ [last]) peer) : P peer := by
  generalize whole : wire ++ [last] = events at h
  induction h with
  | start => simp at whole
  | request ref before =>
    obtain ⟨rfl, same⟩ := List.append_inj' whole rfl
    exact sent ref _ (List.singleton_inj.mp same) before
  | answer _ asked reply ih => exact answer _ _ _ (ih whole) asked reply
  | read before unread =>
    obtain ⟨rfl, same⟩ := List.append_inj' whole rfl
    exact read _ _ _ (List.singleton_inj.mp same) before unread

end WellBehaved

/-- The requests on a connection whose answer has not been taken off the input: answered, sent
and still to be sent. -/
def Connection.unanswered (c : Connection) (peer : Peer) (queue : List (Nat × Bytes)) : List Nat :=
  queue.map Prod.fst ++ peer.pending ++ c.output

/-- An open connection, seen together with its server: the answers in `queue` are on their way
or in the input, and every request without a processed answer is `Awaited`. -/
structure Live (t : AsyncTransport ε) (idOf : Nat → Nat) (Awaited : Nat → Prop) (c : Connection)
    (peer : Peer) (queue : List (Nat × Bytes)) : Prop where
  stream : c.input.contents ++ peer.unread = (queue.map Prod.snd).flatten
  answers : ∀ q ∈ queue, Answer t idOf q.1 q.2
  distinct : (c.unanswered peer queue).Nodup
  awaited : ∀ r ∈ c.unanswered peer queue, Awaited r
  order : t.ids = none → c.order = (c.unanswered peer queue).map idOf ∧
    (c.unanswered peer queue).length ≤ 1

namespace Live

variable {Awaited Awaited' : Nat → Prop} {c c' : Connection} {peer : Peer}
  {queue : List (Nat × Bytes)} {ref : Nat} {bytes : Bytes}

theorem of_eq (h : Live t idOf Awaited c peer queue) (input : c'.input = c.input)
    (output : c'.output = c.output) (order : c'.order = c.order)
    (awaited : ∀ r ∈ c.unanswered peer queue, Awaited r → Awaited' r) :
    Live t idOf Awaited' c' peer queue := by
  have same : c'.unanswered peer queue = c.unanswered peer queue := by
    rw [Connection.unanswered, output, Connection.unanswered]
  refine ⟨by rw [input, h.stream], h.answers, ?_, ?_, ?_⟩
  · rw [same]
    exact h.distinct
  · rw [same]
    exact fun r mem => awaited r mem (h.awaited r mem)
  · rw [same, order]
    exact h.order

theorem eq_of_perm_of_length_le_one {l l' : List Nat} (perm : l.Perm l') (short : l'.length ≤ 1) :
    l = l' := by
  obtain none | one := Nat.le_one_iff_eq_zero_or_eq_one.mp short
  · rw [List.length_eq_zero_iff] at none
    subst none
    exact perm.eq_nil
  · obtain ⟨a, rfl⟩ := List.length_eq_one_iff.mp one
    exact List.perm_singleton.mp perm

/-- The server answers. -/
theorem answer (h : Live t idOf Awaited c peer queue) (asked : ref ∈ peer.pending)
    (reply : Answer t idOf ref bytes) :
    Live t idOf Awaited c (peer.answer ref bytes) (queue ++ [(ref, bytes)]) := by
  have moved : (c.unanswered (peer.answer ref bytes) (queue ++ [(ref, bytes)])).Perm
      (c.unanswered peer queue) := by
    simp only [Connection.unanswered, Peer.answer, List.map_append, List.map_cons, List.map_nil,
      List.append_assoc]
    refine List.Perm.append_left _ ?_
    rw [← List.append_assoc]
    exact List.Perm.append_right _ (List.perm_cons_erase asked).symm
  refine ⟨?_, fun q mem => ?_, moved.nodup_iff.mpr h.distinct,
    fun r mem => h.awaited r (moved.subset mem), fun none => ?_⟩
  · simp only [Peer.answer, List.map_append, List.flatten_append, ← h.stream, List.append_assoc]
    simp
  · obtain old | new := List.mem_append.mp mem
    · exact h.answers q old
    · rw [List.mem_singleton.mp new]
      exact reply
  · obtain ⟨order, single⟩ := h.order none
    -- with one request at most there is one order only
    rw [eq_of_perm_of_length_le_one moved single]
    exact ⟨order, single⟩

/-- What the sizer says about the input. -/
theorem front (h : Live t idOf Awaited c peer queue) (lawful : Lawful t.framing)
    (nonempty : c.input.contents ≠ []) :
    ∃ r b rest, queue = (r, b) :: rest ∧
      (t.framing c.input.contents = .ok 0 ∨ t.framing c.input.contents = .ok b.length) ∧
      (b.length ≤ c.input.contents.length → c.input.contents.take b.length = b) := by
  cases queue with
  | nil =>
    have none := h.stream
    simp only [List.map_nil, List.flatten_nil, List.append_eq_nil_iff] at none
    exact absurd none.1 nonempty
  | cons q rest =>
    have split : c.input.contents ++ peer.unread = q.2 ++ (rest.map Prod.snd).flatten := h.stream
    have frame := (h.answers q List.mem_cons_self).frame
    refine ⟨q.1, q.2, rest, rfl, frame.front lawful split, fun whole => ?_⟩
    rw [← List.take_append_of_le_length whole, split, List.take_left]

/-- The answer at the front is taken off the input. -/
theorem take {r : Nat} {b : Bytes} {rest : List (Nat × Bytes)}
    (h : Live t idOf Awaited c peer ((r, b) :: rest)) (whole : b.length ≤ c.input.contents.length)
    (input : c'.input.contents = c.input.contents.drop b.length) (output : c'.output = c.output)
    (order : c'.order = if t.ids.isSome then c.order else c.order.tail)
    (awaited : ∀ r' ∈ c.unanswered peer rest, r' ≠ r → Awaited r' → Awaited' r') :
    Live t idOf Awaited' c' peer rest := by
  have same : c'.unanswered peer rest = c.unanswered peer rest := by
    rw [Connection.unanswered, output, Connection.unanswered]
  have all : c.unanswered peer ((r, b) :: rest) = r :: c.unanswered peer rest := rfl
  have distinct := h.distinct
  rw [all, List.nodup_cons] at distinct
  refine ⟨?_, fun q mem => h.answers q (List.mem_cons_of_mem _ mem), same ▸ distinct.2,
    fun r' mem => ?_, fun none => ?_⟩
  · have split : c.input.contents ++ peer.unread = b ++ (rest.map Prod.snd).flatten := h.stream
    rw [input, ← List.drop_append_of_le_length whole, split, List.drop_left]
  · rw [same] at mem
    refine awaited r' mem ?_ (h.awaited r' (List.mem_cons_of_mem _ mem))
    rintro rfl
    exact distinct.1 mem
  · obtain ⟨listed, single⟩ := h.order none
    rw [order, listed, none, same, all]
    rw [all, List.length_cons] at single
    exact ⟨rfl, by omega⟩

/-- A request is sent completely. -/
theorem sent (h : Live t idOf Awaited c peer queue) {rest : List Nat}
    (front : c.output = ref :: rest) (input : c'.input = c.input) (output : c'.output = rest)
    (order : c'.order = c.order) : Live t idOf Awaited c' (peer.request ref) queue := by
  have same : c'.unanswered (peer.request ref) queue = c.unanswered peer queue := by
    simp [Connection.unanswered, Peer.request, front, output]
  refine ⟨by rw [input]; exact h.stream, h.answers, ?_, ?_, ?_⟩
  · rw [same]
    exact h.distinct
  · rw [same]
    exact h.awaited
  · rw [same, order]
    exact h.order

theorem read (h : Live t idOf Awaited c peer queue) {rest : Bytes}
    (unread : peer.unread = bytes ++ rest) (input : c'.input.contents = c.input.contents ++ bytes)
    (output : c'.output = c.output) (order : c'.order = c.order) :
    Live t idOf Awaited c' { peer with unread := rest } queue := by
  have same : c'.unanswered { peer with unread := rest } queue = c.unanswered peer queue := by
    rw [Connection.unanswered, output, Connection.unanswered]
  refine ⟨?_, h.answers, ?_, ?_, ?_⟩
  · rw [input, ← h.stream, unread, List.append_assoc]
  · rw [same]
    exact h.distinct
  · rw [same]
    exact h.awaited
  · rw [same, order]
    exact h.order

/-- A new connection. -/
theorem init (input : c.input.contents = []) (output : c.output = []) (order : c.order = []) :
    Live t idOf Awaited c {} [] := by
  have none : c.unanswered {} [] = [] := by simp [Connection.unanswered, output]
  refine ⟨by simp [input], nofun, ?_, ?_, fun _ => ?_⟩
  · simp [none]
  · simp [none]
  · simp [none, order]

/-- A request is assigned to the connection. -/
theorem assign (h : Live t idOf Awaited c peer queue) (new : ref ∉ c.unanswered peer queue)
    (single : t.ids = none → c.unanswered peer queue = []) (input : c'.input = c.input)
    (output : c'.output = c.output ++ [ref])
    (order : c'.order = if t.ids.isSome then c.order else c.order ++ [idOf ref])
    (awaited : ∀ r ∈ c.unanswered peer queue, Awaited r → Awaited' r) (own : Awaited' ref) :
    Live t idOf Awaited' c' peer queue := by
  have longer : c'.unanswered peer queue = c.unanswered peer queue ++ [ref] := by
    simp [Connection.unanswered, output]
  refine ⟨by rw [input, h.stream], h.answers, ?_, fun r mem => ?_, fun none => ?_⟩
  · rw [longer]
    exact h.distinct.append (List.nodup_singleton _) (List.disjoint_singleton.mpr new)
  · rw [longer, List.mem_append, List.mem_singleton] at mem
    obtain old | rfl := mem
    · exact awaited r old (h.awaited r old)
    · exact own
  · have listed := (h.order none).1
    rw [longer, single none, order, listed, single none, none]
    simp

end Live
end KVRPC.Client
