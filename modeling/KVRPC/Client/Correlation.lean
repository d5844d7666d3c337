import KVRPC.Client.Accounts
import KVRPC.Client.Peer
import KVRPC.Client.Sessions

/-!
# Correlation of responses

Seen together with a well-behaved server, an open connection has this invariant: the requests
answered and not yet processed, sent and not answered, or still to be sent are all distinct, and
each of them is open and assigned to the connection, or retired after its deadline. The frame at
the front of the input is then the answer to one of them, whatever has happened in between.
-/
namespace KVRPC.Client

open Library Net Library.Framing State

variable {ε : Type} {t : AsyncTransport ε} {idOf : Nat → Nat} {x x' : Phase} {s s' : State}
  {i j r ref id : Nat}

/-- The deadline has passed after the request was sent. -/
def TimedOut (s : State) (r : Nat) : Prop :=
  r ∈ s.accepted ∧ (r, .error deadlineExceeded) ∈ s.completed

/-- The connection is prepared for an answer to the request. -/
inductive Awaited (t : AsyncTransport ε) (idOf : Nat → Nat) (s : State) (i r : Nat) : Prop
  | open_ (entry : (idOf r, r) ∈ s.requests) (slot : (s.heap r).slot = some i)
  | late (ids : t.ids.isSome) (retired : idOf r ∈ (s.sockets i).retired) (timeout : TimedOut s r)

/-- The frame is the answer: it is handed to the completion of its request, or dropped because
the deadline has passed. -/
def Settles (s : State) (frame : Bytes × Verdict) (answer : Nat × Bytes) : Prop :=
  frame.1 = answer.2 ∧
    (frame.2 = .delivered answer.1 ∧ (answer.1, .response answer.2) ∈ s.completed ∨
      frame.2 = .dropped ∧ (answer.1, .error deadlineExceeded) ∈ s.completed)

/-- The frames processed are answers of the server, in its order, and the connection is prepared
for the others. -/
def Explained (t : AsyncTransport ε) (idOf : Nat → Nat) (s : State) (token : Nat) (peer : Peer) :
    Prop :=
  ∃ done queue, peer.answers = done ++ queue ∧ List.Forall₂ (Settles s) (s.frames token) done ∧
    ∀ i, (s.sockets i).fd = true → (s.sockets i).token = token →
      Live t idOf (Awaited t idOf s i) (s.sockets i) peer queue

structure Correlated (t : AsyncTransport ε) (idOf : Nat → Nat) (s : State) : Prop where
  explained : ∀ token peer, WellBehaved t idOf (s.wire token) peer → Explained t idOf s token peer
  retired : ∀ i, ∀ id ∈ (s.sockets i).retired, ∃ r, TimedOut s r ∧ idOf r = id

theorem TimedOut.mono (h : TimedOut s r) (accepted : ∀ r ∈ s.accepted, r ∈ s'.accepted)
    (completed : ∀ c ∈ s.completed, c ∈ s'.completed) : TimedOut s' r :=
  ⟨accepted r h.1, completed _ h.2⟩

theorem Settles.mono {frame : Bytes × Verdict} {answer : Nat × Bytes}
    (completed : ∀ c ∈ s.completed, c ∈ s'.completed) (h : Settles s frame answer) :
    Settles s' frame answer :=
  ⟨h.1, h.2.imp (And.imp_right (completed _)) (And.imp_right (completed _))⟩

/-- A request in the map has not timed out. -/
theorem not_timedOut (sound : s.ledger.Sound) (entry : (id, ref) ∈ s.requests) :
    ¬ TimedOut s ref := by
  intro timeout
  refine (Ledger.mem_outstanding.mp (sound.enrolled _ entry)).2 ?_
  exact List.mem_map.mpr ⟨_, timeout.2, rfl⟩

namespace Awaited

theorem mono (h : Awaited t idOf s i r)
    (entry : (idOf r, r) ∈ s.requests → (idOf r, r) ∈ s'.requests)
    (slot : (idOf r, r) ∈ s.requests → (s'.heap r).slot = (s.heap r).slot)
    (retired : idOf r ∈ (s.sockets i).retired → idOf r ∈ (s'.sockets i).retired)
    (timeout : TimedOut s r → TimedOut s' r) : Awaited t idOf s' i r := by
  cases h with
  | open_ mem assigned => exact .open_ (entry mem) ((slot mem).trans assigned)
  | late ids mem late => exact .late ids (retired mem) (timeout late)

/-- A request that waits is not awaited anywhere. -/
theorem not_of_unassigned (sound : s.ledger.Sound) (entry : (id, ref) ∈ s.requests)
    (slot : (s.heap ref).slot ≠ some i) : ¬ Awaited t idOf s i ref := by
  intro h
  cases h with
  | open_ _ assigned => exact slot assigned
  | late _ _ timeout => exact not_timedOut sound entry timeout

theorem accepted (h : Awaited t idOf s i r) (sound : s.ledger.Sound) : r ∈ s.accepted := by
  cases h with
  | open_ entry _ => exact (Ledger.mem_outstanding.mp (sound.enrolled _ entry)).1
  | late _ _ timeout => exact timeout.1

/-- Another request is finished. -/
theorem release (h : Awaited t idOf s i r) (sound : s.ledger.Sound)
    (found : s.requests.lookup id = some ref) (other : r ≠ ref) (outcome : Outcome) :
    Awaited t idOf ((s.release id ref).record ref outcome) i r := by
  have retired := release_field Connection.retired (fun _ _ => rfl) s id ref i
  refine h.mono (fun entry => ?_) (fun _ => rfl) (fun mem => ?_) fun timeout =>
    timeout.mono (fun _ mem => mem) fun _ mem => List.mem_append_left _ mem
  · refine List.mem_filter.mpr ⟨entry, decide_eq_true fun same => other ?_⟩
    have lookup := sound.lookup entry
    rw [same] at lookup
    exact Option.some.inj (lookup.symm.trans found)
  · change _ ∈ ((s.release id ref).sockets i).retired
    rw [retired]
    exact mem

end Awaited

/-- One connection follows its server. -/
def Follows (t : AsyncTransport ε) (idOf : Nat → Nat) (s : State) (i token : Nat) (peer : Peer) :
    Prop :=
  ∃ done queue, peer.answers = done ++ queue ∧ List.Forall₂ (Settles s) (s.frames token) done ∧
    Live t idOf (Awaited t idOf s i) (s.sockets i) peer queue

theorem Follows.answer {token : Nat} {peer : Peer} {bytes : Bytes}
    (h : Follows t idOf s i token peer) (asked : ref ∈ peer.pending)
    (reply : Answer t idOf ref bytes) : Follows t idOf s i token (peer.answer ref bytes) := by
  obtain ⟨done, queue, split, settled, live⟩ := h
  refine ⟨done, queue ++ [(ref, bytes)], ?_, settled, live.answer asked reply⟩
  rw [Peer.answer, split, List.append_assoc]

namespace Correlated

/-- Nothing happens on any connection. -/
theorem of_eq (h : Correlated t idOf s) (wire : s'.wire = s.wire) (frames : s'.frames = s.frames)
    (traffic : ∀ i, (s'.sockets i).traffic = (s.sockets i).traffic)
    (completed : ∀ c ∈ s.completed, c ∈ s'.completed)
    (awaited : ∀ i r, (s.sockets i).fd = true → Awaited t idOf s i r → Awaited t idOf s' i r)
    (retired : ∀ i, ∀ id ∈ (s'.sockets i).retired, ∃ r, TimedOut s' r ∧ idOf r = id) :
    Correlated t idOf s' := by
  simp only [Connection.traffic, Prod.mk.injEq] at traffic
  refine ⟨fun token peer explains => ?_, retired⟩
  rw [wire] at explains
  obtain ⟨done, queue, split, settled, live⟩ := h.explained token peer explains
  refine ⟨done, queue, split, ?_, fun i open_ same => ?_⟩
  · rw [frames]
    exact settled.imp fun _ _ => Settles.mono completed
  · obtain ⟨fd, token', input, output, order⟩ := traffic i
    rw [fd] at open_
    rw [token'] at same
    exact (live i open_ same).of_eq input output order fun r _ => awaited i r open_

/-- Something happens on one open connection. -/
theorem touch (h : Correlated t idOf s) (sessions : Sessions x s)
    (open_ : (s.sockets i).fd = true) (token : (s'.sockets i).token = (s.sockets i).token)
    (others : ∀ j, j ≠ i → (s'.sockets j).traffic = (s.sockets j).traffic)
    (wire : ∀ k, k ≠ (s.sockets i).token → s'.wire k = s.wire k)
    (frames : ∀ k, k ≠ (s.sockets i).token → s'.frames k = s.frames k)
    (completed : ∀ c ∈ s.completed, c ∈ s'.completed)
    (awaited : ∀ j, j ≠ i → ∀ r, (s.sockets j).fd = true → Awaited t idOf s j r →
      Awaited t idOf s' j r)
    (retired : ∀ i, ∀ id ∈ (s'.sockets i).retired, ∃ r, TimedOut s' r ∧ idOf r = id)
    (own : ∀ peer, WellBehaved t idOf (s'.wire (s.sockets i).token) peer →
      Follows t idOf s' i (s.sockets i).token peer) : Correlated t idOf s' := by
  simp only [Connection.traffic, Prod.mk.injEq] at others
  refine ⟨fun k peer explains => ?_, retired⟩
  by_cases here : k = (s.sockets i).token
  · subst here
    obtain ⟨done, queue, split, settled, live⟩ := own peer explains
    refine ⟨done, queue, split, settled, fun j open' same => ?_⟩
    -- no other open connection has this token
    suffices j = i from this ▸ live
    by_contra other
    obtain ⟨fd, token', -⟩ := others j other
    exact other (sessions.apart j i (fd ▸ open') open_ (token' ▸ same))
  · rw [wire k here] at explains
    obtain ⟨done, queue, split, settled, live⟩ := h.explained k peer explains
    refine ⟨done, queue, split, ?_, fun j open' same => ?_⟩
    · rw [frames k here]
      exact settled.imp fun _ _ => Settles.mono completed
    · have other : j ≠ i := by
        rintro rfl
        exact here (same.symm.trans token)
      obtain ⟨fd, token', input, output, order⟩ := others j other
      rw [fd] at open'
      rw [token'] at same
      exact (live j open' same).of_eq input output order fun r _ => awaited j other r open'

/-- Calls of `Submit` and other changes to the requests that finish none. -/
theorem requests (h : Correlated t idOf s) (sound : s.ledger.Sound) (wire : s'.wire = s.wire)
    (frames : s'.frames = s.frames)
    (traffic : ∀ i, (s'.sockets i).traffic = (s.sockets i).traffic)
    (retired : ∀ i, (s'.sockets i).retired = (s.sockets i).retired)
    (accepted : ∀ r ∈ s.accepted, r ∈ s'.accepted)
    (completed : ∀ c ∈ s.completed, c ∈ s'.completed)
    (entries : ∀ p ∈ s.requests, p ∈ s'.requests)
    (slot : ∀ r < s.submitted, (s'.heap r).slot = (s.heap r).slot) : Correlated t idOf s' := by
  refine h.of_eq wire frames traffic completed (fun i r _ awaited => ?_) fun i id mem => ?_
  · exact awaited.mono (entries _) (fun entry => slot r (sound.ref_lt entry)) (retired i ▸ id)
      fun timeout => timeout.mono accepted completed
  · rw [retired] at mem
    obtain ⟨r, timeout, same⟩ := h.retired i id mem
    exact ⟨r, timeout.mono accepted completed, same⟩

theorem setSocket (h : Correlated t idOf s) (sound : s.ledger.Sound) {c : Connection}
    (sockets : s'.sockets = Function.update s.sockets i c)
    (traffic : c.traffic = (s.sockets i).traffic) (retired : c.retired = (s.sockets i).retired)
    (wire : s'.wire = s.wire) (frames : s'.frames = s.frames) (accepted : s'.accepted = s.accepted)
    (completed : s'.completed = s.completed) (requests : s'.requests = s.requests)
    (heap : s'.heap = s.heap) : Correlated t idOf s' := by
  refine h.requests sound wire frames (fun j => ?_) (fun j => ?_) (fun _ mem => accepted ▸ mem)
    (fun _ mem => completed ▸ mem) (fun _ mem => requests ▸ mem) fun _ _ => by rw [heap]
  · rw [sockets]
    exact update_field Connection.traffic traffic j
  · rw [sockets]
    exact update_field Connection.retired retired j

/-- A request is finished that no open connection awaits. -/
theorem release (h : Correlated t idOf s) (sound : s.ledger.Sound)
    (found : s.requests.lookup id = some ref) (outcome : Outcome)
    (unawaited : ∀ i, (s.sockets i).fd = true → (s.heap ref).slot ≠ some i) :
    Correlated t idOf ((s.release id ref).record ref outcome) := by
  have entry := Assoc.mem_of_lookup found
  refine h.of_eq rfl rfl (release_field Connection.traffic (fun _ _ => rfl) s id ref)
    (fun _ mem => List.mem_append_left _ mem) (fun i r open_ awaited => ?_) fun i id' mem => ?_
  · refine awaited.release sound found ?_ outcome
    rintro rfl
    exact Awaited.not_of_unassigned sound entry (unawaited i open_) awaited
  · have kept := release_field Connection.retired (fun _ _ => rfl) s id ref i
    obtain ⟨r, timeout, same⟩ := h.retired i id' (kept ▸ mem)
    exact ⟨r, timeout.mono (fun _ mem => mem) fun _ mem => List.mem_append_left _ mem, same⟩

end Correlated

/-- The frame at the front of the input is the first answer, and the identifier found for it is
the one of its request. -/
theorem front_answer {Expected : Nat → Prop} {c : Connection} {peer : Peer}
    {queue : List (Nat × Bytes)} {size : Nat} (lawful : Lawful t.framing) (valid : c.input.Valid)
    (live : Live t idOf Expected c peer queue) (framing : t.framing c.input.contents = .ok size)
    (positive : size ≠ 0) (whole : size ≤ c.input.size) :
    ∃ r rest, queue = (r, c.input.copy size) :: rest ∧ (c.input.copy size).length = size ∧
      responseId t c (c.input.copy size) = .ok (idOf r) := by
  have length := Buffer.size_eq valid
  have nonempty : c.input.contents ≠ [] := by
    intro empty
    rw [length, empty, List.length_nil] at whole
    omega
  obtain ⟨r, b, rest, rfl, sizes, front⟩ := live.front lawful nonempty
  have size_eq : size = b.length := by
    obtain zero | whole := sizes
    · exact absurd (Except.ok.inj (framing.symm.trans zero)) positive
    · exact Except.ok.inj (framing.symm.trans whole)
  have same : c.input.copy size = b := by
    rw [Buffer.copy, size_eq]
    exact front (by omega)
  rw [same]
  refine ⟨r, rest, rfl, size_eq.symm, ?_⟩
  unfold responseId
  cases ids : t.ids with
  | some f => exact (live.answers _ List.mem_cons_self).id f ids
  | none =>
    have first := (live.order ids).1
    rw [first]
    rfl

theorem cuts_front {Expected : Nat → Prop} {peer : Peer} {queue : List (Nat × Bytes)} {size : Nat}
    {response : Bytes} (lawful : Lawful t.framing) (valid : (s.sockets i).input.Valid)
    (cuts : s.Cuts t i size id response)
    (live : Live t idOf Expected (s.sockets i) peer queue) :
    ∃ r rest, queue = (r, response) :: rest ∧ response.length = size ∧ idOf r = id := by
  obtain ⟨r, rest, split, length, found⟩ :=
    front_answer lawful valid live cuts.framing cuts.positive cuts.whole
  rw [← cuts.bytes] at split length found
  exact ⟨r, rest, split, length, Except.ok.inj (found.symm.trans cuts.id)⟩

/-- Against a well-behaved server no frame is refused. -/
theorem not_refuses {Expected : Nat → Prop} {peer : Peer} {queue : List (Nat × Bytes)}
    (lawful : Lawful t.framing) (valid : (s.sockets i).input.Valid)
    (live : Live t idOf Expected (s.sockets i) peer queue)
    (expected : ∀ r, Expected r → s.requests.lookup (idOf r) = some r ∧ (s.heap r).slot = some i ∨
      t.ids.isSome ∧ idOf r ∈ (s.sockets i).retired) : ¬ s.Refuses t i s' := by
  intro refuses
  have length := Buffer.size_eq valid
  have filled : (s.sockets i).input.size ≠ 0 → (s.sockets i).input.contents ≠ [] := by
    intro nonempty empty
    exact nonempty (by rw [length, empty, List.length_nil])
  cases refuses with
  | framing nonempty error =>
    obtain ⟨r, b, rest, rfl, sizes, -⟩ := live.front lawful (filled nonempty)
    rw [error] at sizes
    exact sizes.elim nofun nofun
  | tooLarge nonempty framing large =>
    obtain ⟨r, b, rest, rfl, sizes, -⟩ := live.front lawful (filled nonempty)
    have within := (live.answers _ List.mem_cons_self).within
    rw [framing, Except.ok.injEq, Except.ok.injEq] at sizes
    dsimp only at within
    omega
  | noId framing positive whole error =>
    obtain ⟨r, rest, -, -, found⟩ := front_answer lawful valid live framing positive whole
    rw [error] at found
    cases found
  | @unknown size id response cuts known other =>
    obtain ⟨r, rest, rfl, -, rfl⟩ := cuts_front lawful valid cuts live
    have mem : r ∈ (s.sockets i).unanswered peer ((r, response) :: rest) := List.mem_cons_self
    obtain ⟨found, slot⟩ | late := expected r (live.awaited r mem)
    · exact other r found slot
    · exact known late

section Steps

variable (sound : s.ledger.Sound) (distinct : s.ledger.Distinct)
  (agrees : ∀ r ∈ s.accepted, (s.heap r).id = idOf r)

include agrees

include sound in
theorem id_of_entry (entry : (id, ref) ∈ s.requests) : idOf ref = id :=
  (agrees ref (Ledger.mem_outstanding.mp (sound.enrolled _ entry)).1).symm.trans
    (sound.ids _ entry)

include distinct in
/-- Identifiers tell the admitted requests apart. -/
theorem eq_of_id {a b : Nat} (first : a ∈ s.accepted) (second : b ∈ s.accepted)
    (same : idOf a = idOf b) : a = b := by
  refine distinct a first b second ?_
  exact (agrees a first).trans (same.trans (agrees b second).symm)

namespace Correlated

include sound

/-- A sent request misses its deadline: the connection stays prepared for the answer. -/
theorem retire (h : Correlated t idOf s) (found : s.requests.lookup id = some ref)
    (slot : (s.heap ref).slot = some i) (ids : t.ids.isSome) :
    Correlated t idOf (((s.retire i id).release id ref).record ref (.error deadlineExceeded)) := by
  have entry := Assoc.mem_of_lookup found
  have own : idOf ref = id := id_of_entry sound agrees entry
  have timeout : TimedOut (((s.retire i id).release id ref).record ref (.error deadlineExceeded))
      ref := ⟨(Ledger.mem_outstanding.mp (sound.enrolled _ entry)).1, by simp [record]⟩
  have retired : ∀ j, ((((s.retire i id).release id ref).record ref
      (.error deadlineExceeded)).sockets j).retired =
        if j = i then (s.sockets i).retired.insert id else (s.sockets j).retired := by
    intro j
    refine (release_field Connection.retired (fun _ _ => rfl) (s.retire i id) id ref j).trans ?_
    by_cases here : j = i
    · simp [State.retire, State.setSocket, here]
    · simp [State.retire, State.setSocket, here]
  have traffic : ∀ j, ((((s.retire i id).release id ref).record ref
      (.error deadlineExceeded)).sockets j).traffic = (s.sockets j).traffic := fun j =>
    Eq.trans (release_field Connection.traffic (fun _ _ => rfl) (s.retire i id) id ref j)
      (update_field Connection.traffic (by rfl) j)
  refine h.of_eq rfl rfl traffic (fun _ mem => List.mem_append_left _ mem) ?_ ?_
  · intro j r open_ awaited
    by_cases same : r = ref
    · subst same
      cases awaited with
      | open_ _ assigned =>
        rw [slot, Option.some.injEq] at assigned
        subst assigned
        refine .late ids ?_ timeout
        rw [retired, if_pos rfl, own]
        exact List.mem_insert_self
      | late _ _ early => exact absurd early (not_timedOut sound entry)
    · have kept : Awaited t idOf (s.retire i id) j r := by
        refine awaited.mono (fun mem => mem) (fun _ => rfl) (fun mem => ?_) fun late => late
        by_cases here : j = i
        · subst here
          simpa [State.retire, State.setSocket] using .inr mem
        · simpa [State.retire, State.setSocket, here] using mem
      exact kept.release sound found same _
  · intro j id' mem
    rw [retired] at mem
    have before : id' = id ∨ id' ∈ (s.sockets j).retired := by
      split at mem
      case isTrue here => exact here ▸ List.mem_insert_iff.mp mem
      case isFalse => exact .inr mem
    obtain rfl | before := before
    · exact ⟨ref, timeout, own⟩
    · obtain ⟨r, late, same⟩ := h.retired j id' before
      exact ⟨r, late.mono (fun _ mem => mem) fun _ mem => List.mem_append_left _ mem, same⟩

omit sound agrees in
/-- The frame at the front of the input is processed. -/
theorem process (h : Correlated t idOf s) (lawful : Lawful t.framing) (sessions : Sessions x s)
    (verdict : Verdict) {size : Nat} {response : Bytes} (open_ : (s.sockets i).fd = true)
    (cuts : s.Cuts t i size id response) (token : (s'.sockets i).token = (s.sockets i).token)
    (input : (s'.sockets i).input = (s.sockets i).input.consume size)
    (output : (s'.sockets i).output = (s.sockets i).output)
    (order : (s'.sockets i).order =
      if t.ids.isSome then (s.sockets i).order else (s.sockets i).order.tail)
    (others : ∀ j, j ≠ i → (s'.sockets j).traffic = (s.sockets j).traffic)
    (wire : s'.wire = s.wire)
    (frames : s'.frames = Function.update s.frames (s.sockets i).token
      (s.frames (s.sockets i).token ++ [(response, verdict)]))
    (completed : ∀ c ∈ s.completed, c ∈ s'.completed)
    (retired : ∀ i, ∀ id ∈ (s'.sockets i).retired, ∃ r, TimedOut s' r ∧ idOf r = id)
    (awaited : ∀ j, j ≠ i → ∀ r, (s.sockets j).fd = true → Awaited t idOf s j r →
      Awaited t idOf s' j r)
    (settles : ∀ r, idOf r = id → Awaited t idOf s i r →
      Settles s' (response, verdict) (r, response) ∧
        ∀ r', r' ≠ r → Awaited t idOf s i r' → Awaited t idOf s' i r') :
    Correlated t idOf s' := by
  refine h.touch sessions open_ token others (fun _ _ => by rw [wire]) (fun k other => ?_) completed
    awaited retired fun peer explains => ?_
  · rw [frames, Function.update_of_ne other]
  · rw [wire] at explains
    obtain ⟨done, queue, split, settled, live⟩ := h.explained _ peer explains
    have here := live i open_ rfl
    obtain ⟨r, rest, rfl, length, own⟩ := cuts_front lawful (sessions.valid i) cuts here
    obtain ⟨settled', others'⟩ := settles r own (here.awaited r List.mem_cons_self)
    have whole := cuts.whole
    rw [Buffer.size_eq (sessions.valid i)] at whole
    refine ⟨done ++ [(r, response)], rest, ?_, ?_, ?_⟩
    · rw [split, List.append_assoc]
      rfl
    · rw [frames, Function.update_self]
      exact List.rel_append (settled.imp fun _ _ => Settles.mono completed) (.cons settled' .nil)
    · refine here.take (length.trans_le whole) ?_ output order fun r' _ => others' r'
      rw [input, Buffer.contents_consume, length]

omit agrees in
/-- The answer to an open request is delivered to it. -/
theorem deliver (h : Correlated t idOf s) (lawful : Lawful t.framing) (sessions : Sessions x s)
    {size : Nat} {response : Bytes} (open_ : (s.sockets i).fd = true)
    (cuts : s.Cuts t i size id response)
    (known : ¬ (t.ids.isSome ∧ id ∈ (s.sockets i).retired))
    (found : s.requests.lookup id = some ref) (slot : (s.heap ref).slot = some i) :
    Correlated t idOf
      (((s.take t i size ref response).release id ref).record ref (.response response)) := by
  have entry := Assoc.mem_of_lookup found
  have field : ∀ {α : Type} (f : Connection → α) (_ : ∀ c n, f { c with inflight := n } = f c) j,
      f ((((s.take t i size ref response).release id ref).record ref
        (.response response)).sockets j) = f ((s.take t i size ref response).sockets j) :=
    fun f other j => release_field f other (s.take t i size ref response) id ref j
  have retired : ∀ j, ((s.take t i size ref response).sockets j).retired =
      (s.sockets j).retired := update_field Connection.retired (by rfl)
  have others : ∀ {j r}, r ≠ ref → Awaited t idOf s j r → Awaited t idOf
      (((s.take t i size ref response).release id ref).record ref (.response response)) j r := by
    intro j r other awaited
    have kept : Awaited t idOf (s.take t i size ref response) j r :=
      awaited.mono (fun mem => mem) (fun _ => rfl) (fun mem => retired j ▸ mem) fun late => late
    exact kept.release sound found other _
  refine h.process lawful sessions (.delivered ref) open_ cuts ?_ ?_ ?_ ?_ (fun j other => ?_) rfl
    ?_ (fun _ mem => List.mem_append_left _ mem) (fun j id' mem => ?_)
    (fun j other r _ awaited => ?_) fun r own awaited => ?_
  · rw [field Connection.token fun _ _ => rfl]
    simp [State.take, note]
  · rw [field Connection.input fun _ _ => rfl]
    simp [State.take, note]
  · rw [field Connection.output fun _ _ => rfl]
    simp [State.take, note]
  · rw [field Connection.order fun _ _ => rfl]
    simp [State.take, note]
  · rw [field Connection.traffic fun _ _ => rfl]
    simp [State.take, note, other]
  · simp [State.take, note, record, State.release]
  · rw [field Connection.retired fun _ _ => rfl, retired] at mem
    obtain ⟨r, late, same⟩ := h.retired j id' mem
    exact ⟨r, late.mono (fun _ mem => mem) fun _ mem => List.mem_append_left _ mem, same⟩
  · refine others ?_ awaited
    rintro rfl
    refine Awaited.not_of_unassigned sound entry ?_ awaited
    rw [slot, Ne, Option.some.injEq]
    exact other.symm
  · have same : r = ref := by
      cases awaited with
      | open_ mem _ =>
        have lookup := sound.lookup mem
        rw [own] at lookup
        exact Option.some.inj (lookup.symm.trans found)
      | late ids mem _ => exact absurd ⟨ids, own ▸ mem⟩ known
    subst same
    exact ⟨⟨rfl, .inl ⟨rfl, by simp [record]⟩⟩, fun r' other => others other⟩

include distinct in
/-- A late answer is dropped. -/
theorem drop (h : Correlated t idOf s) (lawful : Lawful t.framing) (sessions : Sessions x s)
    {size : Nat} {response : Bytes} (open_ : (s.sockets i).fd = true)
    (cuts : s.Cuts t i size id response) (ids : t.ids.isSome)
    (retired : id ∈ (s.sockets i).retired) : Correlated t idOf (s.drop i size id response) := by
  have kept : ∀ j, j ≠ i → (s.drop i size id response).sockets j = s.sockets j := by
    intro j other
    simp [State.drop, note, other]
  have own : ((s.drop i size id response).sockets i).retired =
      (s.sockets i).retired.filter (· ≠ id) := by
    simp [State.drop, note]
  refine h.process lawful sessions .dropped open_ cuts ?_ ?_ ?_ ?_ (fun j other => ?_) rfl ?_
    (fun _ mem => mem) (fun j id' mem => ?_) (fun j other r _ awaited => ?_)
    fun r known awaited => ?_
  · simp [State.drop, note]
  · simp [State.drop, note]
  · simp [State.drop, note]
  · simp [State.drop, note, ids]
  · rw [kept j other]
  · simp [State.drop, note]
  · refine h.retired j id' ?_
    by_cases here : j = i
    · subst here
      rw [own] at mem
      exact List.mem_of_mem_filter mem
    · rwa [kept j here] at mem
  · refine awaited.mono (fun mem => mem) (fun _ => rfl) (fun mem => ?_) fun late => late
    rw [kept j other]
    exact mem
  · -- the identifier belongs to one admitted request, which has timed out
    obtain ⟨owner, late, same⟩ := h.retired i id retired
    have accepted := awaited.accepted sound
    obtain rfl : owner = r := eq_of_id distinct agrees late.1 accepted (same.trans known.symm)
    refine ⟨⟨rfl, .inr ⟨rfl, late.2⟩⟩, fun r' other awaited' => ?_⟩
    refine awaited'.mono (fun mem => mem) (fun _ => rfl) (fun mem => ?_) fun late => late
    rw [own]
    refine List.mem_filter.mpr ⟨mem, decide_eq_true fun reused => other ?_⟩
    exact eq_of_id distinct agrees (awaited'.accepted sound) accepted (reused.trans known.symm)

omit agrees in
/-- What is refused would not explain a well-behaved server. -/
theorem refuse (h : Correlated t idOf s) (lawful : Lawful t.framing) (sessions : Sessions x s)
    (open_ : (s.sockets i).fd = true) (refuses : s.Refuses t i s') : Correlated t idOf s' := by
  have impossible : ∀ peer, ¬ WellBehaved t idOf (s.wire (s.sockets i).token) peer := by
    intro peer explains
    obtain ⟨done, queue, -, -, live⟩ := h.explained _ peer explains
    refine not_refuses lawful (sessions.valid i) (live i open_ rfl) (fun r awaited => ?_) refuses
    cases awaited with
    | open_ entry slot => exact .inl ⟨sound.lookup entry, slot⟩
    | late ids retired _ => exact .inr ⟨ids, retired⟩
  have noted : ∀ bytes verdict, Correlated t idOf (s.note i bytes verdict) := by
    intro bytes verdict
    refine h.touch sessions open_ rfl (fun _ _ => rfl) (fun _ _ => rfl)
      (fun k other => Function.update_of_ne other _ _) (fun _ mem => mem)
      (fun j _ r _ awaited => ?_) h.retired fun peer explains => absurd explains (impossible peer)
    exact awaited.mono (fun mem => mem) (fun _ => rfl) (fun mem => mem) fun late => late
  have consumed : ∀ size bytes verdict,
      Correlated t idOf ((s.consume i size).note i bytes verdict) := by
    intro size bytes verdict
    have retired : ∀ j, (((s.consume i size).note i bytes verdict).sockets j).retired =
        (s.sockets j).retired := update_field Connection.retired (by rfl)
    refine h.touch sessions open_ (update_field Connection.token (by rfl) i) (fun j other => ?_)
      (fun _ _ => rfl) (fun k other => ?_) (fun _ mem => mem) (fun j _ r _ awaited => ?_)
      (fun j id mem => h.retired j id (retired j ▸ mem))
      fun peer explains => absurd explains (impossible peer)
    · simp [State.consume, note, State.setSocket, other]
    · simp [State.consume, note, State.setSocket, other]
    · exact awaited.mono (fun mem => mem) (fun _ => rfl) (fun mem => (retired j).symm ▸ mem)
        fun late => late
  cases refuses with
  | framing _ _ => exact noted _ _
  | tooLarge _ _ _ => exact noted _ _
  | noId _ _ _ _ => exact consumed _ _ _
  | unknown _ _ _ => exact consumed _ _ _

omit sound agrees in
/-- A connection is not open afterwards. -/
theorem shut (h : Correlated t idOf s) (fd : (s'.sockets i).fd = false)
    (retired : (s'.sockets i).retired = []) (others : ∀ j, j ≠ i → s'.sockets j = s.sockets j)
    (wire : s'.wire = s.wire) (frames : s'.frames = s.frames)
    (accepted : s'.accepted = s.accepted) (completed : s'.completed = s.completed)
    (awaited : ∀ j, j ≠ i → ∀ r, Awaited t idOf s j r → Awaited t idOf s' j r) :
    Correlated t idOf s' := by
  refine ⟨fun token peer explains => ?_, fun j id mem => ?_⟩
  · rw [wire] at explains
    obtain ⟨done, queue, split, settled, live⟩ := h.explained token peer explains
    refine ⟨done, queue, split, ?_, fun j open_ same => ?_⟩
    · rw [frames]
      exact settled.imp fun _ _ => Settles.mono fun c mem => completed ▸ mem
    · have other : j ≠ i := by
        rintro rfl
        simp [fd] at open_
      rw [others j other] at open_ same ⊢
      exact (live j open_ same).of_eq rfl rfl rfl fun r _ => awaited j other r
  · by_cases here : j = i
    · rw [here, retired] at mem
      cases mem
    · rw [others j here] at mem
      obtain ⟨r, late, same⟩ := h.retired j id mem
      exact ⟨r, late.mono (fun _ mem => accepted ▸ mem) (fun _ mem => completed ▸ mem), same⟩

omit sound agrees in
theorem clear (h : Correlated t idOf s) (i : Nat) : Correlated t idOf (s.clear i) := by
  have others : ∀ j, j ≠ i → (s.clear i).sockets j = s.sockets j := fun j other =>
    Function.update_of_ne other _ _
  refine h.shut (i := i) ?_ ?_ others rfl rfl rfl rfl fun j other r awaited => ?_
  · simp [State.clear]
  · simp [State.clear]
  · refine awaited.mono (fun mem => mem) (fun _ => rfl) (fun mem => ?_) fun late => late
    rw [others j other]
    exact mem

omit agrees in
/-- A request at the head of the line is not awaited anywhere. -/
theorem not_awaited_of_head {rest : List Nat} (head : s.waiting = ref :: rest) (j : Nat) :
    ¬ Awaited t idOf s j ref := by
  obtain ⟨out, free⟩ := sound.waiting ref (by simp [ledger, head])
  intro awaited
  cases awaited with
  | open_ _ slot => exact Option.some_ne_none _ (slot.symm.trans free)
  | late _ _ timeout =>
    exact (Ledger.mem_outstanding.mp out).2 (List.mem_map.mpr ⟨_, timeout.2, rfl⟩)

omit agrees in
/-- The other requests are awaited as before. -/
theorem awaited_of_assigned {rest : List Nat} (head : s.waiting = ref :: rest)
    (requests : s'.requests = s.requests)
    (heap : s'.heap = Function.update s.heap ref { s.heap ref with slot := some i })
    (retired : (s'.sockets j).retired = (s.sockets j).retired)
    (accepted : s'.accepted = s.accepted) (completed : s'.completed = s.completed)
    (awaited : Awaited t idOf s j r) : Awaited t idOf s' j r := by
  have other : r ≠ ref := by
    rintro rfl
    exact not_awaited_of_head sound head j awaited
  refine awaited.mono (fun mem => requests ▸ mem) (fun _ => ?_) (fun mem => retired.symm ▸ mem)
    fun late => late.mono (fun _ mem => accepted ▸ mem) fun _ mem => completed ▸ mem
  rw [heap, Function.update_of_ne other]

include distinct in
/-- The head of the line that `Dispatch` finds in the map is there itself. -/
theorem entry_of_head {rest : List Nat} (head : s.waiting = ref :: rest)
    (known : (s.requests.lookup (s.heap ref).id).isSome) : (idOf ref, ref) ∈ s.requests := by
  obtain ⟨out, -⟩ := sound.waiting ref (by simp [ledger, head])
  have accepted := (Ledger.mem_outstanding.mp out).1
  obtain ⟨ref', found⟩ := Option.isSome_iff_exists.mp known
  have entry := Assoc.mem_of_lookup found
  have accepted' : ref' ∈ s.accepted := (Ledger.mem_outstanding.mp (sound.enrolled _ entry)).1
  have own : (s.heap ref).id = idOf ref := agrees ref accepted
  have same : ref' = ref :=
    eq_of_id distinct agrees accepted' accepted ((id_of_entry sound agrees entry).trans own)
  rwa [same, own] at entry

omit sound agrees in
/-- Without identifiers a connection with room is idle. -/
theorem unanswered_eq_nil (accounts : Accounts t s) (sound : s.ledger.Sound) {peer : Peer}
    {queue : List (Nat × Bytes)} (none : t.ids = none)
    (room : (s.sockets i).inflight + (s.sockets i).retired.length < t.limit)
    (live : Live t idOf (Awaited t idOf s i) (s.sockets i) peer queue) :
    (s.sockets i).unanswered peer queue = [] := by
  refine List.eq_nil_iff_forall_not_mem.mpr fun r mem => ?_
  have idle : (s.ledger.assigned i).length = 0 := by
    rw [← accounts.inflight]
    simp only [AsyncTransport.limit, none, Option.isSome_none, Bool.false_eq_true, if_false] at room
    omega
  cases live.awaited r mem with
  | open_ entry slot =>
    have one : r ∈ s.ledger.assigned i :=
      List.mem_filter.mpr ⟨sound.enrolled _ entry, decide_eq_true slot⟩
    rw [List.length_eq_zero_iff.mp idle] at one
    cases one
  | late ids _ _ => simp [none] at ids

include distinct in
/-- A waiting request is given to an open connection. -/
theorem assign (h : Correlated t idOf s) (accounts : Accounts t s) (sessions : Sessions x s)
    {rest : List Nat} (head : s.waiting = ref :: rest)
    (known : (s.requests.lookup (s.heap ref).id).isSome)
    (room : (s.sockets i).inflight + (s.sockets i).retired.length < t.limit)
    (open_ : (s.sockets i).fd = true) : Correlated t idOf (s.assign t i ref rest) := by
  have retired : ∀ j, ((s.assign t i ref rest).sockets j).retired = (s.sockets j).retired :=
    update_field Connection.retired (by rfl)
  have kept : ∀ j r, Awaited t idOf s j r → Awaited t idOf (s.assign t i ref rest) j r :=
    fun j r => awaited_of_assigned sound head rfl rfl (retired j) rfl rfl
  have entry : (idOf ref, ref) ∈ s.requests := entry_of_head sound distinct agrees head known
  have own : Awaited t idOf (s.assign t i ref rest) i ref := .open_ entry (by simp [State.assign])
  have accepted : ref ∈ s.accepted :=
    (Ledger.mem_outstanding.mp (sound.waiting ref (by simp [ledger, head])).1).1
  refine h.touch sessions open_ (update_field Connection.token (by rfl) i) (fun j other => ?_)
    (fun _ _ => rfl) (fun _ _ => rfl) (fun _ mem => mem) (fun j _ r _ => kept j r)
    (fun j id mem => h.retired j id (retired j ▸ mem)) fun peer explains => ?_
  · simp [State.assign, other]
  · obtain ⟨done, queue, split, settled, live⟩ := h.explained _ peer explains
    have here := live i open_ rfl
    refine ⟨done, queue, split, settled, here.assign (fun mem => ?_) (fun none => ?_) ?_ ?_ ?_
      (fun r _ => kept i r) own⟩
    · exact not_awaited_of_head sound head i (here.awaited ref mem)
    · exact unanswered_eq_nil accounts sound none room here
    · simp [State.assign]
    · simp [State.assign]
    · simp [State.assign, agrees ref accepted]

include distinct in
/-- A waiting request is given to a connection whose session begins. -/
theorem start (h : Correlated t idOf s) (sessions : Sessions x s) {rest : List Nat}
    (head : s.waiting = ref :: rest) (known : (s.requests.lookup (s.heap ref).id).isSome)
    (closed : (s.sockets i).fd = false) (requests : s'.requests = s.requests)
    (heap : s'.heap = Function.update s.heap ref { s.heap ref with slot := some i })
    (token : (s'.sockets i).token = s.loop.next)
    (input : (s'.sockets i).input = (s.sockets i).input) (output : (s'.sockets i).output = [ref])
    (order : (s'.sockets i).order = if t.ids.isSome then [] else [(s.heap ref).id])
    (others : ∀ j, j ≠ i → s'.sockets j = s.sockets j)
    (retired : (s'.sockets i).retired = (s.sockets i).retired) (wire : s'.wire = s.wire)
    (frames : s'.frames = s.frames) (accepted : s'.accepted = s.accepted)
    (completed : s'.completed = s.completed) : Correlated t idOf s' := by
  have retired' : ∀ j, (s'.sockets j).retired = (s.sockets j).retired := by
    intro j
    by_cases here : j = i
    · rw [here, retired]
    · rw [others j here]
  have entry : (idOf ref, ref) ∈ s'.requests :=
    requests ▸ entry_of_head sound distinct agrees head known
  have own : (s.heap ref).id = idOf ref :=
    agrees ref (Ledger.mem_outstanding.mp (sound.waiting ref (by simp [ledger, head])).1).1
  obtain ⟨input', output', order'⟩ := sessions.closed i closed
  refine ⟨fun k peer explains => ?_, fun j id mem => ?_⟩
  · rw [wire] at explains
    obtain ⟨done, queue, split, settled, live⟩ := h.explained k peer explains
    refine ⟨done, queue, split, ?_, fun j open_ same => ?_⟩
    · rw [frames]
      exact settled.imp fun _ _ => Settles.mono fun c mem => completed ▸ mem
    · by_cases here : j = i
      · subst here
        -- nothing has passed under the new token
        rw [← same, token, (sessions.fresh _ le_rfl).1] at explains
        obtain rfl := explains.nil_inv
        obtain ⟨-, rfl⟩ := List.append_eq_nil_iff.mp split.symm
        have empty : Live t idOf (fun _ => False) (s.sockets j) {} [] :=
          Live.init input' output' order'
        have none : (s.sockets j).unanswered {} [] = [] := by
          simp [Connection.unanswered, output']
        refine empty.assign (by simp [none]) (fun _ => none) input (by rw [output, output']; rfl) ?_
          (fun r _ => False.elim) (.open_ entry (by simp [heap]))
        rw [order, order', own]
        rfl
      · rw [others j here] at open_ same ⊢
        exact (live j open_ same).of_eq rfl rfl rfl fun r _ =>
          awaited_of_assigned sound head requests heap (retired' j) accepted completed
  · rw [retired'] at mem
    obtain ⟨r, late, same⟩ := h.retired j id mem
    exact ⟨r, late.mono (fun _ mem => accepted ▸ mem) (fun _ mem => completed ▸ mem), same⟩

omit sound agrees in
/-- The last octet of a request is sent. -/
theorem flushed (h : Correlated t idOf s) (sessions : Sessions x s)
    (open_ : (s.sockets i).fd = true) {rest : List Nat}
    (front : (s.sockets i).output = ref :: rest)
    (sockets : s'.sockets = Function.update s.sockets i
      { s.sockets i with output := rest, sent := 0 })
    (heap : s'.heap = Function.update s.heap ref { s.heap ref with sent := true })
    (wire : s'.wire = Function.update s.wire (s.sockets i).token
      (s.wire (s.sockets i).token ++ [.sent ref]))
    (frames : s'.frames = s.frames) (requests : s'.requests = s.requests)
    (accepted : s'.accepted = s.accepted) (completed : s'.completed = s.completed) :
    Correlated t idOf s' := by
  have slots : ∀ r, (s'.heap r).slot = (s.heap r).slot := by
    rw [heap]
    exact update_field Request.slot (by rfl)
  have retired : ∀ j, (s'.sockets j).retired = (s.sockets j).retired := by
    rw [sockets]
    exact update_field Connection.retired (by rfl)
  have grown : ∀ {r}, TimedOut s r → TimedOut s' r := fun late =>
    late.mono (fun _ mem => accepted ▸ mem) fun _ mem => completed ▸ mem
  have kept : ∀ j r, Awaited t idOf s j r → Awaited t idOf s' j r := fun j r awaited =>
    awaited.mono (fun mem => requests ▸ mem) (fun _ => slots r) (fun mem => (retired j).symm ▸ mem)
      grown
  have own : s'.sockets i = { s.sockets i with output := rest, sent := 0 } := by
    rw [sockets, Function.update_self]
  refine h.touch sessions open_ (by rw [own]) (fun j other => ?_) (fun k other => ?_)
    (fun _ _ => by rw [frames]) (fun _ mem => completed ▸ mem) (fun j _ r _ => kept j r)
    (fun j id mem => ?_) fun peer explains => ?_
  · rw [sockets, Function.update_of_ne other]
  · rw [wire, Function.update_of_ne other]
  · obtain ⟨r, late, same⟩ := h.retired j id (retired j ▸ mem)
    exact ⟨r, grown late, same⟩
  · rw [wire, Function.update_self] at explains
    refine WellBehaved.snoc (fun ref' peer last before => ?_) (by rintro _ _ _ ⟨⟩)
      (fun peer ref bytes follows => follows.answer) explains
    obtain rfl : ref = ref' := Wire.sent.inj last
    obtain ⟨done, queue, split, settled, live⟩ := h.explained _ peer before
    refine ⟨done, queue, split, ?_, ?_⟩
    · rw [frames]
      exact settled.imp fun _ _ => Settles.mono fun _ mem => completed ▸ mem
    · have sent : Live t idOf (Awaited t idOf s i) (s'.sockets i) (peer.request ref) queue :=
        (live i open_ rfl).sent front (by rw [own]) (by rw [own]) (by rw [own])
      exact sent.of_eq rfl rfl rfl fun r _ => kept i r

omit agrees in
/-- Octets of the request at the front are sent. -/
theorem wrote (h : Correlated t idOf s) (sessions : Sessions x s)
    (open_ : (s.sockets i).fd = true) {rest : List Nat} (n : Nat)
    (front : (s.sockets i).output = ref :: rest) : Correlated t idOf (s.wrote i ref rest n) := by
  unfold State.wrote
  split
  · exact h.flushed sessions open_ front rfl rfl rfl rfl rfl rfl rfl
  · exact h.setSocket sound rfl rfl rfl rfl rfl rfl rfl rfl rfl

omit sound agrees in
/-- Octets are received. -/
theorem received (h : Correlated t idOf s) (sessions : Sessions x s)
    (open_ : (s.sockets i).fd = true) (bytes : Bytes) : Correlated t idOf (s.received i bytes) := by
  have retired : ∀ j, ((s.received i bytes).sockets j).retired = (s.sockets j).retired :=
    update_field Connection.retired (by rfl)
  have kept : ∀ j r, Awaited t idOf s j r → Awaited t idOf (s.received i bytes) j r :=
    fun j r awaited => awaited.mono (fun mem => mem) (fun _ => rfl)
      (fun mem => (retired j).symm ▸ mem) fun late => late
  refine h.touch sessions open_ (update_field Connection.token (by rfl) i) (fun j other => ?_)
    (fun k other => Function.update_of_ne other _ _) (fun _ _ => rfl) (fun _ mem => mem)
    (fun j _ r _ => kept j r) (fun j id mem => h.retired j id (retired j ▸ mem))
    fun peer explains => ?_
  · simp [State.received, other]
  · simp only [State.received, Function.update_self] at explains
    refine WellBehaved.snoc (by rintro _ _ ⟨⟩) (fun bytes' rest peer last before unread => ?_)
      (fun peer ref bytes follows => follows.answer) explains
    obtain rfl : bytes = bytes' := Wire.received.inj last
    obtain ⟨done, queue, split, settled, live⟩ := h.explained _ peer before
    refine ⟨done, queue, split, settled, ?_⟩
    have read : Live t idOf (Awaited t idOf s i) ((s.received i bytes).sockets i)
        { peer with unread := rest } queue := by
      refine (live i open_ rfl).read unread ?_ ?_ ?_
      · simp [State.received, Buffer.contents_append (sessions.valid i)]
      · simp [State.received]
      · simp [State.received]
    exact read.of_eq rfl rfl rfl fun r _ => kept i r

include distinct in
theorem step (h : Correlated t idOf s) (lawful : Lawful t.framing) (accounts : Accounts t s)
    (sessions : Sessions x s) (step : Step t (x, s) (x', s')) : Correlated t idOf s' := by
  have same : ∀ {s' : State}, s'.wire = s.wire → s'.frames = s.frames → s'.sockets = s.sockets →
      s'.accepted = s.accepted → s'.completed = s.completed → s'.requests = s.requests →
      s'.heap = s.heap → Correlated t idOf s' := by
    intro s' wire frames sockets accepted completed requests heap
    exact h.requests sound wire frames (fun _ => by rw [sockets]) (fun _ => by rw [sockets])
      (fun _ mem => accepted ▸ mem) (fun _ mem => completed ▸ mem) (fun _ mem => requests ▸ mem)
      fun _ _ => by rw [heap]
  cases step with
  | reject _ =>
    refine h.requests sound rfl rfl (fun _ => rfl) (fun _ => rfl) (fun _ mem => mem)
      (fun _ mem => List.mem_append_left _ mem) (fun _ mem => mem) fun r old => ?_
    exact congrArg Request.slot (Function.update_of_ne old.ne _ _)
  | accept _ =>
    refine h.requests sound rfl rfl (fun _ => rfl) (fun _ => rfl)
      (fun _ mem => List.mem_append_left _ mem) (fun _ mem => mem) (fun _ mem => mem)
      fun r old => ?_
    exact congrArg Request.slot (Function.update_of_ne old.ne _ _)
  | @enroll _ _ ref rest head =>
    refine h.requests sound rfl rfl (fun _ => rfl) (fun _ => rfl) (fun _ mem => mem)
      (fun _ mem => mem) (fun p mem => ?_) fun r _ => ?_
    · unfold State.enroll
      dsimp only
      split
      · exact mem
      · exact List.mem_append_left _ mem
    · exact update_field Request.slot (by rfl) r
  | resume _ => exact h.setSocket sound rfl rfl rfl rfl rfl rfl rfl rfl rfl
  | fired _ _ => exact h
  | expire found slot => exact h.release sound found _ fun i _ => by simp [slot]
  | fail found slot closing =>
    refine h.release sound found _ fun i open_ assigned => ?_
    rw [slot, Option.some.injEq] at assigned
    rw [← assigned, sessions.closing _ closing] at open_
    cases open_
  | retire found slot ids _ => exact h.retire sound agrees found slot ids
  | deliver open_ cuts known found slot =>
    exact h.deliver sound lawful sessions open_ cuts known found slot
  | drop open_ cuts ids retired =>
    exact h.drop sound distinct agrees lawful sessions open_ cuts ids retired
  | refuse open_ refuses => exact h.refuse sound lawful sessions open_ refuses
  | clear i => exact h.clear i
  | closed _ _ => exact h
  | assign _ head known room open_ =>
    exact h.assign sound distinct agrees accounts sessions head known room open_
  | @connect _ _ i ref rest connecting _ _ head known _ closed =>
    obtain ⟨-, output, order⟩ := sessions.closed i closed
    cases connecting with
    | false =>
      refine h.start sound distinct agrees sessions head known closed rfl rfl ?_ ?_ ?_ ?_
        (fun j other => ?_) ?_ rfl rfl rfl rfl
      all_goals simp [State.assign, opened, register, Reactor.add, *]
    | true =>
      refine h.start sound distinct agrees sessions head known closed rfl rfl ?_ ?_ ?_ ?_
        (fun j other => ?_) ?_ rfl rfl rfl rfl
      all_goals simp [State.assign, opened, register, armConnect, Reactor.add, Reactor.timerAt, *]
  | @refused _ _ i ref rest made _ head _ _ _ =>
    have others : ∀ j, j ≠ i → ((if made then (s.assign t i ref rest).socketMade i
        else s.assign t i ref rest).clear i).sockets j = s.sockets j := by
      intro j other
      cases made <;> simp [State.clear, State.assign, socketMade, State.setSocket, other]
    cases made with
    | false =>
      refine h.shut (i := i) ?_ ?_ others rfl rfl rfl rfl fun j other r =>
        awaited_of_assigned sound head rfl rfl (by rw [others j other]) rfl rfl
      all_goals simp [State.clear]
    | true =>
      refine h.shut (i := i) ?_ ?_ others rfl rfl rfl rfl fun j other r =>
        awaited_of_assigned sound head rfl rfl (by rw [others j other]) rfl rfl
      all_goals simp [State.clear]
  | established i => exact h.setSocket sound rfl rfl rfl rfl rfl rfl rfl rfl rfl
  | wrote open_ front _ _ => exact h.wrote sound sessions open_ _ front
  | received open_ bytes => exact h.received sessions open_ bytes
  | schedule i =>
    unfold State.schedule
    split
    · exact h
    · exact h.setSocket sound rfl rfl rfl rfl rfl rfl rfl rfl rfl
  | _ => exact same rfl rfl rfl rfl rfl rfl rfl

end Correlated
end Steps

/-- A completion gets no response but a frame that was processed for its request. -/
def Delivered (s : State) : Prop :=
  ∀ r b, (r, .response b) ∈ s.completed → ∃ token, (b, .delivered r) ∈ s.frames token

namespace Delivered

theorem mono (h : Delivered s)
    (completed : ∀ r b, (r, .response b) ∈ s'.completed → (r, .response b) ∈ s.completed)
    (frames : ∀ token, ∀ f ∈ s.frames token, f ∈ s'.frames token) : Delivered s' := by
  intro r b mem
  obtain ⟨token, processed⟩ := h r b (completed r b mem)
  exact ⟨token, frames token _ processed⟩

theorem noted (h : Delivered s) {frame : Bytes × Verdict} {token : Nat}
    (completed : s'.completed = s.completed)
    (frames : s'.frames = Function.update s.frames token (s.frames token ++ [frame])) :
    Delivered s' := by
  refine h.mono (fun _ _ mem => completed ▸ mem) fun k f mem => ?_
  rw [frames]
  by_cases here : k = token
  · subst here
    simp [mem]
  · simpa [here] using mem

theorem failed (h : Delivered s) {error : Error}
    (completed : s'.completed = s.completed ++ [(ref, .error error)])
    (frames : s'.frames = s.frames) : Delivered s' := by
  refine h.mono (fun r b mem => ?_) fun token f mem => frames ▸ mem
  rw [completed] at mem
  simpa using mem

theorem step (h : Delivered s) (step : Step t (x, s) (x', s')) : Delivered s' := by
  cases step with
  | reject _ => exact h.failed rfl rfl
  | expire _ _ => exact h.failed rfl rfl
  | retire _ _ _ _ => exact h.failed rfl rfl
  | fail _ _ _ => exact h.failed rfl rfl
  | @deliver _ _ i size id ref response _ _ _ _ _ =>
    have before : Delivered (s.take t i size ref response) :=
      h.noted rfl (by simp only [State.take, note, Function.update_self]; rfl)
    intro r b mem
    have either : (r, .response b) ∈ s.completed ∨ r = ref ∧ b = response := by
      simpa [record, State.release, State.take, note] using mem
    obtain old | ⟨rfl, rfl⟩ := either
    · exact before r b old
    · refine ⟨(s.sockets i).token, ?_⟩
      simp [record, State.release, State.take, note]
  | drop _ _ _ _ => exact h.noted rfl (by simp only [State.drop, note, Function.update_self]; rfl)
  | refuse _ refuses =>
    cases refuses with
    | framing _ _ => exact h.noted rfl rfl
    | tooLarge _ _ _ => exact h.noted rfl rfl
    | noId _ _ _ _ => exact h.noted rfl (by simp only [State.consume, State.setSocket, note]; rfl)
    | unknown _ _ _ => exact h.noted rfl (by simp only [State.consume, State.setSocket, note]; rfl)
  | @connect _ _ i ref rest connecting _ _ _ _ _ _ =>
    cases connecting
    · exact h.mono (fun _ _ mem => mem) fun _ _ mem => mem
    · exact h.mono (fun _ _ mem => mem) fun _ _ mem => mem
  | @refused _ _ i ref rest made _ _ _ _ _ =>
    cases made
    · exact h.mono (fun _ _ mem => mem) fun _ _ mem => mem
    · exact h.mono (fun _ _ mem => mem) fun _ _ mem => mem
  | @wrote _ _ i ref n rest _ _ _ _ =>
    unfold State.wrote
    split
    · exact h.mono (fun _ _ mem => mem) fun _ _ mem => mem
    · exact h.mono (fun _ _ mem => mem) fun _ _ mem => mem
  | schedule i =>
    unfold State.schedule
    split
    · exact h
    · exact h.mono (fun _ _ mem => mem) fun _ _ mem => mem
  | _ => exact h.mono (fun _ _ mem => mem) fun _ _ mem => mem

end Delivered

theorem Steps.delivered (steps : Steps t ({}, {}) (x, s)) : Delivered s :=
  steps.invariant (fun _ s => Delivered s) (fun _ _ mem => nomatch mem) fun _ h step => h.step step

theorem delivered {trace : List (State × Event)} (run : Runs t trace s) : Delivered s :=
  (runs_steps run).delivered

theorem correlated_init : Correlated t idOf {} where
  explained token peer explains := by
    obtain rfl := explains.nil_inv
    exact ⟨[], [], rfl, .nil, fun i open_ => by cases open_⟩
  retired i id mem := nomatch mem

/-- The identifiers are looked up at the end: they have not changed meanwhile. -/
theorem Steps.correlated (lawful : Lawful t.framing) (steps : Steps t ({}, {}) (x, s))
    (distinct : s.ledger.Distinct) : Correlated t (fun r => (s.heap r).id) s := by
  let idOf := fun r => (s.heap r).id
  have kept := steps.invariant
    (fun x s' => Accounts t s' ∧ Sessions x s' ∧ (s'.ledger.Distinct →
      (∀ r ∈ s'.accepted, (s'.heap r).id = idOf r) → Correlated t idOf s'))
    ⟨accounts_init t, .init, fun _ _ => correlated_init⟩ ?_
  · exact kept.2.2 distinct fun _ _ => rfl
  rintro x s₁ x' s₂ sound ⟨accounts, sessions, before⟩ step
  refine ⟨accounts.step sound step, sessions.step step, fun distinct agrees => ?_⟩
  obtain ⟨distinct₁, agrees₁⟩ : s₁.ledger.Distinct ∧
      ∀ r ∈ s₁.accepted, (s₁.heap r).id = idOf r := by
    obtain same | moves := step.ledger
    · have accepted : s₂.accepted = s₁.accepted := congrArg Ledger.accepted same
      have ids : ∀ r, (s₂.heap r).id = (s₁.heap r).id := congrFun (congrArg Ledger.id same)
      exact ⟨same ▸ distinct, fun r mem => (ids r).symm.trans (agrees r (accepted ▸ mem))⟩
    · refine ⟨.before sound moves distinct, fun r mem => ?_⟩
      obtain ⟨later, id⟩ := moves.accepted sound mem
      exact id.symm.trans (agrees r later)
  exact (before distinct₁ agrees₁).step sound distinct₁ agrees₁ lawful accounts sessions step

theorem correlated {trace : List (State × Event)} (lawful : Lawful t.framing)
    (run : Runs t trace s) (distinct : s.ledger.Distinct) :
    Correlated t (fun r => (s.heap r).id) s :=
  (runs_steps run).correlated lawful distinct

/-- **Correlation.** The servers answer every request at most once, on the connection it came
over, and send nothing else. Then a completion that gets a response gets the answer to its own
request; the frames of every connection are the server's answers in the server's order, each
delivered to its request or, if that has missed its deadline, dropped; and no frame is refused,
for an unknown identifier or otherwise. -/
theorem responses_correlate {trace : List (State × Event)} (lawful : Lawful t.framing)
    (run : Runs t trace s) (distinct : s.ledger.Distinct) (peers : Nat → Peer)
    (behaved : ∀ token, WellBehaved t (fun r => (s.heap r).id) (s.wire token) (peers token)) :
    (∀ r b, (r, .response b) ∈ s.completed → ∃ token, (r, b) ∈ (peers token).answers) ∧
    (∀ token, ∃ n, List.Forall₂ (Settles s) (s.frames token) ((peers token).answers.take n)) ∧
    ∀ token, ∀ f ∈ s.frames token, f.2 ≠ .unknown ∧ f.2 ≠ .invalid := by
  have kept := correlated lawful run distinct
  have settled : ∀ token, ∃ n,
      List.Forall₂ (Settles s) (s.frames token) ((peers token).answers.take n) := by
    intro token
    obtain ⟨done, queue, split, settled, -⟩ := kept.explained token _ (behaved token)
    refine ⟨done.length, ?_⟩
    rwa [split, List.take_left]
  have answer : ∀ token, ∀ f ∈ s.frames token, ∃ a ∈ (peers token).answers, Settles s f a := by
    intro token f mem
    obtain ⟨n, settled⟩ := settled token
    obtain ⟨k, bound, rfl⟩ := List.mem_iff_getElem.mp mem
    have bound' := settled.length_eq ▸ bound
    exact ⟨_, List.mem_of_mem_take (List.getElem_mem bound'), settled.get bound bound'⟩
  refine ⟨fun r b mem => ?_, settled, fun token f mem => ?_⟩
  · obtain ⟨token, processed⟩ := delivered run r b mem
    obtain ⟨⟨r', b'⟩, given, bytes, ⟨same, -⟩ | ⟨dropped, -⟩⟩ := answer token _ processed
    · cases bytes
      cases same
      exact ⟨token, given⟩
    · cases dropped
  · obtain ⟨a, -, -, ⟨verdict, -⟩ | ⟨verdict, -⟩⟩ := answer token f mem
    · simp [verdict]
    · simp [verdict]

/-- A response frame with no payload. -/
def emptyReply (id : UInt8) : Bytes := rpcVersion ++ [0, 0, 0, 0, 0, 0, 0, 0, 0, 0, 0, id]

/-- The server on the first connection has answered the second request before the first. -/
def lateServer (token : Nat) : Peer :=
  if token = 2 then { answers := [(1, emptyReply 2), (0, emptyReply 1)] } else {}

theorem lateServer_behaved (sessions : Sessions {} s) (next : s.loop.next = 4)
    (wire : s.wire 2 = [.sent 0, .sent 1, .received (emptyReply 2 ++ emptyReply 1)])
    (others : ∀ k < 4, k ≠ 2 → s.wire k = []) (first : (s.heap 0).id = 1)
    (second : (s.heap 1).id = 2) (token : Nat) :
    WellBehaved rpcClient (fun r => (s.heap r).id) (s.wire token) (lateServer token) := by
  by_cases here : token = 2
  · have frames : ∀ id ∈ [1, 2], Frame rpcFrameSize (emptyReply id) ∧
        (emptyReply id).length ≤ rpcClient.frameLimit ∧ rpcId (emptyReply id) = .ok id.toNat := by
      decide +kernel
    have reply : ∀ r, ∀ id ∈ [1, 2], (s.heap r).id = id.toNat →
        Answer rpcClient (fun r => (s.heap r).id) r (emptyReply id) := by
      intro r id mem same
      obtain ⟨frame, within, found⟩ := frames id mem
      refine ⟨frame, within, fun ids has => ?_⟩
      obtain rfl := Option.some.inj has
      exact found.trans (congrArg _ same.symm)
    rw [here, wire]
    have silent : WellBehaved rpcClient (fun r => (s.heap r).id) [] {} := .start
    have asked := (silent.request 0).request 1
    have answered := (asked.answer (by decide) (reply 1 2 (by decide) second)).answer (by decide)
      (reply 0 1 (by decide) first)
    exact answered.read (List.append_nil _).symm
  · have none : s.wire token = [] := by
      by_cases old : token < 4
      · exact others token old here
      · exact (sessions.fresh token (by omega)).1
    rw [none, lateServer, if_neg here]
    exact .start

/-- Two requests are sent and the first misses its deadline before both answers arrive in one
piece. -/
theorem responses_correlate_late :
    ∃ trace s, Runs rpcClient trace s ∧
      s.completed = [(0, .error deadlineExceeded), (1, .response (emptyReply 2))] ∧
      s.frames 2 = [(emptyReply 2, .delivered 1), (emptyReply 1, .dropped)] ∧
      (∃ token, (1, emptyReply 2) ∈ (lateServer token).answers) ∧
      ∀ token, ∀ f ∈ s.frames token, f.2 ≠ .unknown ∧ f.2 ≠ .invalid := by
  have run := Run.replays (State.step rpcClient) {}
    [.call (.submit 1 [7, 8]), .call (.post 0), .call (.submit 2 [9]), .call (.post 1),
      .task { connects := [.connected], sends := [.wrote 2] }, .task { sends := [.wrote 1] },
      .timer 1 {}, .ready 2 { receives := [.data (emptyReply 2 ++ emptyReply 1)] }]
    (by decide +kernel)
  have behaved := lateServer_behaved (sessions run) (by decide +kernel) (by decide +kernel)
    (by decide +kernel) (by decide +kernel) (by decide +kernel)
  have correlate := responses_correlate rpcFrameSize_lawful run (by decide +kernel) lateServer
    behaved
  exact ⟨_, _, run, by decide +kernel, by decide +kernel, correlate.1 1 _ (by decide +kernel),
    correlate.2.2⟩

end KVRPC.Client
