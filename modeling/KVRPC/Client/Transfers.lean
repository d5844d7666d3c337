import KVRPC.Client.TcpConnection

/-!
# Streams and deadlines of blocking connections

What holds over any sequence of calls on a `TcpConnection`, on every socket it has used.

1. `streams_exact`: what was sent is a prefix of what was to be sent, and while the connection is
   open between two calls all of it; what `RecvAll` returned is what arrived.
2. `timeouts_exact`: no call outlives its time limit by more than a millisecond, and no timeout is
   reported before the limit.
-/
namespace KVRPC.Client.TcpConnection

open Library

variable {t : TcpConnection} {s s' : State}

/-! ## Streams -/

def Loop.unsent : Loop → Bytes
  | .send data offset => data.drop offset
  | _ => []

def Loop.got : Loop → Bytes
  | .receive _ got => got
  | _ => []

def Place.unsent (p : Place) : Bytes := (p.call.map fun c => c.loop.unsent).getD []

def Place.got (p : Place) : Bytes := (p.call.map fun c => c.loop.got).getD []

/-- The results of `RecvAll` on a socket, one after another. -/
def State.taken (s : State) (k : Nat) : Bytes := ((s.buffers k).map Prod.snd).flatten

structure Exact (s : State) : Prop where
  fresh : ∀ k, s.sockets ≤ k → s.fd ≠ some k ∧ s.offered k = [] ∧ s.sent k = [] ∧
    s.received k = [] ∧ s.buffers k = []
  current : ∀ k, s.fd = some k → s.sent k ++ s.place.unsent = (s.offered k).flatten ∧
    s.received k = s.taken k ++ s.place.got
  past : ∀ k, s.fd ≠ some k → s.sent k <+: (s.offered k).flatten ∧ s.taken k <+: s.received k
  sized : ∀ k, ∀ b ∈ s.buffers k, b.2.length = b.1
  room : ∀ c size got, s.place.call = some c → c.loop = .receive size got → got.length ≤ size

theorem Exact.streams (h : Exact s) (k : Nat) :
    s.sent k <+: (s.offered k).flatten ∧ s.taken k <+: s.received k := by
  by_cases here : s.fd = some k
  · obtain ⟨sent, received⟩ := h.current k here
    exact ⟨sent ▸ List.prefix_append _ _, received ▸ List.prefix_append _ _⟩
  · exact h.past k here

/-- The sockets are what they were and the method that waits, if any, is as far as it was. -/
theorem Exact.congr (h : Exact s) (fd : s'.fd = s.fd) (sockets : s'.sockets = s.sockets)
    (offered : s'.offered = s.offered) (sent : s'.sent = s.sent)
    (received : s'.received = s.received) (buffers : s'.buffers = s.buffers)
    (call : s'.place.call = s.place.call) : Exact s' where
  fresh := by rw [fd, sockets, offered, sent, received, buffers]; exact h.fresh
  current := by
    unfold Place.unsent Place.got State.taken
    rw [fd, offered, sent, received, buffers, call]
    exact h.current
  past := by
    unfold State.taken
    rw [fd, offered, sent, received, buffers]
    exact h.past
  sized := buffers ▸ h.sized
  room := call ▸ h.room

/-- The connection is closed. -/
theorem Exact.closed (h : Exact s) (fd : s'.fd = none) (sockets : s.sockets ≤ s'.sockets)
    (offered : s'.offered = s.offered) (sent : s'.sent = s.sent)
    (received : s'.received = s.received) (buffers : s'.buffers = s.buffers)
    (idle : s'.place = .idle) : Exact s' where
  fresh k beyond := by
    rw [fd, offered, sent, received, buffers]
    exact ⟨by simp, (h.fresh k (sockets.trans beyond)).2⟩
  current k here := by
    rw [fd] at here
    cases here
  past k _ := by
    unfold State.taken
    rw [offered, sent, received, buffers]
    exact h.streams k
  sized := buffers ▸ h.sized
  room c size got here := by
    rw [idle] at here
    cases here

/-- A transfer on the open socket starts or moves on. -/
theorem Exact.progress {fd : Nat} (h : Exact s) (opened : s.fd = some fd) (same : s'.fd = s.fd)
    (sockets : s'.sockets = s.sockets)
    (others : ∀ k ≠ fd, s'.offered k = s.offered k ∧ s'.sent k = s.sent k ∧
      s'.received k = s.received k ∧ s'.buffers k = s.buffers k)
    (sent : s'.sent fd ++ s'.place.unsent = (s'.offered fd).flatten)
    (received : s'.received fd = s'.taken fd ++ s'.place.got)
    (sized : ∀ b ∈ s'.buffers fd, b.2.length = b.1)
    (room : ∀ c size got, s'.place.call = some c → c.loop = .receive size got →
      got.length ≤ size) : Exact s' where
  fresh k beyond := by
    rw [sockets] at beyond
    obtain ⟨unused, empty⟩ := h.fresh k beyond
    have other : k ≠ fd := by
      rintro rfl
      exact unused opened
    obtain ⟨offered, sent, received, buffers⟩ := others k other
    rw [same, offered, sent, received, buffers]
    exact ⟨unused, empty⟩
  current k here := by
    obtain rfl : fd = k := by simpa [same, opened] using here
    exact ⟨sent, received⟩
  past k elsewhere := by
    have other : k ≠ fd := by
      rintro rfl
      exact elsewhere (same.trans opened)
    obtain ⟨offered, sent, received, buffers⟩ := others k other
    unfold State.taken
    rw [offered, sent, received, buffers]
    exact h.streams k
  sized k b mem := by
    by_cases here : k = fd
    · exact sized b (here ▸ mem)
    · exact h.sized k b ((others k here).2.2.2 ▸ mem)
  room := room

section

variable (s) (c : Call) (size : Nat) (got : Bytes) (fd : Nat)

@[simp] theorem settle_fd : (s.settle c).fd = s.fd := by
  unfold State.settle; split <;> rfl

@[simp] theorem settle_sockets : (s.settle c).sockets = s.sockets := by
  unfold State.settle; split <;> rfl

@[simp] theorem settle_offered : (s.settle c).offered = s.offered := by
  unfold State.settle; split <;> rfl

@[simp] theorem settle_sent : (s.settle c).sent = s.sent := by
  unfold State.settle; split <;> rfl

@[simp] theorem settle_received : (s.settle c).received = s.received := by
  unfold State.settle; split <;> rfl

@[simp] theorem settle_buffers : (s.settle c).buffers = s.buffers := by
  unfold State.settle; split <;> rfl

theorem settle_unsent : (s.settle c).place.unsent = c.loop.unsent := by
  unfold State.settle
  split
  case isTrue done =>
    cases loop : c.loop with
    | send data offset =>
      rw [loop] at done
      exact (List.drop_of_length_le done).symm
    | connect | receive => rfl
  case isFalse => rfl

theorem settle_got : (s.settle c).place.got = if c.loop.Done then [] else c.loop.got := by
  unfold State.settle
  split <;> rfl

theorem settle_call {c' : Call} (h : (s.settle c).place.call = some c') :
    c' = c ∧ ¬ c.loop.Done := by
  unfold State.settle at h
  split at h
  case isTrue => cases h
  case isFalse unfinished =>
    cases h
    exact ⟨rfl, unfinished⟩

theorem deliver_frame : s.deliver size got fd = { s with
    buffers := (s.deliver size got fd).buffers } := by
  unfold State.deliver; split <;> rfl

theorem deliver_taken : (s.deliver size got fd).taken fd =
    s.taken fd ++ if size ≤ got.length then got else [] := by
  unfold State.deliver
  split <;> simp [State.taken]

theorem deliver_buffers_of_ne {k : Nat} (other : k ≠ fd) :
    (s.deliver size got fd).buffers k = s.buffers k := by
  unfold State.deliver
  split <;> simp [other]

theorem mem_deliver {b : Nat × Bytes} (mem : b ∈ (s.deliver size got fd).buffers fd) :
    b ∈ s.buffers fd ∨ b = (size, got) ∧ size ≤ got.length := by
  unfold State.deliver at mem
  split at mem
  case isTrue done => simpa [done] using mem
  case isFalse => exact .inl mem

end

theorem Place.unsent_eq {p : Place} {c : Call} (h : p.call = some c) :
    p.unsent = c.loop.unsent := by
  rw [Place.unsent, h]
  rfl

theorem Place.got_eq {p : Place} {c : Call} (h : p.call = some c) : p.got = c.loop.got := by
  rw [Place.got, h]
  rfl

namespace Exact

theorem sendAll {fd : Nat} (h : Exact s) (idle : s.place = .idle) (opened : s.fd = some fd)
    (data : Bytes) : Exact (s.sendAll data fd) := by
  obtain ⟨sent, received⟩ := h.current fd opened
  rw [idle] at sent received
  have all : s.sent fd = (s.offered fd).flatten := by simpa [Place.unsent, Place.call] using sent
  unfold State.sendAll
  refine h.progress opened (by simp) (by simp) (fun k other => ?_) ?_ ?_ ?_ ?_
  · simp [other]
  · rw [settle_unsent]
    simp [State.transfer, Loop.unsent, all]
  · rw [settle_got]
    split <;> simpa [State.taken, State.transfer, Loop.got, Place.got, Place.call] using received
  · simpa using h.sized fd
  · intro c size got here loop
    obtain ⟨rfl, -⟩ := settle_call _ _ here
    cases loop

theorem wrote {fd offset n : Nat} {c : Call} {data : Bytes} (h : Exact s)
    (here : s.place.call = some c) (opened : s.fd = some fd) (loop : c.loop = .send data offset) :
    Exact (s.wrote c data offset n fd) := by
  obtain ⟨sent, received⟩ := h.current fd opened
  rw [Place.unsent_eq here, loop] at sent
  rw [Place.got_eq here, loop] at received
  unfold State.wrote
  refine h.progress opened (by simp) (by simp) (fun k other => ?_) ?_ ?_ ?_ ?_
  · simp [other]
  · rw [settle_unsent]
    simp only [settle_sent, settle_offered, Function.update_self, Loop.unsent, List.append_assoc]
    rw [← sent, ← List.drop_drop, List.take_append_drop]
    rfl
  · rw [settle_got]
    simpa [State.taken, Loop.got] using received
  · simpa using h.sized fd
  · intro c' size got here loop
    obtain ⟨rfl, -⟩ := settle_call _ _ here
    cases loop

/-- What a call of `RecvAll` has read so far is with the caller or in its buffer. -/
theorem buffered (s : State) (c : Call) (size fd : Nat) (got : Bytes)
    (loop : c.loop = .receive size got) :
    ((s.deliver size got fd).settle c).taken fd ++ ((s.deliver size got fd).settle c).place.got =
      s.taken fd ++ got := by
  have taken : ((s.deliver size got fd).settle c).taken fd = (s.deliver size got fd).taken fd := by
    simp [State.taken]
  rw [taken, deliver_taken, settle_got, loop]
  by_cases done : size ≤ got.length <;> simp [Loop.Done, Loop.got, done]

theorem receive {fd size : Nat} {c : Call} {got : Bytes} (h : Exact s) (opened : s.fd = some fd)
    (loop : c.loop = .receive size got) (bytes : Bytes)
    (sent : s.sent fd = (s.offered fd).flatten)
    (received : s.received fd ++ bytes = s.taken fd ++ got) (room : got.length ≤ size) :
    Exact (({ s with received := Function.update s.received fd (s.received fd ++ bytes) }.deliver
      size got fd).settle c) := by
  refine h.progress opened ?_ ?_ (fun k other => ?_) ?_ ?_ ?_ ?_
  · rw [settle_fd, deliver_frame]
  · rw [settle_sockets, deliver_frame]
  · rw [settle_offered, settle_sent, settle_received, settle_buffers,
      deliver_buffers_of_ne _ _ _ _ other, deliver_frame]
    simp [other]
  · rw [settle_unsent, settle_sent, settle_offered, deliver_frame, loop]
    simpa [Loop.unsent] using sent
  · rw [buffered _ _ _ _ _ loop, settle_received, deliver_frame]
    simpa [State.taken] using received
  · intro b mem
    rw [settle_buffers] at mem
    obtain old | ⟨rfl, full⟩ := mem_deliver _ _ _ _ mem
    · exact h.sized fd b old
    · exact le_antisymm room full
  · intro c' size' got' here loop'
    obtain ⟨rfl, -⟩ := settle_call _ _ here
    rw [loop] at loop'
    cases loop'
    exact room

theorem recvAll {fd : Nat} (h : Exact s) (idle : s.place = .idle) (opened : s.fd = some fd)
    (size : Nat) : Exact (s.recvAll size fd) := by
  obtain ⟨sent, received⟩ := h.current fd opened
  rw [idle] at sent received
  have exact := h.receive (c := s.transfer (.receive size [])) opened rfl []
    (by simpa [Place.unsent, Place.call] using sent)
    (by simpa [Place.got, Place.call] using received) (Nat.zero_le _)
  simpa [State.recvAll] using exact

theorem read {fd size : Nat} {c : Call} {got bytes : Bytes} (h : Exact s)
    (here : s.place.call = some c) (opened : s.fd = some fd) (loop : c.loop = .receive size got)
    (within : bytes.length ≤ size - got.length) : Exact (s.read c size got bytes fd) := by
  obtain ⟨sent, received⟩ := h.current fd opened
  rw [Place.unsent_eq here, loop] at sent
  rw [Place.got_eq here, loop] at received
  have room := h.room c size got here loop
  refine h.receive opened rfl bytes (by simpa [Loop.unsent] using sent) ?_ ?_
  · rw [received, List.append_assoc]
    rfl
  · rw [List.length_append]
    omega

theorem register (h : Exact s) (idle : s.place = .idle) : Exact s.register where
  fresh k beyond := by
    have beyond : s.sockets < k := beyond
    exact ⟨by simp [State.register, beyond.ne], (h.fresh k beyond.le).2⟩
  current k here := by
    obtain rfl : s.sockets = k := by simpa [State.register] using here
    obtain ⟨-, offered, sent, received, buffers⟩ := h.fresh _ le_rfl
    simp [State.register, State.taken, Place.unsent, Place.got, Place.call, idle, offered, sent,
      received, buffers]
  past k _ := h.streams k
  sized := h.sized
  room := h.room

theorem initial (t : TcpConnection) (now : Nat) : Exact (t.initial now) where
  fresh k _ := by simp [TcpConnection.initial]
  current k here := by cases here
  past k _ := by simp [TcpConnection.initial, State.taken]
  sized k b mem := by cases mem
  room c size got here := by cases here

-- The deadline is a variable here. Compared with that of `s`, the product it stands for would be
-- unfolded to the last addition.
theorem restart (h : Exact s) (flag : Bool) (deadline requested : Nat) :
    Exact { s with timedOut := flag, deadline := deadline, requested := requested } :=
  h.congr rfl rfl rfl rfl rfl rfl rfl

theorem connected {c : Call} (h : Exact s) (here : s.place.call = some c)
    (loop : c.loop = .connect) (flag : Bool) (deadline requested : Nat) :
    Exact (({ s with timedOut := flag, deadline := deadline, requested := requested } :
      State).finish c true) := by
  refine ⟨h.fresh, fun k opened => ?_, h.past, h.sized, fun c size got here => by cases here⟩
  have current := h.current k opened
  rw [Place.unsent_eq here, Place.got_eq here, loop] at current
  exact current

theorem move (h : Exact s) (move : Move t s s') : Exact s' := by
  cases move with
  | pass _ _ => exact h.congr rfl rfl rfl rfl rfl rfl rfl
  | beginRequest _ => exact h.restart _ _ _
  | close idle _ _ => exact h.closed rfl le_rfl rfl rfl rfl rfl idle
  | skip closed =>
    refine ⟨fun k beyond => h.fresh k ((Nat.le_succ _).trans beyond), h.current, h.past, h.sized,
      h.room⟩
  | register idle _ => exact h.register idle
  | connect idle _ =>
    refine ⟨h.fresh, fun k here => ?_, h.past, h.sized, fun c size got here loop => ?_⟩
    · have current := h.current k here
      rwa [idle] at current
    · cases here
      cases loop
  | sendAll idle opened data => exact h.sendAll idle opened data
  | recvAll idle opened size => exact h.recvAll idle opened size
  | poll here _ => exact h.congr rfl rfl rfl rfl rfl rfl (by rw [here]; rfl)
  | again here => exact h.congr rfl rfl rfl rfl rfl rfl here.symm
  | ready here => exact h.congr rfl rfl rfl rfl rfl rfl here.symm
  | fail _ _ _ => exact h.closed rfl le_rfl rfl rfl rfl rfl rfl
  | connected here loop => exact h.connected here loop _ _ _
  | wrote here opened loop _ => exact h.wrote here opened loop
  | read here opened loop within => exact h.read here opened loop within

end Exact

/-- **Streams of a connection.** Over any sequence of calls, on every socket the connection has
used: the octets sent are a prefix of the data of the calls of `SendAll`, in order, and what the
calls of `RecvAll` returned, each as long as it was asked to be, is a prefix of the octets that
arrived. While the connection is open and no call is being made nothing is missing, so that the
next call of either starts where the last one ended. -/
theorem streams_exact {now : Nat} {trace : List (State × Event)} (run : Runs t now trace s)
    (k : Nat) :
    s.sent k <+: (s.offered k).flatten ∧ s.taken k <+: s.received k ∧
    (∀ b ∈ s.buffers k, b.2.length = b.1) ∧
    (s.fd = some k → s.place = .idle →
      s.sent k = (s.offered k).flatten ∧ s.received k = s.taken k) := by
  have exact := run.invariant Exact (.initial t now) Exact.move
  obtain ⟨sent, received⟩ := exact.streams k
  refine ⟨sent, received, exact.sized k, fun opened idle => ?_⟩
  have current := exact.current k opened
  rw [idle] at current
  simpa [Place.unsent, Place.got, Place.call] using current

/-! ## Deadlines -/

def timeout (t : TcpConnection) : Loop → Nat
  | .connect => t.connectTimeout
  | _ => t.ioTimeout

theorem timeout_le (l : Loop) : t.timeout l ≤ intMax * millisecond := by
  have valid := t.valid
  unfold ConnectionPool.InvalidTimeouts at valid
  have bound : t.options.connectTimeout.toNat ≤ intMax ∧ t.options.ioTimeout.toNat ≤ intMax := by
    unfold intMax
    omega
  cases l with
  | connect => exact Nat.mul_le_mul_right _ bound.1
  | send | receive => exact Nat.mul_le_mul_right _ bound.2

/-- The limit of the call is its timeout away from where its time starts. -/
structure Call.Limited (t : TcpConnection) (c : Call) : Prop where
  requested : c.requested ≤ c.begun
  limit : c.limit = c.requested + t.timeout c.loop

/-- The latest point at which the call can be over. -/
def Call.last (c : Call) : Nat := max c.begun (c.limit + millisecond)

structure Timely (t : TcpConnection) (s : State) : Prop where
  deadline : s.deadline = s.requested + t.ioTimeout
  requested : s.requested ≤ s.now
  call : ∀ c, s.place.call = some c → c.Limited t ∧ c.begun ≤ s.now ∧ s.now ≤ c.last ∧
    s.timedOut = false
  polling : ∀ c timeout, s.place = .polling c timeout → c.limit ≤ timeout ∧
    timeout ≤ c.limit + millisecond
  ended : ∀ e ∈ s.ended, e.call.Limited t ∧ e.call.begun ≤ e.time ∧ e.time ≤ e.call.last
  reported : s.timedOut = true → s.fd = none ∧
    ∃ e, s.ended.getLast? = some e ∧ e.ok = false ∧ e.call.limit ≤ e.time

/-- The timeout of `epoll_wait` is rounded up to the next millisecond. -/
theorem State.pollUntil_bounds {c : Call} (limited : c.Limited t) (begun : c.begun ≤ s.now)
    (early : s.now < c.limit) :
    c.limit ≤ s.pollUntil c ∧ s.pollUntil c ≤ c.limit + millisecond := by
  have far : c.limit - s.now ≤ intMax * millisecond := by
    have := limited.requested
    have := limited.limit
    have := timeout_le (t := t) c.loop
    omega
  unfold State.pollUntil
  unfold intMax millisecond at far ⊢
  omega

namespace Timely

theorem finish {c : Call} {ok : Bool} (deadline : s.deadline = s.requested + t.ioTimeout)
    (requested : s.requested ≤ s.now)
    (ended : ∀ e ∈ s.ended, e.call.Limited t ∧ e.call.begun ≤ e.time ∧ e.time ≤ e.call.last)
    (limited : c.Limited t) (begun : c.begun ≤ s.now) (last : s.now ≤ c.last)
    (reported : s.timedOut = true → s.fd = none ∧ ok = false ∧ c.limit ≤ s.now) :
    Timely t (s.finish c ok) where
  deadline := deadline
  requested := requested
  call c here := by cases here
  polling c timeout here := by cases here
  ended e mem := by
    obtain old | new := List.mem_append.mp mem
    · exact ended e old
    · rw [List.mem_singleton.mp new]
      exact ⟨limited, begun, last⟩
  reported flag := by
    obtain ⟨closed, failed, late⟩ := reported flag
    exact ⟨closed, _, List.getLast?_concat, failed, late⟩

/-- A method starts to wait or goes on waiting. -/
theorem waits {c : Call} (h : Timely t s) {place : Place} (here : place.call = some c)
    (limited : c.Limited t) (begun : c.begun ≤ s.now) (last : s.now ≤ c.last)
    (quiet : s.timedOut = false)
    (polling : ∀ timeout, place = .polling c timeout → c.limit ≤ timeout ∧
      timeout ≤ c.limit + millisecond) : Timely t { s with place := place } where
  deadline := h.deadline
  requested := h.requested
  call c' same := by
    obtain rfl : c = c' := Option.some.inj (here.symm.trans same)
    exact ⟨limited, begun, last, quiet⟩
  polling c' timeout same := by
    have same : place = .polling c' timeout := same
    obtain rfl : c = c' := by simpa [same, Place.call] using here.symm
    exact polling timeout same
  ended := h.ended
  reported := h.reported

theorem settle {c : Call} (h : Timely t s) (limited : c.Limited t) (begun : c.begun ≤ s.now)
    (last : s.now ≤ c.last) (quiet : s.timedOut = false) : Timely t (s.settle c) := by
  unfold State.settle
  split
  case isTrue =>
    refine .finish h.deadline h.requested h.ended limited begun last fun flag => ?_
    cases quiet.symm.trans flag
  case isFalse => exact h.waits rfl limited begun last quiet fun timeout same => by cases same

/-- Nothing that counts has changed. -/
theorem congr (h : Timely t s) (now : s'.now = s.now) (fd : s'.fd = s.fd)
    (deadline : s'.deadline = s.deadline) (requested : s'.requested = s.requested)
    (timedOut : s'.timedOut = s.timedOut) (place : s'.place = s.place)
    (ended : s'.ended = s.ended) : Timely t s' where
  deadline := by rw [deadline, requested]; exact h.deadline
  requested := by rw [requested, now]; exact h.requested
  call := by rw [place, now, timedOut]; exact h.call
  polling := by rw [place]; exact h.polling
  ended := by rw [ended]; exact h.ended
  reported := by rw [timedOut, fd, ended]; exact h.reported

/-- The time of a request starts again, and a timeout is not reported any more. -/
theorem restart (h : Timely t s) {deadline : Nat} (start : deadline = s.now + t.ioTimeout)
    (limits : ∀ c, s.place.call = some c → c.Limited t ∧ c.begun ≤ s.now ∧ s.now ≤ c.last) :
    Timely t { s with timedOut := false, deadline := deadline, requested := s.now } where
  deadline := start
  requested := le_rfl
  call c here := by
    obtain ⟨limited, begun, last⟩ := limits c here
    exact ⟨limited, begun, last, rfl⟩
  polling := h.polling
  ended := h.ended
  reported flag := by cases flag

theorem connected {c : Call} (h : Timely t s) (here : s.place.call = some c) {deadline : Nat}
    (start : deadline = s.now + t.ioTimeout) :
    Timely t (({ s with timedOut := false, deadline := deadline, requested := s.now } :
      State).finish c true) := by
  obtain ⟨limited, begun, last, -⟩ := h.call _ here
  exact finish start le_rfl h.ended limited begun last fun flag => by cases flag

theorem initial (t : TcpConnection) (now : Nat) : Timely t (t.initial now) where
  deadline := rfl
  requested := le_rfl
  call c here := by cases here
  polling c timeout here := by cases here
  ended e mem := by cases mem
  reported flag := by cases flag

/-- A transfer starts with the deadline of its request. -/
theorem transfer (h : Timely t s) (loop : Loop) (moves : t.timeout loop = t.ioTimeout) :
    (s.transfer loop).Limited t ∧ s.now ≤ (s.transfer loop).last where
  left := ⟨h.requested, h.deadline.trans (congrArg _ moves.symm)⟩
  right := le_max_left _ _

theorem quiet {fd : Nat} (h : Timely t s) (opened : s.fd = some fd) : s.timedOut = false := by
  refine Bool.eq_false_iff.mpr fun flag => ?_
  obtain ⟨closed, -⟩ := h.reported flag
  cases opened.symm.trans closed

theorem pass {time : Nat} (h : Timely t s) (later : s.now ≤ time)
    (blocked : ∀ c, s.place.call = some c → ∃ timeout, s.place = .polling c timeout ∧
      time ≤ timeout) : Timely t { s with now := time } where
  deadline := h.deadline
  requested := h.requested.trans later
  call c here := by
    obtain ⟨limited, begun, -, quiet⟩ := h.call c here
    obtain ⟨timeout, polls, within⟩ := blocked c here
    have bound := within.trans (h.polling c timeout polls).2
    exact ⟨limited, begun.trans later, bound.trans (le_max_right _ _), quiet⟩
  polling := h.polling
  ended := h.ended
  reported := h.reported

theorem close (h : Timely t s) (idle : s.place = .idle) {flag : Bool}
    (reported : flag = true → s.timedOut = true) :
    Timely t { s.close with timedOut := flag } where
  deadline := h.deadline
  requested := h.requested
  call c here := by
    have here : s.place.call = some c := here
    rw [idle] at here
    cases here
  polling := h.polling
  ended := h.ended
  reported flag := ⟨rfl, (h.reported (reported flag)).2⟩

theorem register (h : Timely t s) (quiet : s.timedOut = false) : Timely t s.register where
  deadline := h.deadline
  requested := h.requested
  call := h.call
  polling := h.polling
  ended := h.ended
  reported flag := by cases quiet.symm.trans flag

theorem fail {c : Call} {expired : Bool} (h : Timely t s) (here : s.place.call = some c)
    (late : expired = true → c.limit ≤ s.now ∨ ∃ timeout, s.place = .polling c timeout ∧
      timeout ≤ s.now) : Timely t { s.fail c with timedOut := expired || s.timedOut } := by
  obtain ⟨limited, begun, last, quiet⟩ := h.call c here
  refine finish (s := { s.close with timedOut := expired || s.timedOut }) h.deadline h.requested
    h.ended limited begun last fun flag => ⟨rfl, rfl, ?_⟩
  obtain passed | ⟨timeout, polls, reached⟩ := late (by simpa [quiet] using flag)
  · exact passed
  · exact (h.polling c timeout polls).1.trans reached

theorem move (h : Timely t s) (move : Move t s s') : Timely t s' := by
  cases move with
  | pass later blocked => exact h.pass later blocked
  | beginRequest idle =>
    refine h.restart rfl fun c here => ?_
    rw [idle] at here
    cases here
  | close idle _ reported => exact h.close idle reported
  | skip _ => exact h.congr rfl rfl rfl rfl rfl rfl rfl
  | register _ quiet => exact h.register quiet
  | connect _ quiet =>
    exact h.waits rfl ⟨le_rfl, rfl⟩ le_rfl (le_max_left _ _) quiet fun timeout same => by cases same
  | sendAll _ opened data =>
    obtain ⟨limited, last⟩ := h.transfer (.send data 0) rfl
    refine settle (h.congr ?_ ?_ ?_ ?_ ?_ ?_ ?_) limited le_rfl last (h.quiet opened) <;> rfl
  | recvAll _ opened size =>
    obtain ⟨limited, last⟩ := h.transfer (.receive size []) rfl
    unfold State.recvAll
    rw [deliver_frame]
    refine settle (h.congr ?_ ?_ ?_ ?_ ?_ ?_ ?_) limited le_rfl last (h.quiet opened) <;> rfl
  | poll here early =>
    obtain ⟨limited, begun, last, quiet⟩ := h.call _ (by rw [here]; rfl)
    refine h.waits rfl limited begun last quiet fun timeout same => ?_
    cases same
    exact State.pollUntil_bounds limited begun early
  | again here | ready here =>
    obtain ⟨limited, begun, last, quiet⟩ := h.call _ here
    exact h.waits rfl limited begun last quiet fun timeout same => by cases same
  | fail here _ late => exact h.fail here late
  | connected here _ => exact h.connected here rfl
  | wrote here opened loop _ =>
    obtain ⟨limited, begun, last, quiet⟩ := h.call _ here
    have moved := limited.limit
    rw [loop] at moved
    refine settle (h.congr ?_ ?_ ?_ ?_ ?_ ?_ ?_) ⟨limited.requested, moved⟩ begun last quiet <;> rfl
  | read here opened loop _ =>
    obtain ⟨limited, begun, last, quiet⟩ := h.call _ here
    have moved := limited.limit
    rw [loop] at moved
    unfold State.read
    rw [deliver_frame]
    refine settle (h.congr ?_ ?_ ?_ ?_ ?_ ?_ ?_) ⟨limited.requested, moved⟩ begun last quiet <;> rfl

end Timely

/-- **Time limits of a connection.** Over any sequence of calls, however often a wait is
interrupted and a transfer comes in pieces, where `epoll_wait` returns by its timeout and time
passes only there and between calls: a call is over at the latest one millisecond after its
limit, or at once if it is made later than that; the limit is the timeout after `BeginRequest` for
all the transfers of a request together, and after the call itself for `Connect`. A timeout is
reported only for the last call that waited, which failed, closed the connection and did not end
before its limit. -/
theorem timeouts_exact {now : Nat} {trace : List (State × Event)} (run : Runs t now trace s) :
    s.deadline = s.requested + t.ioTimeout ∧
    (∀ c, s.place.call = some c → c.limit = c.requested + t.timeout c.loop ∧
      s.now ≤ max c.begun (c.limit + millisecond)) ∧
    (∀ e ∈ s.ended, e.call.limit = e.call.requested + t.timeout e.call.loop ∧
      e.time ≤ max e.call.begun (e.call.limit + millisecond)) ∧
    (s.timedOut = true → s.fd = none ∧
      ∃ e, s.ended.getLast? = some e ∧ e.ok = false ∧ e.call.limit ≤ e.time) := by
  have timely := run.invariant (Timely t) (.initial t now) Timely.move
  refine ⟨timely.deadline, fun c here => ?_, fun e mem => ?_, timely.reported⟩
  · obtain ⟨limited, -, last, -⟩ := timely.call c here
    exact ⟨limited.limit, last⟩
  · obtain ⟨limited, -, last⟩ := timely.ended e mem
    exact ⟨limited.limit, last⟩

/-- The default timeouts. -/
def standard : TcpConnection where
  options := {}
  valid := by decide

/-- A request is sent in pieces and its answer received; of the next request the peer takes two
octets and then no more until the time is up. -/
def stalled : List Event :=
  [.pass 10, .connect 8080 true .inProgress, .check true, .pass 500, .wake .ready,
    .socketError true, .sendAll (some [1, 2, 3]), .check true, .wake .ready, .send (.wrote 2),
    .check true, .wake .interrupted, .check true, .wake .ready, .send (.wrote 1),
    .recvAll 2 false, .check true, .wake .ready, .receive (.data [7]), .check true, .wake .ready,
    .receive .wouldBlock, .check true, .wake .ready, .receive (.data [8]), .beginRequest,
    .sendAll (some [4, 5, 6, 7]), .check true, .wake .ready, .send (.wrote 2), .check true,
    .pass 5001000500, .expire]

/-- How the stalled request ends, evaluated once for both results. -/
theorem after_stalled : After (State.step standard) (standard.initial 0) stalled fun s =>
    (s.fd = none ∧ s.offered 0 = [[1, 2, 3], [4, 5, 6, 7]] ∧ s.sent 0 = [1, 2, 3, 4, 5] ∧
      s.taken 0 = [7, 8]) ∧ s.timedOut = true ∧ s.now = s.deadline + 1000000 := by
  decide +kernel

theorem streams_exact_stalled : ∃ trace s, Runs standard 0 trace s ∧ s.fd = none ∧
    s.offered 0 = [[1, 2, 3], [4, 5, 6, 7]] ∧ s.sent 0 = [1, 2, 3, 4, 5] ∧ s.taken 0 = [7, 8] ∧
    s.sent 0 <+: (s.offered 0).flatten := by
  obtain ⟨s, trace, run, ⟨closed, offered, sent, taken⟩, -⟩ :=
    Run.after (.nil : Runs standard 0 [] _) after_stalled
  exact ⟨_, s, run, closed, offered, sent, taken, (streams_exact run 0).1⟩

theorem timeouts_exact_stalled : ∃ trace s, Runs standard 0 trace s ∧ s.timedOut = true ∧
    s.now = s.deadline + 1000000 ∧
    ∃ e, s.ended.getLast? = some e ∧ e.ok = false ∧ e.call.limit ≤ e.time := by
  obtain ⟨s, trace, run, -, flag, late⟩ :=
    Run.after (.nil : Runs standard 0 [] _) after_stalled
  exact ⟨_, s, run, flag, late, ((timeouts_exact run).2.2.2 flag).2⟩

end KVRPC.Client.TcpConnection
