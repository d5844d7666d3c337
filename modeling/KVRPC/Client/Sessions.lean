import KVRPC.Client.Callbacks

/-!
# Sessions

A session of a connection is known by the token of its watch. No two open connections have the
same token, no token is used again, and a connection that is not open carries nothing over to
its next session.
-/
namespace KVRPC.Client

open Library Net State

variable {ε : Type} {t : AsyncTransport ε} {x x' : Phase} {s s' : State} {i ref id : Nat}

/-- What a session is made of. -/
def Connection.traffic (c : Connection) : Bool × Nat × Buffer × List Nat × List Nat :=
  (c.fd, c.token, c.input, c.output, c.order)

structure Sessions (x : Phase) (s : State) : Prop where
  fresh : ∀ token, s.loop.next ≤ token → s.wire token = [] ∧ s.frames token = []
  known : ∀ i, (s.sockets i).fd = true → (s.sockets i).token < s.loop.next
  apart : ∀ i j, (s.sockets i).fd = true → (s.sockets j).fd = true →
    (s.sockets i).token = (s.sockets j).token → i = j
  closed : ∀ i, (s.sockets i).fd = false → (s.sockets i).input.contents = [] ∧
    (s.sockets i).output = [] ∧ (s.sockets i).order = []
  closing : ∀ i ∈ x.closing, (s.sockets i).fd = false
  valid : ∀ i, (s.sockets i).input.Valid

namespace Sessions

theorem of_eq (h : Sessions x s) (closing : ∀ i ∈ x'.closing, i ∈ x.closing)
    (wire : s'.wire = s.wire) (frames : s'.frames = s.frames) (next : s.loop.next ≤ s'.loop.next)
    (traffic : ∀ i, (s'.sockets i).traffic = (s.sockets i).traffic) : Sessions x' s' := by
  simp only [Connection.traffic, Prod.mk.injEq] at traffic
  refine ⟨fun token new => ?_, fun i => ?_, fun i j => ?_, fun i => ?_, fun i mem => ?_,
    fun i => ?_⟩
  · rw [wire, frames]
    exact h.fresh token (next.trans new)
  · obtain ⟨fd, token, -⟩ := traffic i
    rw [fd, token]
    exact fun open_ => (h.known i open_).trans_le next
  · obtain ⟨fd, token, -⟩ := traffic i
    obtain ⟨fd', token', -⟩ := traffic j
    rw [fd, fd', token, token']
    exact h.apart i j
  · obtain ⟨fd, -, input, output, order⟩ := traffic i
    rw [fd, input, output, order]
    exact h.closed i
  · rw [(traffic i).1]
    exact h.closing i (closing i mem)
  · rw [(traffic i).2.2.1]
    exact h.valid i

theorem setSocket (h : Sessions x s) {c : Connection}
    (sockets : s'.sockets = Function.update s.sockets i c)
    (traffic : c.traffic = (s.sockets i).traffic) (wire : s'.wire = s.wire)
    (frames : s'.frames = s.frames) (next : s'.loop.next = s.loop.next) : Sessions x s' := by
  refine h.of_eq (fun _ mem => mem) wire frames next.ge fun j => ?_
  rw [sockets]
  exact update_field Connection.traffic traffic j

/-- Something happens on an open connection. -/
theorem touch (h : Sessions x s) (open_ : (s.sockets i).fd = true)
    (fd : (s'.sockets i).fd = true) (token : (s'.sockets i).token = (s.sockets i).token)
    (valid : (s'.sockets i).input.Valid)
    (others : ∀ j, j ≠ i → (s'.sockets j).traffic = (s.sockets j).traffic)
    (wire : ∀ k, k ≠ (s.sockets i).token → s'.wire k = s.wire k)
    (frames : ∀ k, k ≠ (s.sockets i).token → s'.frames k = s.frames k)
    (next : s'.loop.next = s.loop.next) : Sessions x s' := by
  have known := h.known i open_
  have fd' : ∀ j, (s'.sockets j).fd = (s.sockets j).fd := by
    intro j
    by_cases here : j = i
    · rw [here, fd, open_]
    · exact congrArg Prod.fst (others j here)
  have token' : ∀ j, (s'.sockets j).token = (s.sockets j).token := by
    intro j
    by_cases here : j = i
    · rw [here, token]
    · exact congrArg (fun c => c.2.1) (others j here)
  refine ⟨fun k new => ?_, fun j => ?_, fun j k => ?_, fun j closed => ?_, fun j mem => ?_,
    fun j => ?_⟩
  · rw [next] at new
    have other : k ≠ (s.sockets i).token := by omega
    rw [wire k other, frames k other]
    exact h.fresh k new
  · rw [fd', token', next]
    exact h.known j
  · rw [fd', fd', token', token']
    exact h.apart j k
  · have here : j ≠ i := by
      rintro rfl
      simp [fd] at closed
    have same := others j here
    simp only [Connection.traffic, Prod.mk.injEq] at same
    obtain ⟨-, -, input, output, order⟩ := same
    rw [input, output, order]
    exact h.closed j ((fd' j).symm.trans closed)
  · rw [fd']
    exact h.closing j mem
  · by_cases here : j = i
    · rwa [here]
    · have same : (s'.sockets j).input = (s.sockets j).input :=
        congrArg (fun c => c.2.2.1) (others j here)
      rw [same]
      exact h.valid j

/-- A session ends, or none begins. -/
theorem shut (h : Sessions x s) (fd : (s'.sockets i).fd = false)
    (input : (s'.sockets i).input = {}) (output : (s'.sockets i).output = [])
    (order : (s'.sockets i).order = [])
    (others : ∀ j, j ≠ i → (s'.sockets j).traffic = (s.sockets j).traffic)
    (closing : ∀ j ∈ x'.closing, j = i ∨ j ∈ x.closing) (wire : s'.wire = s.wire)
    (frames : s'.frames = s.frames) (next : s'.loop.next = s.loop.next) : Sessions x' s' := by
  simp only [Connection.traffic, Prod.mk.injEq] at others
  have other : ∀ j, (s'.sockets j).fd = true → j ≠ i := by
    rintro j open_ rfl
    simp [fd] at open_
  refine ⟨fun k new => ?_, fun j open_ => ?_, fun j k open_ open' => ?_, fun j closed => ?_,
    fun j mem => ?_, fun j => ?_⟩
  · rw [wire, frames]
    exact h.fresh k (next ▸ new)
  · obtain ⟨fd', token', -⟩ := others j (other j open_)
    rw [token', next]
    exact h.known j (fd' ▸ open_)
  · obtain ⟨fd₁, token₁, -⟩ := others j (other j open_)
    obtain ⟨fd₂, token₂, -⟩ := others k (other k open')
    rw [token₁, token₂]
    exact h.apart j k (fd₁ ▸ open_) (fd₂ ▸ open')
  · by_cases here : j = i
    · rw [here, input, output, order]
      exact ⟨rfl, rfl, rfl⟩
    · obtain ⟨fd', -, input', output', order'⟩ := others j here
      rw [input', output', order']
      exact h.closed j (fd' ▸ closed)
  · by_cases here : j = i
    · rw [here, fd]
    · rw [(others j here).1]
      exact h.closing j ((closing j mem).resolve_left here)
  · by_cases here : j = i
    · rw [here, input]
      exact Buffer.valid_empty
    · rw [(others j here).2.2.1]
      exact h.valid j

/-- A session begins. -/
theorem start (h : Sessions x s) (idle : x.closing = [])
    (token : (s'.sockets i).token = s.loop.next)
    (fd : (s'.sockets i).fd = true) (input : (s'.sockets i).input = (s.sockets i).input)
    (others : ∀ j, j ≠ i → (s'.sockets j).traffic = (s.sockets j).traffic)
    (wire : s'.wire = s.wire) (frames : s'.frames = s.frames)
    (next : s.loop.next < s'.loop.next) : Sessions x s' := by
  simp only [Connection.traffic, Prod.mk.injEq] at others
  -- the new token is larger than those of the other connections
  have old : ∀ j, j ≠ i → (s'.sockets j).fd = true → (s'.sockets j).token < s.loop.next := by
    intro j here open_
    obtain ⟨fd', token', -⟩ := others j here
    rw [token']
    exact h.known j (fd' ▸ open_)
  refine ⟨fun k new => ?_, fun j open_ => ?_, fun j k open_ open' same => ?_, fun j closed => ?_,
    fun j mem => ?_, fun j => ?_⟩
  · rw [wire, frames]
    exact h.fresh k (next.le.trans new)
  · by_cases here : j = i
    · rw [here, token]
      exact next
    · exact (old j here open_).trans next
  · by_cases first : j = i
    · by_cases second : k = i
      · rw [first, second]
      · have := old k second open'
        rw [first, token] at same
        omega
    · have := old j first open_
      by_cases second : k = i
      · rw [second, token] at same
        omega
      · obtain ⟨fd₁, token₁, -⟩ := others j first
        obtain ⟨fd₂, token₂, -⟩ := others k second
        exact h.apart j k (fd₁ ▸ open_) (fd₂ ▸ open') (token₁ ▸ token₂ ▸ same)
  · have here : j ≠ i := by
      rintro rfl
      simp [fd] at closed
    obtain ⟨fd', -, input', output', order'⟩ := others j here
    rw [input', output', order']
    exact h.closed j (fd' ▸ closed)
  · rw [idle] at mem
    cases mem
  · by_cases here : j = i
    · rw [here, input]
      exact h.valid i
    · rw [(others j here).2.2.1]
      exact h.valid j

theorem clear_next (s : State) (i : Nat) : (s.clear i).loop.next = s.loop.next := by
  unfold State.clear
  split <;> rfl

/-- The input after a frame has been taken off. -/
theorem consume_valid (h : Sessions x s) {size : Nat} (whole : size ≤ (s.sockets i).input.size) :
    ((s.sockets i).input.consume size).Valid := by
  rw [Buffer.size_eq (h.valid i)] at whole
  exact (h.valid i).consume whole

theorem release (h : Sessions x s) (id ref : Nat) (outcome : Outcome) :
    Sessions x ((s.release id ref).record ref outcome) :=
  h.of_eq (fun _ mem => mem) rfl rfl le_rfl
    (release_field Connection.traffic (fun _ _ => rfl) s id ref)

theorem consume (h : Sessions x s) (open_ : (s.sockets i).fd = true) {size : Nat}
    (whole : size ≤ (s.sockets i).input.size) (bytes : Bytes) (verdict : Verdict) :
    Sessions x ((s.consume i size).note i bytes verdict) := by
  refine h.touch open_ ?_ ?_ ?_ ?_ (fun _ _ => rfl) ?_ rfl
  · simpa [State.consume, note, State.setSocket] using open_
  · simp [State.consume, note, State.setSocket]
  · simpa [State.consume, note, State.setSocket] using h.consume_valid whole
  · intro j other
    simp [State.consume, note, State.setSocket, other]
  · intro k other
    simp [State.consume, note, State.setSocket, other]

theorem take (h : Sessions x s) (open_ : (s.sockets i).fd = true) {size : Nat}
    (whole : size ≤ (s.sockets i).input.size) (ref : Nat) (response : Bytes) :
    Sessions x (s.take t i size ref response) := by
  refine h.touch open_ ?_ ?_ ?_ ?_ (fun _ _ => rfl) ?_ rfl
  · simpa [State.take, note] using open_
  · simp [State.take, note]
  · simpa [State.take, note] using h.consume_valid whole
  · intro j other
    simp [State.take, note, other]
  · intro k other
    simp [State.take, note, other]

theorem drop (h : Sessions x s) (open_ : (s.sockets i).fd = true) {size : Nat}
    (whole : size ≤ (s.sockets i).input.size) (id : Nat) (response : Bytes) :
    Sessions x (s.drop i size id response) := by
  refine h.touch open_ ?_ ?_ ?_ ?_ (fun _ _ => rfl) ?_ rfl
  · simpa [State.drop, note] using open_
  · simp [State.drop, note]
  · simpa [State.drop, note] using h.consume_valid whole
  · intro j other
    simp [State.drop, note, other]
  · intro k other
    simp [State.drop, note, other]

theorem step (h : Sessions x s) (step : Step t (x, s) (x', s')) : Sessions x' s' := by
  have same : ∀ {s' : State}, s'.wire = s.wire → s'.frames = s.frames →
      s'.loop.next = s.loop.next → s'.sockets = s.sockets → Sessions x s' := by
    intro s' wire frames next sockets
    exact h.of_eq (fun _ mem => mem) wire frames next.ge fun i => by rw [sockets]
  cases step with
  | enroll _ => exact h.of_eq (fun _ mem => mem) rfl rfl (Nat.le_succ _) fun _ => rfl
  | resume _ => exact h.setSocket rfl rfl rfl rfl rfl
  | fire _ _ => exact h.of_eq (fun _ mem => mem) rfl rfl le_rfl fun _ => rfl
  | fired _ _ => exact h.of_eq (fun _ mem => mem) rfl rfl le_rfl fun _ => rfl
  | expire _ _ => exact h.release _ _ _
  | @retire _ _ id ref i _ _ _ _ =>
    have retired : Sessions x (s.retire i id) := h.setSocket rfl rfl rfl rfl rfl
    exact retired.release _ _ _
  | fail _ _ _ => exact h.release _ _ _
  | deliver open_ cuts _ _ _ => exact (h.take open_ cuts.whole _ _).release _ _ _
  | drop open_ cuts _ _ => exact h.drop open_ cuts.whole _ _
  | @refuse _ _ _ i open_ refuses =>
    have noted : ∀ bytes, Sessions x (s.note i bytes .invalid) := by
      intro bytes
      refine h.touch open_ open_ rfl (h.valid i) (fun _ _ => rfl) (fun _ _ => rfl) ?_ rfl
      exact fun k other => Function.update_of_ne other _ _
    cases refuses with
    | framing _ _ => exact noted _
    | tooLarge _ _ _ => exact noted _
    | noId _ _ whole _ => exact h.consume open_ whole _ _
    | unknown cuts _ _ => exact h.consume open_ cuts.whole _ _
  | clear i =>
    refine h.shut (i := i) ?_ ?_ ?_ ?_ (fun j other => ?_) (fun j mem => List.mem_cons.mp mem)
      rfl rfl (clear_next s i)
    all_goals simp [State.clear, *]
  | closed closing _ =>
    exact h.of_eq (fun j mem => closing ▸ List.mem_cons_of_mem _ mem) rfl rfl le_rfl fun _ => rfl
  | @assign _ _ i ref rest _ _ _ _ open_ =>
    refine h.touch open_ ?_ ?_ ?_ (fun j other => ?_) (fun _ _ => rfl) (fun _ _ => rfl) rfl
    · simpa [State.assign] using open_
    · simp [State.assign]
    · simpa [State.assign] using h.valid i
    · simp [State.assign, other]
  | @connect _ _ i ref rest connecting idle _ _ _ _ _ =>
    cases connecting with
    | false =>
      refine h.start idle (i := i) ?_ ?_ ?_ (fun j other => ?_) rfl rfl (Nat.lt_succ_self _)
      all_goals simp [State.assign, State.opened, State.register, Reactor.add, *]
    | true =>
      refine h.start idle (i := i) ?_ ?_ ?_ (fun j other => ?_) rfl rfl ?_
      all_goals
        simp [State.assign, State.opened, State.register, State.armConnect, Reactor.add,
          Reactor.timerAt, *]
  | @refused _ _ i ref rest made _ _ _ _ _ =>
    cases made with
    | false =>
      refine h.shut (i := i) ?_ ?_ ?_ ?_ (fun j other => ?_) (fun j mem => List.mem_cons.mp mem)
        rfl rfl (clear_next _ i)
      all_goals simp [State.clear, State.assign, *]
    | true =>
      refine h.shut (i := i) ?_ ?_ ?_ ?_ (fun j other => ?_) (fun j mem => List.mem_cons.mp mem)
        rfl rfl (clear_next _ i)
      all_goals simp [State.clear, State.assign, socketMade, State.setSocket, *]
  | established i => exact h.setSocket rfl rfl rfl rfl rfl
  | @wrote _ _ i ref n rest open_ _ _ _ =>
    unfold State.wrote
    split
    · refine h.touch open_ ?_ ?_ ?_ (fun j other => ?_) (fun k other => ?_) (fun _ _ => rfl) rfl
      · simpa using open_
      · simp
      · simpa using h.valid i
      · simp [other]
      · simp [other]
    · exact h.setSocket rfl rfl rfl rfl rfl
  | @received _ _ i open_ bytes =>
    refine h.touch open_ ?_ ?_ ?_ (fun j other => ?_) (fun k other => ?_) (fun _ _ => rfl) rfl
    · simpa [State.received] using open_
    · simp [State.received]
    · simpa [State.received] using (h.valid i).append bytes
    · simp [State.received, other]
    · simp [State.received, other]
  | schedule i =>
    unfold State.schedule
    split
    · exact h
    · exact h.setSocket rfl rfl rfl rfl rfl
  | _ => exact same rfl rfl rfl rfl

theorem init : Sessions {} {} where
  fresh _ _ := ⟨rfl, rfl⟩
  known _ := nofun
  apart _ _ := nofun
  closed _ _ := ⟨rfl, rfl, rfl⟩
  closing := nofun
  valid _ := Buffer.valid_empty

end Sessions

theorem sessions {trace : List (State × Event)} (run : Runs t trace s) : Sessions {} s :=
  runs_invariant run Sessions .init fun _ h step => h.step step

end KVRPC.Client
