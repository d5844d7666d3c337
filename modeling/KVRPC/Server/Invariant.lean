import KVRPC.Server.Acts

/-!
# Invariants of the running server

`Base` keeps the job queue in order and replies on the loop of their connection. `Served`
relates a connection to its jobs on the way: `pending` counts them, they are at most as many
as the limit, and without a sizer the one job on its way is the whole input.
-/
namespace KVRPC.Server

open Library Net Relation
open scoped List

variable {ε : Type} {t : TcpServer ε} {s s' : State} {c d : Nat} {v w : View}

theorem Base.initial (t : TcpServer ε) : Base t (State.initial t) where
  queue := .initial t
  homed := by
    intro i p mem
    simp [State.initial, Io.replies] at mem

theorem Base.setIo (base : Base t s) {i : Nat} {io : Io}
    (replies : ∀ p ∈ io.replies, t.home p.1.complete.conn = i) : Base t (s.setIo i io) where
  queue := base.queue
  homed := by
    intro j p mem
    by_cases same : j = i
    · subst same
      apply replies
      simpa [State.setIo] using mem
    · apply base.homed
      simpa [State.setIo, Function.update_of_ne same] using mem

theorem Base.setTasks (base : Base t s) {i : Nat} {task : Task} {rest : List Task}
    (head : (s.ios i).loop.tasks = task :: rest) : Base t (s.setTasks i rest) := by
  apply base.setIo
  intro p mem
  apply base.homed i p
  obtain ⟨task', mem', same⟩ := List.mem_filterMap.mp mem
  exact List.mem_filterMap.mpr ⟨task', by simpa [head] using .inr mem', same⟩

theorem Base.on (base : Base t s) (f : View → View)
    (queue : JobQueue.Inv t (f (s.view t c)).queue)
    (replies : (f (s.view t c)).io.replies = (s.ios (t.home c)).replies) :
    Base t (s.on t c f) where
  queue := queue
  homed := by
    intro i p mem
    by_cases same : i = t.home c
    · subst same
      apply base.homed
      simpa [State.on, State.put, replies] using mem
    · apply base.homed
      simpa [State.on, State.put, Function.update_of_ne same] using mem

theorem Base.move (base : Base t s) (m : View.Move t c (s.view t c) w) : Base t (s.put t c w) := by
  refine base.on (fun _ => w) ?_ m.replies_eq
  obtain same | ⟨size, -, room, rfl⟩ := m.queue_cases
  · exact same ▸ base.queue
  · rw [State.view_queue] at room
    have submitted := base.queue.submit ((s.view t c).cutInput size) ⟨c, size, t.sizer.isSome⟩
    rwa [JobQueue.submit, if_neg room] at submitted

theorem Base.act (base : Base t s) (act : Act t s s') : Base t s' := by
  cases act with
  | move _ _ m => exact base.move m
  | attach head => exact (base.setTasks head).on _ base.queue rfl
  | resume head => exact (base.setTasks head).on _ base.queue rfl
  | drop head _ => exact base.setTasks head
  | refuse head _ _ _ =>
    refine (base.setTasks head).on _ ?_ View.replies_close
    rw [View.queue_close]
    exact base.queue
  | absorb head _ _ _ => exact (base.setTasks head).on _ base.queue rfl
  | @expire i id _ _ =>
    have fired : Base t (s.setIo i { s.ios i with loop := (s.ios i).loop.cancel id }) :=
      base.setIo (base.homed i)
    exact ⟨base.queue, fired.homed⟩
  | accept _ =>
    unfold State.accept
    split
    · exact ⟨base.queue, base.homed⟩
    · have counted : Base t { s with
          stats.active := s.stats.active + 1, stats.accepted := s.stats.accepted + 1 } :=
        ⟨base.queue, base.homed⟩
      refine counted.setIo fun p mem => base.homed _ p ?_
      simpa [Io.replies, Reactor.post] using mem
  | take taken => exact ⟨base.queue.take taken, base.homed⟩
  | handle called => exact ⟨base.queue.handle called, base.homed⟩
  | @complete _ job reply queue completed =>
    have moved : Base t { s with queue := queue } := ⟨base.queue.complete completed, base.homed⟩
    refine moved.setIo fun p mem => ?_
    simp only [Io.replies, Reactor.post, List.filterMap_append, List.mem_append] at mem
    obtain old | new := mem
    · exact base.homed _ p old
    · have same : p = (job, reply) := by simpa using new
      rw [same]
  | closing => exact ⟨base.queue.step (a := .close) rfl, base.homed⟩
  | join _ _ =>
    refine ⟨base.queue, fun i p mem => base.homed i p ?_⟩
    dsimp only at mem
    split at mem
    · simpa [Io.replies, Reactor.post] using mem
    · exact mem
  | closeAll head => exact base.setTasks head
  | @stop i => exact base.setIo (base.homed i)

theorem Wired.act (wired : Wired t s) (base : Base t s) (act : Act t s s') : Wired t s' := by
  cases act with
  | move attached alive m => exact wired.move attached alive m
  | attach head => exact wired.attach head
  | @resume i c rest head =>
    have attached : (s.conns c).peer.token ≠ 0 := wired.tasks i (.pump c) (by simp [head])
    refine (wired.setTasks head).put attached (.inr rfl) (.of_io rfl rfl rfl rfl) fun d _ none => ?_
    exact (State.flights_on (f := View.unschedule) rfl rfl).trans none
  | drop head _ => exact wired.setTasks head
  | refuse head attached alive _ =>
    refine (wired.setTasks head).put attached (.inl alive)
      ((Tidy.close _ _ _).after rfl rfl rfl rfl) fun d _ none => ?_
    exact (State.flights_on (f := fun v => v.retract.close .reply) View.queue_close
      View.replies_close).trans none
  | @absorb _ job reply _ head attached alive _ =>
    refine (wired.setTasks head).put attached (.inl alive) (.of_io rfl rfl rfl rfl)
      fun d _ none => ?_
    exact (State.flights_on (f := fun v => v.retract.absorb job reply) rfl rfl).trans none
  | @expire i id _ _ =>
    have step : Wired.IoStep (ε := ε) (s.ios i)
        { s.ios i with loop := (s.ios i).loop.cancel id } :=
      ⟨rfl, rfl, rfl, fun _ mem => List.mem_of_mem_filter mem, fun _ mem => .inl mem, .refl _⟩
    have fired := wired.setIo step fun d none => Eq.trans (State.flights_setIo rfl) none
    exact fired.of_ios rfl rfl (fun _ none => none) fun j => .refl _
  | accept _ => exact wired.accept
  | take taken =>
    refine wired.of_ios rfl rfl (fun d none => ?_) fun i => .refl _
    exact List.perm_nil.mp (none ▸ State.flights_take base.queue.counted taken d)
  | handle called =>
    refine wired.of_ios rfl rfl (fun d none => ?_) fun i => .refl _
    exact List.perm_nil.mp (none ▸ State.flights_handle base.queue called _ d)
  | complete completed =>
    refine wired.of_ios rfl rfl (fun d none => ?_) fun i => ?_
    · exact List.perm_nil.mp (none ▸ State.flights_complete completed d)
    · simp only [State.post, State.setIo, Function.update_apply]
      split_ifs with home
      · rw [home]
        exact .post _ (fun _ _ _ => trivial) (by simp)
      · exact .refl _
  | closing => exact wired.of_ios rfl rfl (fun _ none => none) fun i => .refl _
  | join _ _ =>
    refine wired.of_ios rfl rfl (fun d none => ?_) fun i => ?_
    · rw [← none]
      refine State.flights_congr rfl rfl ?_
      dsimp only
      split
      · simp [Io.replies, Reactor.post]
      · rfl
    · dsimp only
      split
      · exact .post _ (fun _ _ _ => trivial) (by simp)
      · exact .refl _
  | closeAll head => exact wired.setTasks head
  | stop =>
    exact wired.setIo ⟨rfl, rfl, rfl, fun _ mem => mem, fun _ mem => .inl mem,
      List.Sublist.refl _⟩ fun d none => Eq.trans (State.flights_setIo rfl) none

theorem Wired.acts (base : Base t s) (wired : Wired t s) (acts : Acts t s s') :
    Base t s' ∧ Wired t s' := by
  induction acts with
  | refl => exact ⟨base, wired⟩
  | tail _ act ih => exact ⟨ih.1.act act, ih.2.act ih.1 act⟩

structure Served (t : TcpServer ε) (conn : Connection) (flights : List (Job Completion)) :
    Prop where
  count : conn.peer.closed = false → conn.peer.pending = flights.length
  limit : flights.length ≤ t.limit
  framed : ∀ job ∈ flights, job.complete.framed = t.sizer.isSome
  whole : t.sizer = none → conn.peer.closed = false → ∀ job ∈ flights,
    job.input = conn.peer.input.contents ∧ job.complete.size = conn.peer.input.contents.length
  valid : conn.peer.input.Valid
  bound : conn.peer.input.contents.length ≤ t.maxFrameBytes

namespace Served

variable {conn conn' : Connection} {flights flights' : List (Job Completion)}

theorem perm (h : Served t conn flights) (same : flights' ~ flights) : Served t conn flights' where
  count alive := (h.count alive).trans same.length_eq.symm
  limit := same.length_eq ▸ h.limit
  framed job mem := h.framed job (same.subset mem)
  whole none alive job mem := h.whole none alive job (same.subset mem)
  valid := h.valid
  bound := h.bound

/-- The rest of the connection does not matter. -/
theorem congr (h : Served t conn flights) (closed : conn'.peer.closed = conn.peer.closed)
    (pending : conn'.peer.pending = conn.peer.pending)
    (input : conn'.peer.input = conn.peer.input) : Served t conn' flights where
  count alive := pending.trans (h.count (closed ▸ alive))
  limit := h.limit
  framed := h.framed
  whole none alive := input ▸ h.whole none (closed ▸ alive)
  valid := input ▸ h.valid
  bound := input ▸ h.bound

/-- A closed connection only has to stay in bounds. -/
theorem close (h : Served t conn flights) (closed : conn'.peer.closed = true)
    (valid : conn'.peer.input.Valid)
    (bound : conn'.peer.input.contents.length ≤ t.maxFrameBytes) : Served t conn' flights where
  count alive := by simp [closed] at alive
  limit := h.limit
  framed := h.framed
  whole _ alive := by simp [closed] at alive
  valid := valid
  bound := bound

/-- Without a sizer there is one job at a time. -/
theorem limit_of_none (none : t.sizer = none) : t.limit = 1 := by
  simp [TcpServer.limit, none]

end Served

theorem View.ready_iff : v.ready t = true ↔
    v.conn.peer.pending < t.limit ∧ v.conn.peer.outputBytes < t.options.outputBytes / 2 := by
  simp [View.ready]

namespace Served

variable {conn conn' : Connection} {flights flights' : List (Job Completion)}

/-- The peer hands the first octets of its input on. -/
theorem offer (h : Served t v.conn flights) {size : Nat} (whole : size ≤ v.conn.peer.input.size) :
    (v.offer t size).conn.peer.input.Valid ∧
      (v.offer t size).conn.peer.input.contents.length ≤ t.maxFrameBytes := by
  have bound := h.bound
  rw [Buffer.size_eq h.valid] at whole
  unfold View.offer
  dsimp only
  split
  · refine ⟨h.valid.consume whole, ?_⟩
    rw [Buffer.contents_consume, List.length_drop]
    omega
  · exact ⟨h.valid, h.bound⟩

theorem accept (h : Served t v.conn flights) (alive : v.conn.peer.closed = false) {size : Nat}
    (cuts : v.Cuts t size) {job : Job Completion} (input : job.input = v.cutInput size)
    (complete : job.complete = ⟨c, size, t.sizer.isSome⟩) :
    Served t (v.accept t c size).conn (job :: flights) := by
  have pending := h.count alive
  have room := (View.ready_iff.mp cuts.offers.ready).1
  obtain ⟨valid, bound⟩ := h.offer cuts.whole
  refine ⟨fun _ => ?_, ?_, ?_, ?_, valid, bound⟩
  · simp [View.accept, View.offer, pending]
  · rw [List.length_cons]
    omega
  · intro other mem
    obtain rfl | old := List.mem_cons.mp mem
    · rw [complete]
    · exact h.framed other old
  · intro none _ other mem
    -- nothing else is on its way, and the job is all of the input
    have alone : flights = [] := by
      rw [limit_of_none none] at room
      exact List.length_eq_zero_iff.mp (by omega)
    have input_eq : (v.accept t c size).conn.peer.input = v.conn.peer.input := by
      simp [View.accept, View.offer, none]
    have size_eq : size = v.conn.peer.input.contents.length := by
      have := cuts.frameSize
      simp only [View.frameSize, none, Option.filter_eq_some_iff, Option.some.injEq] at this
      rw [← Buffer.size_eq h.valid]
      exact this.1.symm
    subst alone
    rw [List.mem_singleton.mp mem, input, complete, input_eq]
    refine ⟨?_, size_eq⟩
    rw [View.cutInput, Buffer.copy, size_eq, List.take_length]

theorem move (h : Served t v.conn flights) (alive : v.conn.peer.closed = false)
    (m : View.Move t c v w) {new : List (Job Completion)}
    (jobs : w.queue.jobs = v.queue.jobs ++ new) : Served t w.conn (new ++ flights) := by
  have unchanged : w.queue = v.queue → new = [] := by
    intro same
    rwa [same, List.self_eq_append_right] at jobs
  cases m with
  | wrote _ _ _ =>
    rw [unchanged (by simp)]
    refine h.congr ?_ ?_ ?_
    all_goals
      unfold View.wrote
      split <;> rfl
  | @received bytes begun ready nonempty space fits =>
    rw [unchanged rfl]
    have room := (View.ready_iff.mp ready).1
    have pending := h.count alive
    rw [Buffer.size_eq h.valid] at space fits
    rw [usub_of_le space.le] at fits
    refine ⟨h.count, h.limit, h.framed, ?_, h.valid.append bytes, ?_⟩
    · intro none _ job mem
      rw [limit_of_none none] at room
      have : flights = [] := List.length_eq_zero_iff.mp (by omega)
      simp [this] at mem
    · simp only [View.received, Buffer.contents_append h.valid, List.length_append]
      omega
  | ended _ _ =>
    rw [unchanged rfl]
    exact h.congr rfl rfl rfl
  | accepted cuts _ =>
    have one : new = [_] := (List.append_cancel_left jobs).symm
    rw [one]
    exact h.accept alive cuts rfl rfl
  | rejected cuts _ =>
    rw [unchanged (by simp)]
    obtain ⟨valid, bound⟩ := h.offer cuts.whole
    refine h.close View.closed_close ?_ ?_
    all_goals rw [View.reject, View.input_close]
    · exact valid
    · exact bound
  | closed _ =>
    rw [unchanged (by simp)]
    refine h.close View.closed_close ?_ ?_
    all_goals rw [View.input_close]
    · exact h.valid
    · exact h.bound
  | scheduled =>
    rw [unchanged (by simp)]
    refine h.congr ?_ ?_ ?_
    all_goals
      unfold View.schedule
      split <;> rfl
  | interest _ =>
    rw [unchanged rfl]
    exact h.congr rfl rfl rfl

/-- A reply arrives at a connection that is closed, or is closed for it. -/
theorem shrink (h : Served t conn flights') {job : Job Completion}
    (gone : flights' ~ job :: flights) (closed : conn'.peer.closed = true)
    (input : conn'.peer.input = conn.peer.input) : Served t conn' flights := by
  have limit := h.limit
  rw [gone.length_eq, List.length_cons] at limit
  refine ⟨?_, by omega, fun other mem => h.framed other (gone.symm.subset (by simp [mem])), ?_,
    input ▸ h.valid, input ▸ h.bound⟩
  all_goals simp [closed]

/-- A reply arrives at an open connection. -/
theorem absorb (h : Served t v.conn flights') (alive : v.conn.peer.closed = false)
    {job : Job Completion} {reply : Reply} (gone : flights' ~ job :: flights)
    (good : ¬ v.retract.Unacceptable t job.complete reply) :
    Served t (v.retract.absorb job reply).conn flights := by
  have pending := h.count alive
  have limit := h.limit
  have bound := h.bound
  have member : job ∈ flights' := gone.symm.subset (by simp)
  rw [gone.length_eq, List.length_cons] at pending limit
  have consumed : reply.consumed ≤ job.complete.size := by
    by_contra over_
    exact good (.inr (.inl (by omega)))
  have framed := h.framed job member
  have input : (v.retract.absorb job reply).conn.peer.input =
      if job.complete.framed then v.conn.peer.input else v.conn.peer.input.consume reply.consumed :=
    rfl
  have kept : (v.retract.absorb job reply).conn.peer.input.Valid ∧
      (v.retract.absorb job reply).conn.peer.input.contents.length ≤ t.maxFrameBytes := by
    rw [input, framed]
    cases hs : t.sizer with
    | some sizer => exact ⟨h.valid, bound⟩
    | none =>
      have size := (h.whole hs alive job member).2
      refine ⟨h.valid.consume (by omega), ?_⟩
      simp only [Option.isSome_none, Bool.false_eq_true, if_false, Buffer.contents_consume,
        List.length_drop]
      omega
  refine ⟨fun _ => ?_, by omega, fun other mem => ?_, ?_, kept.1, kept.2⟩
  · simp only [View.retract, View.absorb]
    rw [usub_of_le (by omega)]
    omega
  · exact h.framed other (gone.symm.subset (by simp [mem]))
  · intro none _ other mem
    rw [limit_of_none none] at limit
    have : flights = [] := List.length_eq_zero_iff.mp (by omega)
    simp [this] at mem

end Served

/-- Every connection is in step with its jobs on the way. -/
def AllServed (t : TcpServer ε) (s : State) : Prop :=
  ∀ c, Served t (s.conns c) (s.flights t c)

namespace AllServed

theorem initial (t : TcpServer ε) : AllServed t (State.initial t) := by
  intro c
  rw [State.flights_initial]
  exact ⟨fun _ => rfl, Nat.zero_le _, by simp, by simp, Buffer.valid_empty, Nat.zero_le _⟩

/-- One connection changes, the others do not notice. -/
theorem on (h : AllServed t s) (f : View → View) (queue : (f (s.view t c)).queue = s.queue)
    (replies : (f (s.view t c)).io.replies = (s.ios (t.home c)).replies)
    (own : Served t (f (s.view t c)).conn (s.flights t c)) : AllServed t (s.on t c f) := by
  intro d
  rw [State.flights_on queue replies, State.on, State.conns_put]
  split_ifs with same
  · exact same ▸ own
  · exact h d

theorem move (h : AllServed t s) (alive : (s.conns c).peer.closed = false)
    (m : View.Move t c (s.view t c) w) : AllServed t (s.put t c w) := by
  intro d
  obtain ⟨new, jobs, workers, own⟩ := m.jobs
  have flights := State.flights_put m.replies_eq workers jobs own d
  rw [State.conns_put]
  split_ifs at flights ⊢ with same
  · subst same
    exact ((h d).move alive m jobs).perm flights
  · exact (h d).perm flights

theorem congr (h : AllServed t s) (conns : s'.conns = s.conns)
    (flights : ∀ d, s'.flights t d = s.flights t d) : AllServed t s' := by
  intro d
  rw [conns, flights]
  exact h d

/-- A task that carries no reply leaves the queue of its loop. -/
theorem setTasks (h : AllServed t s) {i : Nat} {task : Task} {rest : List Task}
    (head : (s.ios i).loop.tasks = task :: rest) (other : ∀ job reply, task ≠ .reply job reply) :
    AllServed t (s.setTasks i rest) := by
  refine h.congr rfl fun d => State.flights_setIo ?_
  unfold Io.replies
  rw [head]
  cases task with
  | reply job reply => exact absurd rfl (other job reply)
  | _ => rfl

/-- A reply is taken off the queue of its loop and its connection changes. -/
theorem pop (h : AllServed t s) (base : Base t s) {i : Nat} {job : Job Completion} {reply : Reply}
    {rest : List Task} (head : (s.ios i).loop.tasks = .reply job reply :: rest) (conn : Connection)
    (conns : ∀ d, s'.conns d = if d = job.complete.conn then conn else s.conns d)
    (flights : ∀ d, s'.flights t d = (s.setTasks i rest).flights t d)
    (own : ∀ left, s.flights t job.complete.conn ~ job :: left → Served t conn left) :
    AllServed t s' := by
  intro d
  have home := base.homed i (job, reply) (by simp [Io.replies, head])
  have gone := State.flights_pop head home d
  rw [conns, flights]
  split_ifs at gone ⊢ with same
  · subst same
    exact own _ gone
  · exact (h d).perm gone.symm

theorem act (h : AllServed t s) (base : Base t s) (act : Act t s s') : AllServed t s' := by
  cases act with
  | move _ alive m => exact h.move alive m
  | attach head =>
    have popped := h.setTasks head (by simp)
    refine popped.on _ rfl rfl ?_
    exact (popped _).congr rfl rfl rfl
  | resume head =>
    have popped := h.setTasks head (by simp)
    refine popped.on _ rfl rfl ?_
    exact (popped _).congr rfl rfl rfl
  | @drop i job reply rest head gone =>
    refine h.pop base head (s.conns job.complete.conn) ?_ (fun _ => rfl) ?_
    · intro d
      split_ifs with same
      · rw [same]
        rfl
      · rfl
    · intro left shorter
      exact (h _).shrink shorter gone rfl
  | @refuse i job reply rest head _ alive bad =>
    refine h.pop base head _ State.conns_put (fun _ => State.flights_on ?_ ?_) ?_
    · rw [View.queue_close]
      rfl
    · rw [View.replies_close]
      rfl
    · intro left shorter
      exact (h _).shrink shorter View.closed_close View.input_close
  | absorb head _ alive good =>
    refine h.pop base head _ State.conns_put (fun _ => State.flights_on rfl rfl) ?_
    intro left shorter
    exact (h _).absorb alive shorter good
  | @expire i id _ _ =>
    have fired : AllServed t (s.setIo i { s.ios i with loop := (s.ios i).loop.cancel id }) :=
      h.congr rfl fun d => State.flights_setIo rfl
    exact fired
  | accept running =>
    unfold State.accept
    split
    · exact h
    · refine h.congr rfl fun d => State.flights_setIo ?_
      simp [Io.replies, Reactor.post]
  | take taken => exact fun d => (h d).perm (State.flights_take base.queue.counted taken d)
  | handle called => exact fun d => (h d).perm (State.flights_handle base.queue called _ d)
  | complete completed => exact fun d => (h d).perm (State.flights_complete completed d)
  | closing => exact h
  | join _ _ =>
    refine h.congr rfl fun d => State.flights_congr rfl rfl ?_
    dsimp only
    split
    · simp [Io.replies, Reactor.post]
    · rfl
  | closeAll head => exact h.setTasks head (by simp)
  | stop => exact h.congr rfl fun d => State.flights_setIo rfl

end AllServed

/-- What an act can do to one connection. -/
inductive Turn (t : TcpServer ε) (c : Nat) (conn : Connection) (flights : List (Job Completion)) :
    Connection → Prop
  | rest : Turn t c conn flights conn
  | move {v w : View} (own : v.conn = conn) (alive : v.conn.peer.closed = false)
      (m : View.Move t c v w) : Turn t c conn flights w.conn
  | wire (token timer : Nat) (scheduled : Bool) : Turn t c conn flights
      { conn with peer.token := token, peer.timer := timer, peer.scheduled := scheduled }
  | refuse {v : View} (own : v.conn = conn) (alive : v.conn.peer.closed = false)
      (job : Job Completion) (member : job ∈ flights) :
      Turn t c conn flights (v.retract.close .reply).conn
  | absorb {v : View} (own : v.conn = conn) (alive : v.conn.peer.closed = false)
      (job : Job Completion) (member : job ∈ flights) (reply : Reply)
      (good : ¬ v.retract.Unacceptable t job.complete reply) :
      Turn t c conn flights (v.retract.absorb job reply).conn

/-- A reply at the front of a loop belongs to a job on its way. -/
theorem Base.mem_flights (base : Base t s) {i : Nat} {job : Job Completion} {reply : Reply}
    {rest : List Task} (head : (s.ios i).loop.tasks = .reply job reply :: rest) :
    job ∈ s.flights t job.complete.conn := by
  have home := base.homed i (job, reply) (by simp [Io.replies, head])
  exact (State.flights_pop head home _).symm.subset (by simp)

theorem Act.turn (base : Base t s) (act : Act t s s') (c : Nat) :
    Turn t c (s.conns c) (s.flights t c) (s'.conns c) := by
  cases act with
  | move _ alive m =>
    rw [State.conns_put]
    split_ifs with same
    · subst same
      exact .move rfl alive m
    · exact .rest
  | attach _ =>
    rw [State.on, State.conns_put]
    split_ifs with same
    · subst same
      exact .wire _ _ _
    · exact .rest
  | resume _ =>
    rw [State.on, State.conns_put]
    split_ifs with same
    · subst same
      exact .wire _ _ _
    · exact .rest
  | refuse head _ alive _ =>
    rw [State.on, State.conns_put]
    split_ifs with same
    · subst same
      exact .refuse rfl alive _ (base.mem_flights head)
    · exact .rest
  | absorb head _ alive good =>
    rw [State.on, State.conns_put]
    split_ifs with same
    · subst same
      exact .absorb rfl alive _ (base.mem_flights head) _ good
    · exact .rest
  | accept _ =>
    unfold State.accept
    split <;> exact .rest
  | _ => exact .rest

/-- What every act keeps holds in all states reached by acts. -/
theorem Acts.invariant (acts : Acts t s s') {P : State → Prop}
    (inv : Base t s ∧ Wired t s ∧ AllServed t s ∧ P s)
    (next : ∀ {s s'}, Base t s → AllServed t s → P s → Act t s s' → P s') :
    Base t s' ∧ Wired t s' ∧ AllServed t s' ∧ P s' := by
  induction acts with
  | refl => exact inv
  | tail _ act ih =>
    obtain ⟨base, wired, served, p⟩ := ih
    exact ⟨base.act act, wired.act base act, served.act base act, next base served p act⟩

/-- **Invariant rule.** What every act keeps holds in every state of every run. -/
theorem State.Runs.invariant {trace : List (State × Event)} (run : State.Runs t trace s)
    (P : State → Prop) (base : P (State.initial t))
    (next : ∀ {s s'}, Base t s → AllServed t s → P s → Act t s s' → P s') :
    Base t s ∧ Wired t s ∧ AllServed t s ∧ P s := by
  refine Run.invariant run (fun _ s => Base t s ∧ Wired t s ∧ AllServed t s ∧ P s)
    (fun _ _ => True) ⟨.initial t, .initial t, .initial t, base⟩ ?_ (fun _ _ => trivial)
  rintro trace s e s' inv - taken
  exact Acts.invariant (step_acts inv.1 inv.2.1 taken) inv next

end KVRPC.Server
