import KVRPC.Server.Accounting

/-!
# From the first connection to the last

The end of a run: the accept loop has ended, so no connection is posted behind the task that closes
all peers, and a loop that has run this task has none left (`Shut`). Together with the tables
of `Accounting` this settles what becomes of every connection.
-/
namespace KVRPC.Server

open Library Net Relation

variable {ε : Type} {t : TcpServer ε} {s s' : State} {c d i : Nat} {v w : View}

structure Shut (s : State) : Prop where
  before : s.joined = false → ∀ i, .closeAll ∉ (s.ios i).loop.tasks ∧
    (s.ios i).loop.stopping = false
  drained : s.joined = true → s.queue.closing = true
  last : ∀ i, (s.ios i).loop.tasks.Pairwise fun a b => a = .closeAll → ∀ c, b ≠ .attach c
  stopped : ∀ i, (s.ios i).loop.stopping = true →
    (s.ios i).peers = [] ∧ ∀ c, .attach c ∉ (s.ios i).loop.tasks

/-- A step after which no loop has more peers or has to attach or close more of them. -/
structure Follows (s s' : State) : Prop where
  joined : s'.joined = s.joined
  closing : s.queue.closing = true → s'.queue.closing = true
  stopping : ∀ i, (s'.ios i).loop.stopping = (s.ios i).loop.stopping
  peers : ∀ i, ∀ x ∈ (s'.ios i).peers, x ∈ (s.ios i).peers
  tasks : ∀ i, ∃ new, (s'.ios i).loop.tasks.Sublist ((s.ios i).loop.tasks ++ new) ∧
    ∀ x ∈ new, x ≠ .closeAll ∧ ∀ c, x ≠ .attach c

theorem Shut.follows (h : Shut s) (f : Follows s s') : Shut s' where
  before early i := by
    obtain ⟨absent, running⟩ := h.before (f.joined ▸ early) i
    obtain ⟨new, sublist, other⟩ := f.tasks i
    refine ⟨fun mem => ?_, (f.stopping i).trans running⟩
    obtain old | late := List.mem_append.mp (sublist.subset mem)
    · exact absent old
    · exact (other _ late).1 rfl
  drained late := f.closing (h.drained (f.joined ▸ late))
  last i := by
    obtain ⟨new, sublist, other⟩ := f.tasks i
    refine List.Pairwise.sublist sublist (List.pairwise_append.mpr ⟨h.last i, ?_, ?_⟩)
    · exact List.pairwise_of_forall_mem_list fun a _ b mem _ => (other b mem).2
    · exact fun a _ b mem _ => (other b mem).2
  stopped i ended := by
    obtain ⟨empty, absent⟩ := h.stopped i ((f.stopping i) ▸ ended)
    obtain ⟨new, sublist, other⟩ := f.tasks i
    refine ⟨List.eq_nil_iff_forall_not_mem.mpr fun x mem => ?_, fun c mem => ?_⟩
    · simpa [empty] using f.peers i x mem
    · obtain old | late := List.mem_append.mp (sublist.subset mem)
      · exact absent c old
      · exact (other _ late).2 c rfl

namespace Follows

theorem trans {s'' : State} (f : Follows s s') (g : Follows s' s'') : Follows s s'' where
  joined := g.joined.trans f.joined
  closing shut := g.closing (f.closing shut)
  stopping i := (g.stopping i).trans (f.stopping i)
  peers i x mem := f.peers i x (g.peers i x mem)
  tasks i := by
    obtain ⟨new, sublist, other⟩ := f.tasks i
    obtain ⟨new', sublist', other'⟩ := g.tasks i
    refine ⟨new ++ new', ?_, fun x mem => (List.mem_append.mp mem).elim (other x) (other' x)⟩
    rw [← List.append_assoc]
    exact sublist'.trans (sublist.append_right new')

/-- Nothing happens on the loops. -/
theorem of_eq (ios : s'.ios = s.ios) (joined : s'.joined = s.joined)
    (closing : s.queue.closing = true → s'.queue.closing = true) : Follows s s' where
  joined := joined
  closing := closing
  stopping i := by rw [ios]
  peers i x mem := ios ▸ mem
  tasks i := ⟨[], by simp [ios], by simp⟩

theorem setIo {io : Io} (stopping : io.loop.stopping = (s.ios i).loop.stopping)
    (peers : ∀ x ∈ io.peers, x ∈ (s.ios i).peers)
    (tasks : ∃ new, io.loop.tasks.Sublist ((s.ios i).loop.tasks ++ new) ∧
      ∀ x ∈ new, x ≠ .closeAll ∧ ∀ c, x ≠ .attach c) : Follows s (s.setIo i io) := by
  have ios : ∀ j, (s.setIo i io).ios j = if j = i then io else s.ios j := by
    intro j
    simp [State.setIo, Function.update_apply]
  refine ⟨rfl, id, fun j => ?_, fun j => ?_, fun j => ?_⟩
  all_goals
    rw [ios]
    split_ifs with same
  · rw [same, stopping]
  · rfl
  · rw [same]
    exact peers
  · exact fun _ mem => mem
  · rw [same]
    exact tasks
  · exact ⟨[], by simp, by simp⟩

theorem setTasks {task : Task} {rest : List Task} (head : (s.ios i).loop.tasks = task :: rest) :
    Follows s (s.setTasks i rest) :=
  .setIo rfl (fun _ mem => mem) ⟨[], by simp [head], by simp⟩

theorem put (tidy : Tidy c (s.view t c) w) (closing : w.queue.closing = s.queue.closing)
    (stopping : w.io.loop.stopping = (s.ios (t.home c)).loop.stopping) :
    Follows s (s.put t c w) := by
  have moved : Follows s (s.setIo (t.home c) w.io) := by
    refine setIo stopping tidy.peers ?_
    obtain same | more := tidy.tasks
    · exact ⟨[], by simp [same, State.view], by simp⟩
    · exact ⟨[.pump c], by simp [more, State.view], by simp⟩
  exact ⟨rfl, fun shut => closing.trans shut, moved.stopping, moved.peers, moved.tasks⟩

end Follows

theorem View.Move.closing (m : View.Move t c v w) : w.queue.closing = v.queue.closing := by
  obtain same | ⟨size, -, -, rfl⟩ := m.queue_cases
  · rw [same]
  · rfl

namespace Shut

theorem attach (h : Shut s) {rest : List Task}
    (head : (s.ios i).loop.tasks = .attach c :: rest) (home : t.home c = i) :
    Shut ((s.setTasks i rest).on t c (View.attach c)) := by
  subst home
  have popped := h.follows (.setTasks head)
  -- a loop that has been told to stop has nothing left to attach
  have running : (s.ios (t.home c)).loop.stopping = false := by
    by_contra ended
    exact (h.stopped _ (by simpa using ended)).2 c (by simp [head])
  have tasks : ∀ j, (((s.setTasks (t.home c) rest).on t c (View.attach c)).ios j).loop.tasks =
      ((s.setTasks (t.home c) rest).ios j).loop.tasks := by
    intro j
    rw [State.on, State.ios_put]
    split_ifs with same
    · rw [same]
      rfl
    · rfl
  have stopping : ∀ j, (((s.setTasks (t.home c) rest).on t c (View.attach c)).ios j).loop.stopping =
      ((s.setTasks (t.home c) rest).ios j).loop.stopping := State.stopping_put rfl
  refine ⟨fun early j => ?_, popped.drained, fun j => ?_, fun j ended => ?_⟩
  · rw [tasks, stopping]
    exact popped.before early j
  · rw [tasks]
    exact popped.last j
  · rw [stopping] at ended
    have away : j ≠ t.home c := by
      rintro rfl
      rw [State.stopping_setTasks, running] at ended
      cases ended
    rw [tasks, State.on, State.ios_put, if_neg away]
    exact popped.stopped j ended

theorem accept (h : Shut s) (running : s.queue.closing = false) : Shut (s.accept t) := by
  have early : s.joined = false := by
    by_contra late
    rw [h.drained (by simpa using late)] at running
    cases running
  unfold State.accept
  split
  case isTrue => exact h.follows (.of_eq rfl rfl id)
  case isFalse =>
    have ios : ∀ j, ((({ s with
        stats.active := s.stats.active + 1, stats.accepted := s.stats.accepted + 1 } : State).post
          (t.home s.stats.accepted) (.attach s.stats.accepted)).ios j).loop.tasks =
            (s.ios j).loop.tasks ++
              if j = t.home s.stats.accepted then [.attach s.stats.accepted] else [] := by
      intro j
      simp only [State.post, State.setIo, Function.update_apply]
      split_ifs with same
      · rw [same]
        rfl
      · simp
    refine ⟨fun _ j => ⟨?_, ?_⟩, fun late => ?_, fun j => ?_, fun j ended => ?_⟩
    · rw [ios, List.mem_append]
      rintro (old | new)
      · exact (h.before early j).1 old
      · split_ifs at new <;> simp at new
    · rw [State.stopping_post]
      exact (h.before early j).2
    · exact absurd (early.symm.trans late) (by simp)
    · rw [ios]
      refine List.pairwise_append.mpr ⟨h.last j, ?_, fun a mem b _ closes => ?_⟩
      · split_ifs <;> simp
      · exact absurd (closes ▸ mem) (h.before early j).1
    · rw [State.stopping_post] at ended
      exact absurd ((h.before early j).2.symm.trans ended) (by simp)

/-- The workers have gone, so the queue is closed, and the loops are told to close their peers. -/
theorem join (h : Shut s) (base : Base t s) (first : s.joined = false)
    (exited : ∀ worker ∈ s.queue.workers, worker = .exited) :
    Shut { s with
      joined := true
      ios := fun i =>
        if i < t.options.ioThreads then { s.ios i with loop := (s.ios i).loop.post .closeAll }
        else s.ios i } := by
  have closing := (base.queue.drained exited).1
  refine ⟨fun early => ?_, fun _ => closing, fun i => ?_, fun i ended => ?_⟩
  · cases early
  · dsimp only
    split
    · exact List.pairwise_append.mpr ⟨h.last i, List.pairwise_singleton _ _, by simp⟩
    · exact h.last i
  · have running := (h.before first i).2
    dsimp only at ended
    split at ended
    · exact absurd (running.symm.trans ended) (by simp)
    · exact absurd (running.symm.trans ended) (by simp)

theorem calm (h : Shut s) (base : Base t s) (wired : Wired t s) (calm : Calm t s s') : Shut s' := by
  obtain ⟨act, timeouts, stopping⟩ := calm
  cases act with
  | move _ _ m => exact h.follows (.put (.move m) m.closing m.frame.2)
  | @attach i c rest head =>
    obtain ⟨-, home, -⟩ := wired.tasks i (.attach c) (by simp [head])
    exact h.attach head home
  | resume head =>
    exact h.follows ((Follows.setTasks head).trans (.put (.of_io rfl rfl rfl rfl) rfl rfl))
  | drop head _ => exact h.follows (.setTasks head)
  | refuse head _ _ _ =>
    refine h.follows ((Follows.setTasks head).trans
      (.put ((Tidy.close _ _ _).after rfl rfl rfl rfl) ?_ View.close_frame.2))
    rw [View.queue_close]
    rfl
  | absorb head _ _ _ =>
    exact h.follows ((Follows.setTasks head).trans (.put (.of_io rfl rfl rfl rfl) rfl rfl))
  | expire _ => exact absurd timeouts (Nat.succ_ne_self _)
  | accept running => exact h.accept running
  | take taken =>
    exact h.follows (.of_eq rfl rfl fun shut => (JobQueue.take_closing taken).trans shut)
  | handle called =>
    exact h.follows (.of_eq rfl rfl fun shut => (JobQueue.handle_closing called).trans shut)
  | @complete _ job reply queue completed =>
    have moved : Follows s { s with queue := queue } :=
      .of_eq rfl rfl fun shut => (JobQueue.complete_closing completed).trans shut
    exact h.follows (moved.trans (.setIo rfl (fun _ mem => mem)
      ⟨[.reply job reply], by simp [Reactor.post], by simp⟩))
  | closing => exact h.follows (.of_eq rfl rfl fun _ => rfl)
  | join first exited => exact h.join base first exited
  | closeAll head => exact h.follows (.setTasks head)
  | @stop i =>
    have same := stopping i
    refine h.follows (.setIo ?_ (fun _ mem => mem) ⟨[], by simp [Reactor.stop], by simp⟩)
    simpa [State.setIo] using same

theorem calms (h : Shut s) (base : Base t s) (wired : Wired t s) (calms : Calms t s s') :
    Shut s' := by
  induction calms with
  | refl => exact h
  | tail before last ih =>
    have reached := Wired.acts base wired (Calms.acts before)
    exact ih.calm reached.1 reached.2 last

/-- A loop without peers stops. -/
theorem stop (h : Shut s) (late : s.joined = true) (empty : (s.ios i).peers = [])
    (absent : ∀ c, .attach c ∉ (s.ios i).loop.tasks) :
    Shut (s.setIo i { s.ios i with loop := (s.ios i).loop.stop }) := by
  have ios : ∀ j, (s.setIo i { s.ios i with loop := (s.ios i).loop.stop }).ios j =
      if j = i then { s.ios i with loop := (s.ios i).loop.stop } else s.ios j := by
    intro j
    simp [State.setIo, Function.update_apply]
  refine ⟨fun early => ?_, h.drained, fun j => ?_, fun j => ?_⟩
  · exact absurd (late.symm.trans early) (by simp)
  all_goals
    rw [ios]
    split_ifs with same
  · exact h.last i
  · exact h.last j
  · exact fun _ => ⟨empty, absent⟩
  · exact h.stopped j

end Shut

/-- Closing the peers of a loop one after another leaves none. -/
theorem closePeers (h : Accounted t s) (base : Base t s) (wired : Wired t s) {peers : List Nat}
    (attached : ∀ c ∈ peers, (s.conns c).peer.token ≠ 0)
    (all : ∀ x ∈ (s.ios i).peers, x.2 ∈ peers) :
    ((peers.foldl (fun s c => s.on t c fun v => v.close .shutdown) s).ios i).peers = [] ∧
    ((peers.foldl (fun s c => s.on t c fun v => v.close .shutdown) s).ios i).loop.tasks =
      (s.ios i).loop.tasks ∧
    (peers.foldl (fun s c => s.on t c fun v => v.close .shutdown) s).joined = s.joined := by
  induction peers generalizing s with
  | nil =>
    refine ⟨List.eq_nil_iff_forall_not_mem.mpr fun x mem => ?_, rfl, rfl⟩
    simpa using all x mem
  | cons c peers ih =>
    have may : (s.view t c).MayClose t .shutdown := trivial
    have closes : Calms t s (s.on t c fun v => v.close .shutdown) :=
      on_calm (attached c (by simp)) _ (close_moves may)
    obtain ⟨base', wired'⟩ := Wired.acts base wired closes.acts
    have after := h.calms base wired closes
    have tasks : ((s.on t c fun v => v.close .shutdown).ios i).loop.tasks =
        (s.ios i).loop.tasks := by
      rw [State.on, State.ios_put]
      split_ifs with home
      · rw [home]
        unfold View.close
        split <;> rfl
      · rfl
    -- what is left in the table belongs to connections that are open, so not to this one
    have left : ∀ x ∈ ((s.on t c fun v => v.close .shutdown).ios i).peers, x.2 ∈ peers := by
      intro x mem
      have owner := ((after.peers i).mem x).mp mem
      obtain ⟨⟨-, -, alive⟩, -⟩ := Option.ite_none_right_eq_some.mp owner
      have other : x.2 ≠ c := by
        rintro rfl
        simp [State.on, State.conns_put] at alive
      have old : x ∈ (s.ios i).peers := by
        rw [State.on, State.ios_put] at mem
        split_ifs at mem with home
        · rw [home]
          exact (Tidy.close c (s.view t c) .shutdown).peers x mem
        · exact mem
      exact (List.mem_cons.mp (all x old)).resolve_left other
    obtain ⟨empty, same, joined⟩ := ih after base' wired'
      (fun d mem => by rw [token_on_close]; exact attached d (by simp [mem])) left
    exact ⟨empty, same.trans tasks, joined⟩

/-- The last task of a loop. -/
theorem Shut.closeAll (h : Shut s) (accounted : Accounted t s) (base : Base t s)
    (wired : Wired t s) {rest : List Task} (head : (s.ios i).loop.tasks = .closeAll :: rest) :
    Accounted t ((s.setTasks i rest).closeAll t i) ∧ Shut ((s.setTasks i rest).closeAll t i) := by
  have first : Calms t s (s.setTasks i rest) :=
    .single ⟨.closeAll head, rfl, State.stopping_setTasks i rest⟩
  obtain ⟨base', wired'⟩ := Wired.acts base wired first.acts
  have popped := accounted.calms base wired first
  have attached : ∀ c ∈ ((s.setTasks i rest).ios i).peers.map Prod.snd,
      ((s.setTasks i rest).conns c).peer.token ≠ 0 := by
    intro c mem
    obtain ⟨x, mem', rfl⟩ := List.mem_map.mp mem
    exact wired'.peers i x mem'
  have closes : Calms t (s.setTasks i rest) (((s.setTasks i rest).ios i).peers.map Prod.snd |>.foldl
      (fun s c => s.on t c fun v => v.close .shutdown) (s.setTasks i rest)) :=
    closePeers_calm attached
  obtain ⟨empty, tasks, joined⟩ := closePeers (i := i) popped base' wired' attached
    fun x mem => List.mem_map.mpr ⟨x, mem, rfl⟩
  have shut := (h.calms base wired first).calms base' wired' closes
  have late : s.joined = true := by
    by_contra early
    exact (h.before (by simpa using early) i).1 (by simp [head])
  refine ⟨(popped.calms base' wired' closes).still (.setIo rfl rfl rfl rfl fun _ mem => mem), ?_⟩
  refine shut.stop (joined.trans late) empty fun c mem => ?_
  -- nothing is attached behind the task
  have ordered := h.last i
  rw [head, List.pairwise_cons] at ordered
  rw [tasks] at mem
  exact ordered.1 _ (by simpa [State.setTasks, State.setIo] using mem) rfl c rfl

theorem Accounted.initial (t : TcpServer ε) : Accounted t (State.initial t) := by
  have unborn : ∀ f i, (State.initial t).keyOn t f i = fun _ => none :=
    fun f i => funext fun c => if_neg fun attached => attached.2.1 rfl
  refine ⟨⟨fun i => ?_, fun i => ?_, fun i => ?_, by simp [State.initial], fun _ => rfl⟩,
    by simp [State.initial], by simp [State.initial, State.openConns], Nat.zero_le _⟩
  all_goals
    rw [unborn]
    exact .nil

theorem Shut.initial (t : TcpServer ε) : Shut (State.initial t) :=
  ⟨fun _ _ => ⟨by simp [State.initial], rfl⟩, by simp [State.initial], fun _ => List.Pairwise.nil,
    by simp [State.initial]⟩

/-- What holds of the connections between two events. -/
theorem State.Runs.accounted {trace : List (State × Event)} (run : State.Runs t trace s) :
    Base t s ∧ Wired t s ∧ Accounted t s ∧ Shut s := by
  refine Run.invariant run (fun _ s => Base t s ∧ Wired t s ∧ Accounted t s ∧ Shut s)
    (fun _ _ => True) ⟨.initial t, .initial t, .initial t, .initial t⟩ ?_ fun _ _ => trivial
  rintro trace s e s' ⟨base, wired, accounted, shut⟩ - taken
  obtain ⟨base', wired'⟩ := Wired.acts base wired (step_acts base wired taken)
  refine ⟨base', wired', ?_⟩
  cases step_play base wired taken with
  | calm acts => exact ⟨accounted.calms base wired acts, shut.calms base wired acts⟩
  | timer live =>
    obtain ⟨attached, fired⟩ := accounted.timer_eq live
    rw [fired]
    refine ⟨accounted.timeout wired attached, shut.follows
      (.put ((Tidy.close _ _ _).after rfl rfl rfl rfl) ?_ View.close_frame.2)⟩
    rw [View.onTimeout, View.queue_close]
    rfl
  | closeAll head => exact shut.closeAll accounted base wired head

/-! ## Closed connections -/

/-- Nothing happens on the connection, except that a task posted earlier finds it closed. -/
structure Frozen (c : Nat) (s s' : State) : Prop where
  conn : s'.conns c = { s.conns c with peer.scheduled := (s'.conns c).peer.scheduled }
  scheduled : (s'.conns c).peer.scheduled = true → (s.conns c).peer.scheduled = true
  pumps : ∀ i, (s'.ios i).loop.tasks.count (.pump c) ≤ (s.ios i).loop.tasks.count (.pump c)

namespace Frozen

theorem refl (c : Nat) (s : State) : Frozen c s s := ⟨rfl, id, fun _ => le_rfl⟩

theorem trans {s'' : State} (f : Frozen c s s') (g : Frozen c s' s'') : Frozen c s s'' where
  conn := by rw [g.conn, f.conn]
  scheduled flag := f.scheduled (g.scheduled flag)
  pumps i := (g.pumps i).trans (f.pumps i)

theorem closed (f : Frozen c s s') : (s'.conns c).peer.closed = (s.conns c).peer.closed := by
  rw [f.conn]

/-- The connection is not touched. -/
theorem of_tasks (conn : s'.conns c = s.conns c)
    (pumps : ∀ i, (s'.ios i).loop.tasks.count (.pump c) ≤ (s.ios i).loop.tasks.count (.pump c)) :
    Frozen c s s' :=
  ⟨by rw [conn], fun flag => conn ▸ flag, pumps⟩

theorem setIo {io : Io}
    (tasks : io.loop.tasks.count (.pump c) ≤ (s.ios i).loop.tasks.count (.pump c)) :
    Frozen c s (s.setIo i io) := by
  refine of_tasks rfl fun j => ?_
  simp only [State.setIo, Function.update_apply]
  split_ifs with same
  · rw [same]
    exact tasks
  · exact le_rfl

theorem setTasks {task : Task} {rest : List Task} (head : (s.ios i).loop.tasks = task :: rest) :
    Frozen c s (s.setTasks i rest) :=
  .setIo (by rw [head]; exact List.count_le_count_cons)

theorem post {task : Task} (other : task ≠ .pump c) : Frozen c s (s.post i task) :=
  .setIo (by simp [Reactor.post, List.count_append, other])

/-- Another connection moves. -/
theorem put (other : c ≠ d)
    (tasks : w.io.loop.tasks = (s.ios (t.home d)).loop.tasks ∨
      w.io.loop.tasks = (s.ios (t.home d)).loop.tasks ++ [.pump d]) : Frozen c s (s.put t d w) := by
  refine of_tasks (by rw [State.conns_put, if_neg other]) fun i => ?_
  rw [State.ios_put]
  split_ifs with home
  · rw [home]
    obtain same | more := tasks
    · rw [same]
    · simp [more, List.count_append, other.symm]
  · exact le_rfl

theorem ne_of_open (gone : (s.conns c).peer.closed = true)
    (alive : (s.conns d).peer.closed = false) : c ≠ d := by
  rintro rfl
  rw [gone] at alive
  cases alive

theorem act (gone : (s.conns c).peer.closed = true) (wired : Wired t s) (act : Act t s s') :
    Frozen c s s' := by
  cases act with
  | move _ alive m => exact .put (ne_of_open gone alive) (Tidy.move m).tasks
  | @attach i d rest head =>
    obtain ⟨unattached, -, -⟩ := wired.tasks i (.attach d) (by simp [head])
    have fresh : (s.conns d).peer.closed = false := by rw [(wired.unborn d unattached).1]
    exact (setTasks head).trans (.put (ne_of_open gone fresh) (.inl rfl))
  | @resume i d rest head =>
    refine (setTasks head).trans ?_
    by_cases same : c = d
    · -- the flag of the closed connection is cleared, and that is all
      subst same
      refine ⟨?_, ?_, fun j => ?_⟩
      · simp [State.on, State.conns_put, View.unschedule]
      · simp [State.on, State.conns_put, View.unschedule]
      · rw [State.on, State.ios_put]
        split_ifs with home
        · rw [home]
          rfl
        · exact le_rfl
    · exact .put same (.inl rfl)
  | drop head _ => exact .setTasks head
  | refuse head _ alive _ =>
    refine (setTasks head).trans (.put (ne_of_open gone alive) ?_)
    exact ((Tidy.close _ _ _).after rfl rfl rfl rfl).tasks
  | absorb head _ alive _ =>
    exact (setTasks head).trans (.put (ne_of_open gone alive) (.inl rfl))
  | @expire i id _ _ =>
    have fired : Frozen c s (s.setIo i { s.ios i with loop := (s.ios i).loop.cancel id }) :=
      .setIo le_rfl
    exact ⟨fired.conn, fired.scheduled, fired.pumps⟩
  | accept _ =>
    unfold State.accept
    split
    · exact ⟨rfl, id, fun _ => le_rfl⟩
    · have posted : Frozen c s (s.post (t.home s.stats.accepted) (.attach s.stats.accepted)) :=
        .post (by simp)
      exact ⟨posted.conn, posted.scheduled, posted.pumps⟩
  | complete _ =>
    rename_i job reply queue completed
    have posted : Frozen c s (s.post (t.home job.complete.conn) (.reply job reply)) :=
      .post (by simp)
    exact ⟨posted.conn, posted.scheduled, posted.pumps⟩
  | join _ _ =>
    refine of_tasks rfl fun i => ?_
    dsimp only
    split
    · simp [Reactor.post, List.count_append]
    · exact le_rfl
  | closeAll head => exact .setTasks head
  | stop => exact .setIo le_rfl
  | _ => exact of_tasks rfl fun _ => le_rfl

theorem acts (gone : (s.conns c).peer.closed = true) (base : Base t s) (wired : Wired t s)
    (acts : Acts t s s') : Frozen c s s' := by
  induction acts with
  | refl => exact .refl c s
  | tail before last ih =>
    obtain ⟨-, wired'⟩ := Wired.acts base wired before
    exact ih.trans (act (ih.closed.trans gone) wired' last)

end Frozen

/-! ## The account -/

/-- The entries of a connection in the tables of an I/O thread. -/
def Io.timersOf (io : Io) (c : Nat) : List Nat :=
  (io.loop.timers.filter fun x => x.2 = c).map Prod.fst

def Io.watchesOf (io : Io) (c : Nat) : List Nat :=
  (io.watchers.filter fun x => x.2 = c).map Prod.fst

def Io.peersOf (io : Io) (c : Nat) : List Nat := (io.peers.filter fun x => x.2 = c).map Prod.fst

theorem Registered.entries (h : Registered t s) (i c : Nat) :
    (s.ios i).timersOf c = (s.keyOn t Peer.timer i c).toList ∧
    (s.ios i).watchesOf c = (s.keyOn t Peer.token i c).toList ∧
    (s.ios i).peersOf c = (s.keyOn t Peer.token i c).toList :=
  ⟨(h.timers i).entries c, (h.watchers i).entries c, (h.peers i).entries c⟩

/-- An open connection is on its way to its loop or among the peers there. -/
theorem Accounted.place (h : Accounted t s) (member : c ∈ s.openConns) :
    .attach c ∈ (s.ios (t.home c)).loop.tasks ∨
      ((s.conns c).peer.token, c) ∈ (s.ios (t.home c)).peers := by
  obtain ⟨early, alive⟩ := State.mem_openConns.mp member
  by_cases unattached : (s.conns c).peer.token = 0
  · exact .inl (h.waiting c early unattached)
  · exact .inr (((h.peers _).mem _).mpr (State.keyOn_of_attached ⟨rfl, unattached, alive⟩))

theorem Shut.active_eq_zero (shut : Shut s) (h : Accounted t s)
    (ended : ∀ i < t.options.ioThreads, (s.ios i).loop.stopping = true) : s.stats.active = 0 := by
  rw [h.active, Finset.card_eq_zero, Finset.eq_empty_iff_forall_notMem]
  intro c member
  have home : t.home c < t.options.ioThreads := by
    refine Nat.mod_lt _ (Nat.pos_of_ne_zero fun none => ?_)
    exact t.configured (.inl none)
  obtain ⟨empty, absent⟩ := shut.stopped _ (ended _ home)
  obtain waiting | peer := h.place member
  · exact absent c waiting
  · simp [empty] at peer

/-- **Connections and timers.** In every state of every run `active_` is the number of connections
that are accepted and not closed, within the limit; each of them is posted for attachment or in the
peers of its I/O thread. A connection that is attached and open has one timer and one watch, under
its token, on its own loop; any other has none. A connection has a reason for being closed exactly
if it is, and no event changes a closed connection or posts a task to pump it. When all loops have
stopped, `active_` is zero. -/
theorem connections_accounted {trace : List (State × Event)} (run : State.Runs t trace s) :
    s.stats.active = s.openConns.card ∧ s.stats.active ≤ t.maxConnections ∧
    (∀ c ∈ s.openConns, .attach c ∈ (s.ios (t.home c)).loop.tasks ∨
      ((s.conns c).peer.token, c) ∈ (s.ios (t.home c)).peers) ∧
    (∀ i c, s.Attached t i c →
      (s.ios i).timersOf c = [(s.conns c).peer.timer] ∧
      (s.ios i).watchesOf c = [(s.conns c).peer.token] ∧
      (s.ios i).peersOf c = [(s.conns c).peer.token]) ∧
    (∀ i c, ¬ s.Attached t i c →
      (s.ios i).timersOf c = [] ∧ (s.ios i).watchesOf c = [] ∧ (s.ios i).peersOf c = []) ∧
    (∀ c, (s.conns c).closedBy.isSome = (s.conns c).peer.closed) ∧
    (∀ c e s', (s.conns c).peer.closed = true → State.step t s e = some s' → Frozen c s s') ∧
    ((∀ i < t.options.ioThreads, (s.ios i).loop.stopping = true) → s.stats.active = 0) := by
  obtain ⟨base, wired, accounted, shut⟩ := run.accounted
  refine ⟨accounted.active, accounted.capacity, fun c => accounted.place, ?_, ?_,
    accounted.reasons, ?_, shut.active_eq_zero accounted⟩
  · intro i c attached
    have entries := accounted.entries i c
    rwa [State.keyOn_of_attached attached, State.keyOn_of_attached attached] at entries
  · intro i c detached
    have entries := accounted.entries i c
    rwa [State.keyOn, State.keyOn, if_neg detached, if_neg detached] at entries
  · intro c e s' gone taken
    exact .acts gone base wired (step_acts base wired taken)

/-- A server for one connection at a time. -/
def soleServer : TcpServer Exception where
  maxConnections := 1
  maxFrameBytes := maxFrameSize
  options := { ioThreads := 1, workers := 1 }
  batchHandler := false
  sizer := some kvFrameSize
  maxConnections_pos := Nat.one_pos
  maxFrameBytes_pos := (kvServer false).maxFrameBytes_pos
  maxFrameBytes_le := (kvServer false).maxFrameBytes_le
  configured := by decide

/-- The first connection times out, the second is turned away and the third is open when the
server shuts down. -/
theorem connections_accounted_shutdown :
    ∃ trace s, State.Runs soleServer trace s ∧ s.stats.accepted = 2 ∧ s.stats.rejected = 1 ∧
      (s.conns 0).closedBy = some .timeout ∧ (s.conns 1).closedBy = some .shutdown ∧
      s.stats.active = 0 := by
  have run := Run.replays (State.step soleServer) (State.initial soleServer)
    [.accept, .accept, .task 0 {}, .timer 0 2, .accept, .task 0 {}, .closing, .take 0, .join,
      .task 0 {}] (by decide +kernel)
  have facts := connections_accounted run
  exact ⟨_, _, run, by decide +kernel, by decide +kernel, by decide +kernel, by decide +kernel,
    facts.2.2.2.2.2.2.2 (by decide +kernel)⟩

end KVRPC.Server
