import KVRPC.Server.Orderly

/-!
# No wakeup is lost

`Pump` may stop on a budget, on back-pressure, on a full buffer or on a socket that would
block. Whenever it returns with the connection open, something will call it again: a posted
task, a pending job, or an event it is registered for, and in the last case the input has
nothing left for the handler.
-/
namespace KVRPC.Server

open Library Net Relation

variable {ε : Type} {t : TcpServer ε} {s s' : State} {c d : Nat} {v w : View}

/-- The input holds no complete frame, or without a sizer only what the handler has refused. -/
def Idle (t : TcpServer ε) (conn : Connection) : Prop :=
  conn.peer.input.contents = [] ∨
    match t.sizer with
    | some sizer => ∃ n, sizer conn.peer.input.contents = .ok n ∧
        (n = 0 ∨ conn.peer.input.contents.length < n)
    | none => conn.peer.incomplete = true ∧ conn.refused = some conn.peer.input.contents

/-- What will call `Pump` for an open connection. -/
inductive Wakes (t : TcpServer ε) (c : Nat) (conn : Connection) (io : Io) : Prop
  | scheduled (flag : conn.peer.scheduled = true) (task : .pump c ∈ io.loop.tasks)
  | pending (jobs : 0 < conn.peer.pending)
  | writing (output : conn.peer.output ≠ []) {interest : Interest}
      (watch : io.loop.watch conn.peer.token = some (c, interest)) (set : interest.output = true)
  | reading {interest : Interest}
      (watch : io.loop.watch conn.peer.token = some (c, interest)) (set : interest.input = true)
      (begun : conn.peer.eof = false) (idle : Idle t conn)

/-- An open connection as `Pump` leaves it. -/
structure Awake (t : TcpServer ε) (c : Nat) (conn : Connection) (io : Io) : Prop where
  wakes : Wakes t c conn io
  unanswered : conn.peer.eof = true → 0 < conn.peer.pending ∨ conn.peer.output ≠ []

namespace View

/-- Why the frame loop may stop before its count is used up. -/
def Stopped (t : TcpServer ε) (v : View) : Prop :=
  ¬ v.Offers t ∨
    ∃ size, v.frameSize t = some size ∧ (size = 0 ∨ size > v.conn.peer.input.size)

theorem Stopped.congr (h : v.Stopped t) (conn : w.conn = v.conn) : w.Stopped t := by
  obtain blocked | ⟨size, cut, partly⟩ := h
  · refine .inl fun offers => blocked ⟨?_, ?_, ?_⟩
    · simpa [conn] using offers.nonempty
    · simpa [conn] using offers.fresh
    · simpa [ready, conn] using offers.ready
  · refine .inr ⟨size, ?_, by rwa [conn]⟩
    simpa [frameSize, conn] using cut

theorem frameLoop_stopped (more : Nat)
    (alive : (frameLoop t c more v).2.conn.peer.closed = false) :
    32 ≤ (frameLoop t c more v).1 ∨ (frameLoop t c more v).2.Stopped t := by
  induction more generalizing v with
  | zero =>
    left
    unfold frameLoop
    dsimp only
    split <;> simp
  | succ more ih =>
    by_cases offers : v.Offers t
    · rw [frameLoop_succ more offers] at alive ⊢
      cases valid : v.frameSize t with
      | none => simp [valid] at alive
      | some size =>
        simp only [valid] at alive ⊢
        split_ifs at alive ⊢ with partly full
        · exact .inr (.inr ⟨size, valid, partly⟩)
        · simp [reject] at alive
        · exact ih alive
    · have stops : ¬ (v.conn.peer.input.size ≠ 0 ∧ v.conn.peer.incomplete = false ∧
          v.ready t = true) := fun h => offers ⟨h.1, h.2.1, h.2.2⟩
      rw [frameLoop, if_neg stops]
      exact .inr (.inl offers)

@[simp] theorem closed_schedule : (v.schedule c).conn.peer.closed = v.conn.peer.closed := by
  unfold schedule
  split <;> rfl

theorem scheduled_schedule (alive : v.conn.peer.closed = false) :
    (v.schedule c).conn.peer.scheduled = true := by
  unfold schedule
  split
  case isTrue already => simpa [alive] using already
  case isFalse => rfl

theorem framePhase_stopped (alive : (v.framePhase t c).conn.peer.closed = false) :
    (v.framePhase t c).conn.peer.scheduled = true ∨
      t.limit ≤ (v.framePhase t c).conn.peer.pending ∨ (v.framePhase t c).Stopped t := by
  unfold framePhase at alive ⊢
  dsimp only at alive ⊢
  split_ifs at alive ⊢ with capped
  · exact .inl (scheduled_schedule (by simpa using alive))
  · obtain many | stopped := frameLoop_stopped 32 alive
    · exact .inr (.inl (not_lt.mp fun room => capped ⟨many, room⟩))
    · exact .inr (.inr stopped)

theorem andThen_alive {f : View → View} (alive : (v.andThen f).conn.peer.closed = false) :
    v.conn.peer.closed = false ∧ v.andThen f = f v := by
  unfold andThen at alive ⊢
  split_ifs at alive ⊢ with closed
  · simp [closed] at alive
  · exact ⟨by simpa using closed, rfl⟩

/-- An open connection when `Pump` returns. -/
structure Rests (t : TcpServer ε) (v : View) : Prop where
  stopped : v.conn.peer.scheduled = true ∨ t.limit ≤ v.conn.peer.pending ∨ v.Stopped t
  unanswered : ¬ (v.conn.peer.eof = true ∧ v.conn.peer.pending = 0 ∧ v.conn.peer.output = [])
  interest : ∀ {watch}, v.io.loop.watch v.conn.peer.token = some watch →
    watch.2 = ⟨!v.conn.peer.eof && v.ready t, v.conn.peer.output ≠ []⟩

theorem finishPhase_rests (stopped : v.conn.peer.scheduled = true ∨
      t.limit ≤ v.conn.peer.pending ∨ v.Stopped t)
    (alive : (v.finishPhase t).conn.peer.closed = false) : (v.finishPhase t).Rests t := by
  unfold finishPhase at alive ⊢
  dsimp only at alive ⊢
  split_ifs at alive ⊢ with done
  · simp at alive
  · refine ⟨stopped.imp id (.imp id fun h => h.congr rfl), done, fun {watch} found => ?_⟩
    -- only the watch has changed
    change (Reactor.modify _ v.conn.peer.token _).watch v.conn.peer.token = _ at found
    rw [Reactor.watch_modify, if_pos rfl] at found
    obtain ⟨old, -, rfl⟩ := Option.map_eq_some_iff.mp found
    rfl

theorem pump_rests {socket : Socket} (alive : (v.pump t c socket).conn.peer.closed = false) :
    (v.pump t c socket).Rests t := by
  unfold pump at alive ⊢
  obtain ⟨-, sends⟩ := andThen_alive alive
  rw [sends] at alive ⊢
  obtain ⟨-, receives⟩ := andThen_alive alive
  rw [receives] at alive ⊢
  obtain ⟨-, frames⟩ := andThen_alive alive
  rw [frames] at alive ⊢
  obtain ⟨framed, finishes⟩ := andThen_alive alive
  rw [finishes] at alive ⊢
  exact finishPhase_rests (framePhase_stopped framed) alive

/-- A stopped frame loop has nothing left for the handler, unless back-pressure stopped it. -/
theorem Stopped.idle (stopped : v.Stopped t) (ready : v.ready t = true)
    (valid : v.conn.peer.input.Valid)
    (refused : v.conn.peer.incomplete = true →
      t.sizer = none ∧ v.conn.refused = some v.conn.peer.input.contents) : Idle t v.conn := by
  by_cases empty : v.conn.peer.input.contents = []
  · exact .inl empty
  · have size := Buffer.size_eq valid
    have nonempty : v.conn.peer.input.size ≠ 0 := by
      rw [size]
      exact List.length_eq_zero_iff.not.mpr empty
    right
    cases incomplete : v.conn.peer.incomplete with
    | true =>
      obtain ⟨none, all⟩ := refused incomplete
      rw [none]
      exact ⟨rfl, all⟩
    | false =>
      obtain blocked | ⟨n, cut, partly⟩ := stopped
      · exact absurd ⟨nonempty, incomplete, ready⟩ blocked
      · cases installed : t.sizer with
        | none =>
          simp only [frameSize, installed, Option.filter_eq_some_iff, Option.some.injEq] at cut
          omega
        | some sizer =>
          refine ⟨n, ?_, size ▸ partly⟩
          simp only [frameSize, installed, Option.filter_eq_some_iff] at cut
          cases result : sizer v.conn.peer.input.contents with
          | error e => simp [result, Except.toOption] at cut
          | ok m => simpa [result, Except.toOption] using cut.1

end View

/-- The flag of an open connection says that its task is in the queue of its loop. -/
def Scheduled (t : TcpServer ε) (s : State) : Prop :=
  ∀ c, (s.conns c).peer.closed = false → (s.conns c).peer.scheduled = true →
    .pump c ∈ (s.ios (t.home c)).loop.tasks

namespace Scheduled

theorem move (m : View.Move t c v w) (posted : v.conn.peer.scheduled = true →
      .pump c ∈ v.io.loop.tasks) (flag : w.conn.peer.scheduled = true) :
    .pump c ∈ w.io.loop.tasks := by
  have kept : v.conn.peer.scheduled = true → .pump c ∈ w.io.loop.tasks := by
    intro flag
    exact (Tidy.move m).task_mem (posted flag)
  cases m with
  | wrote _ _ _ =>
    apply kept
    unfold View.wrote at flag
    split at flag <;> exact flag
  | scheduled =>
    unfold View.schedule at flag kept ⊢
    split_ifs at flag kept ⊢
    · exact kept flag
    · simp [Reactor.post]
  | rejected _ _ =>
    apply kept
    unfold View.reject View.close at flag
    split at flag <;> exact flag
  | closed _ =>
    apply kept
    unfold View.close at flag
    split at flag <;> exact flag
  | _ => exact kept flag

/-- Tasks are posted and other tasks are run. -/
theorem of_tasks (h : Scheduled t s) (conns : s'.conns = s.conns)
    (tasks : ∀ i c, .pump c ∈ (s.ios i).loop.tasks → .pump c ∈ (s'.ios i).loop.tasks) :
    Scheduled t s' := by
  intro c alive flag
  rw [conns] at alive flag
  exact tasks _ c (h c alive flag)

theorem setTasks (h : Scheduled t s) {i : Nat} {task : Task} {rest : List Task}
    (head : (s.ios i).loop.tasks = task :: rest) (other : ∀ c, task ≠ .pump c) :
    Scheduled t (s.setTasks i rest) := by
  refine h.of_tasks rfl fun j c mem => ?_
  simp only [State.setTasks, State.setIo, Function.update_apply]
  split_ifs with same
  · subst same
    rw [head] at mem
    exact (List.mem_cons.mp mem).resolve_left (other c).symm
  · exact mem

theorem put (h : Scheduled t s)
    (tasks : ∀ task ∈ (s.ios (t.home c)).loop.tasks, task ∈ w.io.loop.tasks)
    (own : w.conn.peer.closed = false → w.conn.peer.scheduled = true → .pump c ∈ w.io.loop.tasks) :
    Scheduled t (s.put t c w) := by
  intro d alive flag
  rw [State.conns_put] at alive flag
  simp only [State.put, Function.update_apply]
  by_cases same : d = c
  · subst same
    rw [if_pos rfl] at alive flag ⊢
    exact own alive flag
  · rw [if_neg same] at alive flag
    have posted := h d alive flag
    split_ifs with home
    · exact tasks _ (home ▸ posted)
    · exact posted

theorem act (h : Scheduled t s) (act : Act t s s') : Scheduled t s' := by
  cases act with
  | @move c w _ alive m =>
    exact h.put (fun task mem => (Tidy.move m).task_mem mem) fun _ flag =>
      move m (h c alive) flag
  | @attach i c rest head =>
    have popped := h.setTasks head (by simp)
    exact popped.put (fun task mem => mem) (popped c)
  | @resume i c rest head =>
    -- the flag goes with the task
    intro d alive flag
    rw [State.on, State.conns_put] at alive flag
    split_ifs at alive flag with same
    · simp [View.unschedule] at flag
    · have mem := h d alive flag
      simp only [State.on, State.put, State.setTasks, State.setIo, State.view, View.unschedule,
        Function.update_apply]
      split_ifs with one two two
      all_goals simp_all
  | @refuse i job reply rest head _ alive _ =>
    have popped := h.setTasks head (by simp)
    refine popped.put (fun task mem => ?_) fun alive => by simp at alive
    have closes := (Tidy.close job.complete.conn
      ((s.setTasks i rest).view t job.complete.conn).retract .reply)
    exact closes.task_mem mem
  | @absorb i job reply rest head _ alive _ =>
    have popped := h.setTasks head (by simp)
    exact popped.put (fun task mem => mem) (popped job.complete.conn)
  | drop head _ => exact h.setTasks head (by simp)
  | closeAll head => exact h.setTasks head (by simp)
  | @expire i id _ _ =>
    refine h.of_tasks rfl fun j c mem => ?_
    simp only [State.setIo, Function.update_apply]
    split_ifs with same
    · exact same ▸ mem
    · exact mem
  | accept _ =>
    unfold State.accept
    split
    · exact h
    · refine h.of_tasks rfl fun j c mem => ?_
      simp only [State.post, State.setIo, Function.update_apply]
      split_ifs with same
      · exact List.mem_append_left _ (same ▸ mem)
      · exact mem
  | complete _ =>
    refine h.of_tasks rfl fun j c mem => ?_
    simp only [State.post, State.setIo, Function.update_apply]
    split_ifs with same
    · exact List.mem_append_left _ (same ▸ mem)
    · exact mem
  | join _ _ =>
    refine h.of_tasks rfl fun j c mem => ?_
    dsimp only
    split
    · exact List.mem_append_left _ mem
    · exact mem
  | @stop i =>
    refine h.of_tasks rfl fun j c mem => ?_
    simp only [State.setIo, Function.update_apply]
    split_ifs with same
    · exact same ▸ mem
    · exact mem
  | _ => exact h

end Scheduled

/-- Moves leave the watches of other connections alone and take no task away. -/
theorem View.Moves.others (h : View.Moves t c v w) :
    (∀ token, token ≠ v.conn.peer.token → w.io.loop.watch token = v.io.loop.watch token) ∧
      ∀ task ∈ v.io.loop.tasks, task ∈ w.io.loop.tasks := by
  induction h with
  | refl => exact ⟨fun _ _ => rfl, fun _ mem => mem⟩
  | @tail u w before last ih =>
    have tidy := Tidy.move last.2
    refine ⟨fun token other => ?_, fun task mem => tidy.task_mem (ih.2 task mem)⟩
    exact (tidy.others token (by rwa [View.Moves.token before])).trans (ih.1 token other)

/-- Nothing that connection `d` waits for has changed. -/
structure Kept (t : TcpServer ε) (d : Nat) (s s' : State) : Prop where
  conn : s'.conns d = s.conns d
  watch : (s'.ios (t.home d)).loop.watch (s.conns d).peer.token =
    (s.ios (t.home d)).loop.watch (s.conns d).peer.token
  tasks : .pump d ∈ (s.ios (t.home d)).loop.tasks → .pump d ∈ (s'.ios (t.home d)).loop.tasks

namespace Kept

theorem refl (t : TcpServer ε) (d : Nat) (s : State) : Kept t d s s := ⟨rfl, rfl, id⟩

theorem trans {s'' : State} (h : Kept t d s s') (h' : Kept t d s' s'') : Kept t d s s'' where
  conn := h'.conn.trans h.conn
  watch := (h.conn ▸ h'.watch).trans h.watch
  tasks mem := h'.tasks (h.tasks mem)

theorem of_loops (conns : s'.conns = s.conns)
    (watches : ∀ i, (s'.ios i).loop.watches = (s.ios i).loop.watches)
    (tasks : ∀ i, ∀ task ∈ (s.ios i).loop.tasks, task = .pump d → task ∈ (s'.ios i).loop.tasks) :
    Kept t d s s' where
  conn := by rw [conns]
  watch := by rw [Reactor.watch, watches, Reactor.watch]
  tasks mem := tasks _ _ mem rfl

theorem setIo {i : Nat} {io : Io} (watches : io.loop.watches = (s.ios i).loop.watches)
    (tasks : ∀ task ∈ (s.ios i).loop.tasks, task = .pump d → task ∈ io.loop.tasks) :
    Kept t d s (s.setIo i io) := by
  refine of_loops rfl (fun j => ?_) fun j task mem same => ?_
  all_goals
    simp only [State.setIo, Function.update_apply]
    split_ifs with here
  · rw [here]
    exact watches
  · rfl
  · exact tasks task (here ▸ mem) same
  · exact mem

theorem setTasks {i : Nat} {task : Task} {rest : List Task}
    (head : (s.ios i).loop.tasks = task :: rest) (other : task ≠ .pump d) :
    Kept t d s (s.setTasks i rest) := by
  refine setIo rfl fun task' mem same => ?_
  subst same
  rw [head] at mem
  exact (List.mem_cons.mp mem).resolve_left other.symm

theorem post {u : State} (conns : u.conns = s.conns) (ios : u.ios = s.ios) (i : Nat)
    (task : Task) : Kept t d s (u.post i task) := by
  have same : Kept t d s u := ⟨by rw [conns], by rw [ios], by simp [ios]⟩
  exact same.trans (setIo rfl fun _ mem _ => List.mem_append_left _ mem)

/-- A function runs for another connection. -/
theorem put (wired : Wired t s) (different : d ≠ c) (attached : (s.conns c).peer.token ≠ 0)
    (alive : (s.conns c).peer.closed = false ∨ w.io.loop.watches = (s.ios (t.home c)).loop.watches)
    (attached' : (s.conns d).peer.token ≠ 0) (alive' : (s.conns d).peer.closed = false)
    (others : ∀ token, token ≠ (s.conns c).peer.token →
      w.io.loop.watch token = (s.ios (t.home c)).loop.watch token)
    (tasks : ∀ task ∈ (s.ios (t.home c)).loop.tasks, task ∈ w.io.loop.tasks) :
    Kept t d s (s.put t c w) := by
  refine ⟨by rw [State.conns_put, if_neg different], ?_, ?_⟩
  all_goals
    simp only [State.put, Function.update_apply]
    split_ifs with home
  · rw [home]
    obtain alive | same := alive
    · exact others _ (wired.token_ne attached alive attached' alive' home different)
    · rw [Reactor.watch, same, Reactor.watch]
  · rfl
  · rw [home]
    exact tasks _
  · exact id

end Kept

/-- A sequence of moves of another connection. -/
theorem Kept.moves (wired : Wired t s) (different : d ≠ c)
    (attached : (s.conns c).peer.token ≠ 0) (attached' : (s.conns d).peer.token ≠ 0)
    (alive' : (s.conns d).peer.closed = false) (f : View → View)
    (moves : View.Moves t c (s.view t c) (f (s.view t c))) : Kept t d s (s.on t c f) := by
  obtain ⟨others, tasks⟩ := View.Moves.others moves
  cases alive : (s.conns c).peer.closed with
  | false => exact put wired different attached (.inl alive) attached' alive' others tasks
  | true =>
    -- a closed connection does not move
    have same : f (s.view t c) = s.view t c := by
      obtain same | ⟨_, first, _⟩ := ReflTransGen.cases_head moves
      · exact same.symm
      · simp [alive] at first
    rw [State.on, same, State.put_view]
    exact refl t d s

theorem Awake.kept (h : Awake t d (s.conns d) (s.ios (t.home d))) (kept : Kept t d s s') :
    Awake t d (s'.conns d) (s'.ios (t.home d)) := by
  rw [kept.conn]
  refine ⟨?_, h.unanswered⟩
  cases h.wakes with
  | scheduled flag task => exact .scheduled flag (kept.tasks task)
  | pending jobs => exact .pending jobs
  | writing output watch set => exact .writing output (kept.watch.trans watch) set
  | reading watch set begun idle => exact .reading (kept.watch.trans watch) set begun idle

/-- An open connection is awake where `Pump` returns. -/
theorem View.Rests.awake (h : w.Rests t) (room : 2 ≤ t.options.outputBytes)
    (orderly : Orderly t w.conn) (valid : w.conn.peer.input.Valid)
    (posted : w.conn.peer.scheduled = true → .pump c ∈ w.io.loop.tasks)
    (watched : ∃ interest, w.io.loop.watch w.conn.peer.token = some (c, interest)) :
    Awake t c w.conn w.io := by
  have unanswered : w.conn.peer.eof = true →
      0 < w.conn.peer.pending ∨ w.conn.peer.output ≠ [] := by
    intro ended
    by_contra nothing
    rw [not_or, not_not] at nothing
    exact h.unanswered ⟨ended, by omega, nothing.2⟩
  refine ⟨?_, unanswered⟩
  obtain ⟨interest, watch⟩ := watched
  have set : interest = ⟨!w.conn.peer.eof && w.ready t, w.conn.peer.output ≠ []⟩ :=
    h.interest watch
  by_cases pending : 0 < w.conn.peer.pending
  · exact .pending pending
  by_cases output : w.conn.peer.output = []
  · -- nothing is pending or unsent, so back-pressure is off
    have empty := orderly.outbox.outputBytes_eq_zero output
    have limit := t.limit_pos
    have ready : w.ready t = true := View.ready_iff.mpr (by omega)
    have begun : w.conn.peer.eof = false := by
      by_contra ended
      exact h.unanswered ⟨by simpa using ended, by omega, output⟩
    obtain flag | full | stopped := h.stopped
    · exact .scheduled flag (posted flag)
    · omega
    · exact .reading watch (by simp [set, begun, ready]) begun
        (stopped.idle ready valid orderly.incomplete)
  · exact .writing output watch (by simp [set, output])

/-- Every open connection is awake. -/
def AllAwake (t : TcpServer ε) (s : State) : Prop :=
  ∀ c, (s.conns c).peer.token ≠ 0 → (s.conns c).peer.closed = false →
    Awake t c (s.conns c) (s.ios (t.home c))

/-- What holds of the server between two acts. -/
structure Sound (t : TcpServer ε) (s : State) : Prop where
  base : Base t s
  wired : Wired t s
  served : AllServed t s
  orderly : ∀ c, Orderly t (s.conns c)
  scheduled : Scheduled t s

theorem Sound.acts (sound : Sound t s) (acts : Acts t s s') : Sound t s' := by
  induction acts with
  | refl => exact sound
  | tail _ act ih =>
    exact ⟨ih.base.act act, ih.wired.act ih.base act, ih.served.act ih.base act,
      Orderly.act ih.orderly ih.base ih.served act, ih.scheduled.act act⟩

namespace AllAwake

theorem kept (h : AllAwake t s)
    (same : ∀ d, (s'.conns d).peer.token ≠ 0 → (s'.conns d).peer.closed = false → Kept t d s s') :
    AllAwake t s' := by
  intro d attached alive
  have kept := same d attached alive
  rw [kept.conn] at attached alive
  exact (h d attached alive).kept kept

/-- One connection moves; it is for that connection to stay awake. -/
theorem on (wired : Wired t s)
    (others : ∀ d, d ≠ c → (s.conns d).peer.token ≠ 0 → (s.conns d).peer.closed = false →
      Awake t d (s.conns d) (s.ios (t.home d)))
    (attached : (s.conns c).peer.token ≠ 0) (f : View → View)
    (moves : View.Moves t c (s.view t c) (f (s.view t c)))
    (own : (f (s.view t c)).conn.peer.closed = false →
      Awake t c (f (s.view t c)).conn (f (s.view t c)).io) : AllAwake t (s.on t c f) := by
  intro d attached' alive'
  by_cases same : d = c
  · subst same
    simp only [State.on, State.put, Function.update_self] at alive' ⊢
    exact own alive'
  · rw [State.on, State.conns_put, if_neg same] at attached' alive'
    exact (others d same attached' alive').kept
      (.moves wired same attached attached' alive' f moves)

theorem close (h : AllAwake t s) (wired : Wired t s) (attached : (s.conns c).peer.token ≠ 0)
    {reason : CloseReason} (may : (s.view t c).MayClose t reason) :
    AllAwake t (s.on t c fun v => v.close reason) :=
  on wired (fun d _ => h d) attached _ (close_moves may) fun alive => by simp at alive

theorem closeAll (h : AllAwake t s) (base : Base t s) (wired : Wired t s) {i : Nat}
    (attached : ∀ c ∈ (s.ios i).peers.map Prod.snd, (s.conns c).peer.token ≠ 0) :
    AllAwake t (s.closeAll t i) := by
  unfold State.closeAll
  dsimp only
  suffices closed : AllAwake t (((s.ios i).peers.map Prod.snd).foldl
      (fun s c => s.on t c fun v => v.close .shutdown) s) by
    exact closed.kept fun d _ _ => .setIo rfl fun _ mem _ => mem
  generalize (s.ios i).peers.map Prod.snd = peers at attached
  induction peers generalizing s with
  | nil => exact h
  | cons c peers ih =>
    have may : (s.view t c).MayClose t .shutdown := trivial
    have here := attached c (by simp)
    obtain ⟨base', wired'⟩ := Wired.acts base wired
      (on_acts here (fun v => v.close .shutdown) (close_moves may))
    refine ih (h.close wired here may) base' wired' fun d mem => ?_
    rw [token_on_close]
    exact attached d (by simp [mem])

theorem pump (room : 2 ≤ t.options.outputBytes) (wired : Wired t s)
    (others : ∀ d, d ≠ c → (s.conns d).peer.token ≠ 0 → (s.conns d).peer.closed = false →
      Awake t d (s.conns d) (s.ios (t.home d)))
    (attached : (s.conns c).peer.token ≠ 0) {socket : Socket}
    (sound : Sound t (s.on t c fun v => v.pump t c socket)) :
    AllAwake t (s.on t c fun v => v.pump t c socket) := by
  refine on wired others attached _ (View.pump_moves _ _) fun alive => ?_
  have conn : (s.on t c fun v => v.pump t c socket).conns c =
      ((s.view t c).pump t c socket).conn := by simp [State.on, State.put]
  have io : (s.on t c fun v => v.pump t c socket).ios (t.home c) =
      ((s.view t c).pump t c socket).io := by simp [State.on, State.put]
  have token : ((s.view t c).pump t c socket).conn.peer.token ≠ 0 := by
    rw [View.Moves.token (View.pump_moves socket (s.view t c))]
    exact attached
  have orderly := sound.orderly c
  have valid := (sound.served c).valid
  have scheduled := sound.scheduled c
  have watched := sound.wired.watched c
  rw [conn] at orderly valid
  rw [conn, io] at scheduled watched
  exact (View.pump_rests alive).awake room orderly valid (scheduled alive) (watched token alive)

/-- A new connection waits for input. -/
theorem attach (h : AllAwake t s) (wired : Wired t s) {i : Nat} {rest : List Task}
    (head : (s.ios i).loop.tasks = .attach c :: rest) :
    AllAwake t ((s.setTasks i rest).on t c (View.attach c)) := by
  obtain ⟨unattached, rfl, -⟩ := wired.tasks i (.attach c) (by simp [head])
  have popped := wired.setTasks head
  obtain ⟨-, below⟩ := popped.ids (t.home c)
  have watch : ∀ token,
      (View.attach c ((s.setTasks (t.home c) rest).view t c)).io.loop.watch token =
        if token = ((s.setTasks (t.home c) rest).ios (t.home c)).loop.next then
          some (c, ⟨true, false⟩)
        else ((s.setTasks (t.home c) rest).ios (t.home c)).loop.watch token :=
    fun token => Reactor.watch_add below _
  intro d attached alive
  by_cases same : d = c
  · subst same
    simp only [State.on, State.put, Function.update_self] at alive ⊢
    have fresh : (s.setTasks (t.home d) rest).conns d = {} := (wired.unborn d unattached).1
    refine ⟨.reading ((watch _).trans (if_pos rfl)) rfl ?_ (.inl ?_), ?_⟩
    all_goals simp [View.attach, View.deadline, fresh, Buffer.contents]
  · rw [State.on, State.conns_put, if_neg same] at attached alive
    refine ((h d attached alive).kept (.setTasks head (by simp))).kept
      ⟨by rw [State.on, State.conns_put, if_neg same], ?_, ?_⟩
    all_goals
      simp only [State.on, State.put, Function.update_apply]
      split_ifs with home
    · rw [home, watch]
      -- the new token is larger than all before
      obtain ⟨_, found⟩ := popped.watched d attached alive
      rw [home] at found
      exact if_neg (below _ (Reactor.mem_of_watch found)).ne
    · rfl
    · rw [home]
      exact id
    · exact id

theorem step (room : 2 ≤ t.options.outputBytes) (h : AllAwake t s) (base : Base t s)
    (wired : Wired t s) (sound : Sound t s') {e : Event} (taken : State.step t s e = some s') :
    AllAwake t s' := by
  cases e with
  | accept =>
    simp only [State.step] at taken
    split at taken
    · cases taken
    · cases taken
      unfold State.accept
      split
      · exact h
      · refine h.kept fun d _ _ => .post ?_ ?_ _ _ <;> rfl
  | task i socket =>
    simp only [State.step] at taken
    split at taken
    · cases taken
    · rename_i task rest head
      cases taken
      cases task with
      | attach c => exact h.attach wired head
      | pump c =>
        have attached : (s.conns c).peer.token ≠ 0 := wired.tasks i (.pump c) (by simp [head])
        have wired' := wired.act base (.resume head)
        have split : (s.setTasks i rest).runTask t i socket (.pump c) =
            ((s.setTasks i rest).on t c View.unschedule).on t c fun v => v.pump t c socket := by
          rw [State.on_on]
          rfl
        rw [split] at sound ⊢
        refine pump room wired' (fun d other attached' alive' => ?_) ?_ sound
        · rw [State.on, State.conns_put, if_neg other] at attached' alive'
          have popped : Kept t d s (s.setTasks i rest) := .setTasks head (by simpa using other.symm)
          exact (h d attached' alive').kept (popped.trans
            (.put (wired.setTasks head) other attached (.inr rfl) attached' alive'
              (fun _ _ => rfl) fun _ mem => mem))
        · rw [State.on, State.conns_put, if_pos rfl]
          exact attached
      | reply job reply =>
        have attached := reply_attached base wired head
        have popped := wired.setTasks head
        have awake : AllAwake t (s.setTasks i rest) := h.kept fun d _ _ => .setTasks head (by simp)
        obtain ⟨-, ignored⟩ | ⟨alive, bad, refused⟩ | ⟨alive, good, absorbed⟩ :=
          complete_cases t (s.setTasks i rest) job reply socket
        · rw [State.runTask, ignored]
          exact awake
        · rw [State.runTask, refused]
          refine fun d attached' alive' => ?_
          rw [State.on, State.conns_put] at attached' alive'
          split_ifs at attached' alive' with same
          · simp at alive'
          · have closes := Tidy.close job.complete.conn
              ((s.setTasks i rest).view t job.complete.conn).retract .reply
            exact (awake d attached' alive').kept (.put popped same attached (.inl alive) attached'
              alive' closes.others fun _ mem => closes.task_mem mem)
        · rw [State.runTask, absorbed] at sound ⊢
          refine pump room (wired.act base (.absorb head attached alive good))
            (fun d other attached' alive' => ?_) ?_ sound
          · rw [State.on, State.conns_put, if_neg other] at attached' alive'
            exact (awake d attached' alive').kept (.put popped other attached (.inr rfl) attached'
              alive' (fun _ _ => rfl) fun _ mem => mem)
          · rw [State.on, State.conns_put, if_pos rfl]
            exact attached
      | closeAll =>
        have awake : AllAwake t (s.setTasks i rest) := h.kept fun d _ _ => .setTasks head (by simp)
        refine awake.closeAll (base.setTasks head) (wired.setTasks head) fun c mem => ?_
        obtain ⟨x, mem', rfl⟩ := List.mem_map.mp mem
        apply wired.peers i x
        simpa [State.setTasks, State.setIo] using mem'
  | ready i token error socket =>
    simp only [State.step] at taken
    split at taken
    · cases taken
    · rename_i watch found
      cases taken
      have attached := wired.watches i _ (Reactor.mem_of_watch found)
      cases error with
      | true =>
        have may : (s.view t watch.1).MayClose t .socketError := trivial
        exact h.close wired attached may
      | false => exact pump room wired (fun d _ => h d) attached sound
  | timer i id =>
    simp only [State.step] at taken
    split at taken
    · cases taken
    · rename_i c live
      cases taken
      have attached : (s.conns c).peer.token ≠ 0 := by
        obtain ⟨before, after, split, -⟩ := List.lookup_eq_some_iff.mp live
        exact wired.timers i (id, c) (by simp [split])
      have fired := wired.act base (.expire live)
      have awake : AllAwake t (s.setIo i { s.ios i with loop := (s.ios i).loop.cancel id }) :=
        h.kept fun d _ _ => .setIo rfl fun _ mem _ => mem
      have may : ∀ v : View, v.MayClose t .timeout := fun _ => trivial
      exact close (s := { s.setIo i { s.ios i with loop := (s.ios i).loop.cancel id } with
        stats.timeouts := s.stats.timeouts + 1 }) awake fired attached (may _)
  | take worker =>
    obtain ⟨queue, -, rfl⟩ := Option.map_eq_some_iff.mp taken
    exact h
  | handle worker h' =>
    obtain ⟨queue, -, rfl⟩ := Option.map_eq_some_iff.mp taken
    exact h
  | complete worker =>
    simp only [State.step] at taken
    split at taken
    · cases taken
    · cases taken
      refine h.kept fun d _ _ => .post ?_ ?_ _ _ <;> rfl
  | closing =>
    cases taken
    exact h
  | join =>
    simp only [State.step] at taken
    split at taken
    · cases taken
      refine h.kept fun d _ _ => .of_loops rfl (fun i => ?_) fun i task mem _ => ?_
      all_goals
        dsimp only
        split_ifs
      · rfl
      · rfl
      · exact List.mem_append_left _ mem
      · exact mem
    · cases taken

end AllAwake

/-- **No wakeup is lost.** In every state of every run, so each time `Pump` has returned, an
attached connection that is open has a posted task, a pending job, unsent output with
`EPOLLOUT` set, or `EPOLLIN` set with the stream not at its end and nothing in the input for
the handler. Its pending jobs are those on their way through the queue. A half-closed
connection is open only while something is pending or unsent, and `Pump` closes it only when
nothing is. -/
theorem no_lost_wakeup (t : TcpServer ε) (room : 2 ≤ t.options.outputBytes)
    {trace : List (State × Event)} (run : State.Runs t trace s) (c : Nat)
    (attached : (s.conns c).peer.token ≠ 0) :
    ((s.conns c).peer.closed = false →
      Wakes t c (s.conns c) (s.ios (t.home c)) ∧
      (s.conns c).peer.pending = (s.flights t c).length ∧
      ((s.conns c).peer.eof = true →
        0 < (s.conns c).peer.pending ∨ (s.conns c).peer.output ≠ [])) ∧
    ((s.conns c).closedBy = some .endOfStream →
      (s.conns c).peer.eof = true ∧ (s.conns c).peer.pending = 0 ∧
      (s.conns c).peer.output = []) := by
  have reached : Sound t s ∧ AllAwake t s := by
    refine Run.invariant run (fun _ s => Sound t s ∧ AllAwake t s) (fun _ _ => True) ?_ ?_
      fun _ _ => trivial
    · refine ⟨⟨.initial t, .initial t, .initial t, fun _ => .initial, ?_⟩, ?_⟩
      · intro c _ flag
        simp [State.initial] at flag
      · intro c attached
        simp [State.initial] at attached
    · rintro trace s e s' ⟨sound, awake⟩ - taken
      have after := sound.acts (step_acts sound.base sound.wired taken)
      exact ⟨after, awake.step room sound.base sound.wired after taken⟩
  obtain ⟨sound, awake⟩ := reached
  refine ⟨fun alive => ?_, (sound.orderly c).ended⟩
  have own := awake c attached alive
  exact ⟨own.wakes, (sound.served c).count alive, own.unanswered⟩

/-- A request has been answered in full, and the first octet of the next one waits for more. -/
theorem no_lost_wakeup_idle :
    ∃ trace s, State.Runs (kvServer true) trace s ∧ (s.conns 0).peer.token ≠ 0 ∧
      (s.conns 0).peer.closed = false ∧ (s.conns 0).delivered = [7] ∧
      (s.conns 0).peer.input.contents = [0xca] ∧
      Wakes (kvServer true) 0 (s.conns 0) (s.ios ((kvServer true).home 0)) := by
  have run := Run.of_replay (State.step (kvServer true)) (State.initial (kvServer true))
    [.accept, .task 0 {}, .ready 0 1 false { receives :=
      [.data [0xca, 0xfe, 1, 2, 0, 0, 0, 1, 0, 0, 0, 0, 65, 0xca]] },
      .take 0, .handle 0 (.batch [⟨13, [7], false⟩]), .complete 0, .task 0 { sends := [.wrote 1] }]
    rfl
  exact ⟨_, _, run, by decide, rfl, rfl, rfl,
    ((no_lost_wakeup (kvServer true) (by decide) run 0 (by decide)).1 rfl).1⟩

end KVRPC.Server
