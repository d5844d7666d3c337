import KVRPC.Server.Wiring

/-!
# What the server can do

Every event of a run is a sequence of acts (`step_acts`): moves of single connections and
the changes around them. Invariants of the whole server are proved against acts. Two events are
more than the acts they consist of: a timer that fires closes its connection, and a loop stops
when all its peers are closed (`step_play`).
-/
namespace KVRPC.Server

open Library Net Relation

variable {ε : Type} {t : TcpServer ε} {s s' : State} {c : Nat} {v w : View}

inductive Act (t : TcpServer ε) (s : State) : State → Prop
  | move {c : Nat} {w : View} (attached : (s.conns c).peer.token ≠ 0)
      (alive : (s.conns c).peer.closed = false) (m : View.Move t c (s.view t c) w) :
      Act t s (s.put t c w)
  | attach {i c : Nat} {rest : List Task} (head : (s.ios i).loop.tasks = .attach c :: rest) :
      Act t s ((s.setTasks i rest).on t c (View.attach c))
  | resume {i c : Nat} {rest : List Task} (head : (s.ios i).loop.tasks = .pump c :: rest) :
      Act t s ((s.setTasks i rest).on t c View.unschedule)
  /-- The peer of the completed job is closed. -/
  | drop {i : Nat} {job : Job Completion} {reply : Reply} {rest : List Task}
      (head : (s.ios i).loop.tasks = .reply job reply :: rest)
      (gone : (s.conns job.complete.conn).peer.closed = true) : Act t s (s.setTasks i rest)
  | refuse {i : Nat} {job : Job Completion} {reply : Reply} {rest : List Task}
      (head : (s.ios i).loop.tasks = .reply job reply :: rest)
      (attached : (s.conns job.complete.conn).peer.token ≠ 0)
      (alive : (s.conns job.complete.conn).peer.closed = false)
      (bad : (s.view t job.complete.conn).retract.Unacceptable t job.complete reply) :
      Act t s ((s.setTasks i rest).on t job.complete.conn fun v => v.retract.close .reply)
  | absorb {i : Nat} {job : Job Completion} {reply : Reply} {rest : List Task}
      (head : (s.ios i).loop.tasks = .reply job reply :: rest)
      (attached : (s.conns job.complete.conn).peer.token ≠ 0)
      (alive : (s.conns job.complete.conn).peer.closed = false)
      (good : ¬ (s.view t job.complete.conn).retract.Unacceptable t job.complete reply) :
      Act t s ((s.setTasks i rest).on t job.complete.conn fun v => v.retract.absorb job reply)
  | expire {i id c : Nat} (live : (s.ios i).loop.timers.lookup id = some c) :
      Act t s { s.setIo i { s.ios i with loop := (s.ios i).loop.cancel id } with
        stats.timeouts := s.stats.timeouts + 1 }
  | accept (running : s.queue.closing = false) : Act t s (s.accept t)
  | take {worker : Nat} {queue : JobQueue Completion}
      (taken : s.queue.take t worker = some queue) : Act t s { s with queue := queue }
  | handle {worker : Nat} {h : Handled} {queue : JobQueue Completion}
      (called : s.queue.handle t worker h = some queue) :
      Act t s { s with
        queue := queue
        handled := s.handled ++ (queue.workers[worker]?.map Worker.computed).getD [] }
  | complete {worker : Nat} {job : Job Completion} {reply : Reply} {queue : JobQueue Completion}
      (completed : s.queue.complete worker = some (job, reply, queue)) :
      Act t s (({ s with queue := queue } : State).post (t.home job.complete.conn)
        (.reply job reply))
  | closing : Act t s { s with queue := s.queue.close }
  | join (first : s.joined = false) (exited : ∀ worker ∈ s.queue.workers, worker = .exited) :
      Act t s { s with
        joined := true
        ios := fun i =>
          if i < t.options.ioThreads then { s.ios i with loop := (s.ios i).loop.post .closeAll }
          else s.ios i }
  /-- The task that closes all peers is taken off its queue. -/
  | closeAll {i : Nat} {rest : List Task} (head : (s.ios i).loop.tasks = .closeAll :: rest) :
      Act t s (s.setTasks i rest)
  | stop {i : Nat} : Act t s (s.setIo i { s.ios i with loop := (s.ios i).loop.stop })

abbrev Acts (t : TcpServer ε) : State → State → Prop := ReflTransGen (Act t)

theorem View.Moves.token (h : View.Moves t c v w) : w.conn.peer.token = v.conn.peer.token := by
  induction h with
  | refl => rfl
  | tail _ last ih => exact (Tidy.move last.2).token.trans ih

/-- An act during which no timer fires and no loop is told to stop. -/
structure Calm (t : TcpServer ε) (s s' : State) : Prop where
  act : Act t s s'
  timeouts : s'.stats.timeouts = s.stats.timeouts
  stopping : ∀ i, (s'.ios i).loop.stopping = (s.ios i).loop.stopping

abbrev Calms (t : TcpServer ε) : State → State → Prop := ReflTransGen (Calm t)

theorem Calms.acts (h : Calms t s s') : Acts t s s' :=
  ReflTransGen.mono (fun _ _ calm => calm.act) _ _ h

theorem View.close_frame {reason : CloseReason} :
    (v.close reason).stats.timeouts = v.stats.timeouts ∧
      (v.close reason).io.loop.stopping = v.io.loop.stopping := by
  unfold View.close
  split <;> exact ⟨rfl, rfl⟩

theorem View.Move.frame (m : View.Move t c v w) :
    w.stats.timeouts = v.stats.timeouts ∧ w.io.loop.stopping = v.io.loop.stopping := by
  cases m with
  | wrote _ _ _ =>
    unfold View.wrote
    split <;> exact ⟨rfl, rfl⟩
  | rejected _ _ => exact View.close_frame
  | closed _ => exact View.close_frame
  | scheduled =>
    unfold View.schedule
    split <;> exact ⟨rfl, rfl⟩
  | _ => exact ⟨rfl, rfl⟩

theorem State.stopping_put (same : w.io.loop.stopping = (s.ios (t.home c)).loop.stopping)
    (i : Nat) : ((s.put t c w).ios i).loop.stopping = (s.ios i).loop.stopping := by
  simp only [State.put, Function.update_apply]
  split_ifs with home
  · rw [home, same]
  · rfl

theorem State.stopping_setTasks (i : Nat) (tasks : List Task) (j : Nat) :
    ((s.setTasks i tasks).ios j).loop.stopping = (s.ios j).loop.stopping := by
  simp only [State.setTasks, State.setIo, Function.update_apply]
  split_ifs with same
  · rw [same]
  · rfl

theorem State.stopping_post (i : Nat) (task : Task) (j : Nat) :
    ((s.post i task).ios j).loop.stopping = (s.ios j).loop.stopping := by
  simp only [State.post, State.setIo, Function.update_apply]
  split_ifs with same
  · rw [same]
    rfl
  · rfl

/-- A task has been taken off a queue and one connection changes. -/
theorem Calm.of_task {i : Nat} {rest : List Task} (f : View → View)
    (act : Act t s ((s.setTasks i rest).on t c f))
    (timeouts : (f ((s.setTasks i rest).view t c)).stats.timeouts = s.stats.timeouts)
    (stopping : (f ((s.setTasks i rest).view t c)).io.loop.stopping =
      ((s.setTasks i rest).ios (t.home c)).loop.stopping) :
    Calm t s ((s.setTasks i rest).on t c f) :=
  ⟨act, timeouts, fun j => (State.stopping_put stopping j).trans (State.stopping_setTasks i rest j)⟩

theorem View.Moves.calm (attached : v.conn.peer.token ≠ 0) (h : View.Moves t c v w) :
    Calms t (s.put t c v) (s.put t c w) := by
  induction h with
  | refl => exact .refl
  | @tail u w before last ih =>
    have calm : Calm t (s.put t c u) ((s.put t c u).put t c w) := by
      refine ⟨.move ?_ ?_ ?_, last.2.frame.1, State.stopping_put ?_⟩
      · simpa [State.conns_put, View.Moves.token before] using attached
      · simpa [State.conns_put] using last.1
      · simpa using last.2
      · simpa [State.put] using last.2.frame.2
    rw [State.put_put] at calm
    exact ih.tail calm

theorem on_calm (attached : (s.conns c).peer.token ≠ 0) (f : View → View)
    (h : View.Moves t c (s.view t c) (f (s.view t c))) : Calms t s (s.on t c f) := by
  simpa [State.on] using h.calm (s := s) attached

theorem on_acts (attached : (s.conns c).peer.token ≠ 0) (f : View → View)
    (h : View.Moves t c (s.view t c) (f (s.view t c))) : Acts t s (s.on t c f) :=
  (on_calm attached f h).acts

theorem close_moves {reason : CloseReason} (may : v.MayClose t reason) :
    View.Moves t c v (v.close reason) := by
  cases alive : v.conn.peer.closed with
  | false => exact (View.Move.closed may).moves alive
  | true =>
    rw [View.close, if_pos alive]

theorem token_on_close (reason : CloseReason) (d : Nat) :
    ((s.on t c fun v => v.close reason).conns d).peer.token = (s.conns d).peer.token := by
  rw [State.on, State.conns_put]
  split_ifs with same
  · rw [same]
    exact (Tidy.close c (s.view t c) reason).token
  · rfl

/-- The loop in the task that `Run` posts at the end. -/
theorem closePeers_calm {peers : List Nat} (attached : ∀ c ∈ peers, (s.conns c).peer.token ≠ 0) :
    Calms t s (peers.foldl (fun s c => s.on t c fun v => v.close .shutdown) s) := by
  induction peers generalizing s with
  | nil => exact .refl
  | cons c peers ih =>
    have may : (s.view t c).MayClose t .shutdown := trivial
    refine (on_calm (attached c (by simp)) _ (close_moves may)).trans (ih ?_)
    intro d mem
    rw [token_on_close]
    exact attached d (by simp [mem])

theorem closeAll_acts {i : Nat}
    (attached : ∀ c ∈ (s.ios i).peers.map Prod.snd, (s.conns c).peer.token ≠ 0) :
    Acts t s (s.closeAll t i) :=
  (closePeers_calm attached).acts.tail .stop

/-- A completion finds the peer closed, closes it or hands the reply over and calls `Pump`. -/
theorem complete_cases (t : TcpServer ε) (s : State) (job : Job Completion) (reply : Reply)
    (socket : Socket) :
    ((s.conns job.complete.conn).peer.closed = true ∧
      s.on t job.complete.conn (View.complete t job.complete.conn job reply socket) = s) ∨
    ((s.conns job.complete.conn).peer.closed = false ∧
      (s.view t job.complete.conn).retract.Unacceptable t job.complete reply ∧
      s.on t job.complete.conn (View.complete t job.complete.conn job reply socket) =
        s.on t job.complete.conn fun v => v.retract.close .reply) ∨
    ((s.conns job.complete.conn).peer.closed = false ∧
      ¬ (s.view t job.complete.conn).retract.Unacceptable t job.complete reply ∧
      s.on t job.complete.conn (View.complete t job.complete.conn job reply socket) =
        (s.on t job.complete.conn fun v => v.retract.absorb job reply).on t job.complete.conn
          fun v => v.pump t job.complete.conn socket) := by
  cases alive : (s.conns job.complete.conn).peer.closed with
  | true =>
    refine .inl ⟨rfl, ?_⟩
    rw [State.on, View.complete, View.andThen, State.view_conn, if_pos alive, State.put_view]
  | false =>
    have runs : View.complete t job.complete.conn job reply socket (s.view t job.complete.conn) =
        if (s.view t job.complete.conn).retract.Unacceptable t job.complete reply then
          (s.view t job.complete.conn).retract.close .reply
        else ((s.view t job.complete.conn).retract.absorb job reply).pump t job.complete.conn
          socket := by
      rw [View.complete, View.andThen, if_neg (by simp [alive])]
    by_cases bad : (s.view t job.complete.conn).retract.Unacceptable t job.complete reply
    · exact .inr (.inl ⟨rfl, bad, State.on_congr (runs.trans (if_pos bad))⟩)
    · refine .inr (.inr ⟨rfl, bad, ?_⟩)
      rw [State.on_on]
      exact State.on_congr (runs.trans (if_neg bad))

/-- The peer of a job that is on its way has been attached. -/
theorem reply_attached (base : Base t s) (wired : Wired t s) {i : Nat} {job : Job Completion}
    {reply : Reply} {rest : List Task} (head : (s.ios i).loop.tasks = .reply job reply :: rest) :
    (s.conns job.complete.conn).peer.token ≠ 0 := by
  intro unattached
  have home := base.homed i (job, reply) (by simp [Io.replies, head])
  have popped := State.flights_pop head home job.complete.conn
  simp [(wired.unborn _ unattached).2] at popped

theorem complete_calm (base : Base t s) (wired : Wired t s) {i : Nat} {job : Job Completion}
    {reply : Reply} {rest : List Task} (head : (s.ios i).loop.tasks = .reply job reply :: rest)
    (socket : Socket) :
    Calms t s ((s.setTasks i rest).on t job.complete.conn
      (View.complete t job.complete.conn job reply socket)) := by
  have attached := reply_attached base wired head
  obtain ⟨gone, ignored⟩ | ⟨alive, bad, refused⟩ | ⟨alive, good, absorbed⟩ :=
    complete_cases t (s.setTasks i rest) job reply socket
  · rw [ignored]
    exact .single ⟨.drop head gone, rfl, State.stopping_setTasks i rest⟩
  · rw [refused]
    exact .single (.of_task _ (.refuse head attached alive bad) View.close_frame.1
      View.close_frame.2)
  · rw [absorbed]
    refine .head (.of_task _ (.absorb head attached alive good) rfl rfl)
      (on_calm ?_ _ (View.pump_moves _ _))
    rw [State.on, State.conns_put, if_pos rfl]
    exact attached

/-- What an event comes to. -/
inductive Play (t : TcpServer ε) (s : State) : State → Prop
  | calm {s' : State} (acts : Calms t s s') : Play t s s'
  | timer {i id c : Nat} (live : (s.ios i).loop.timers.lookup id = some c) :
      Play t s ((s.setIo i { s.ios i with loop := (s.ios i).loop.cancel id }).on t c View.onTimeout)
  | closeAll {i : Nat} {rest : List Task} (head : (s.ios i).loop.tasks = .closeAll :: rest) :
      Play t s ((s.setTasks i rest).closeAll t i)

theorem step_play (base : Base t s) (wired : Wired t s) {e : Event}
    (h : State.step t s e = some s') : Play t s s' := by
  cases e with
  | accept =>
    simp only [State.step] at h
    split at h
    · cases h
    · rename_i running
      cases h
      refine .calm (.single ⟨.accept (Bool.eq_false_iff.mpr running), ?_, ?_⟩)
      all_goals unfold State.accept
      · split <;> rfl
      · split
        · exact fun _ => rfl
        · exact State.stopping_post _ _
  | task i socket =>
    simp only [State.step] at h
    split at h
    · cases h
    · rename_i task rest head
      cases h
      cases task with
      | attach c => exact .calm (.single (.of_task _ (.attach head) rfl rfl))
      | pump c =>
        have attached : (s.conns c).peer.token ≠ 0 := wired.tasks i (.pump c) (by simp [head])
        have resumed : Calms t s (((s.setTasks i rest).on t c View.unschedule).on t c
            fun v => v.pump t c socket) := by
          refine .head (.of_task _ (.resume head) rfl rfl) (on_calm ?_ _ (View.pump_moves _ _))
          rw [State.on, State.conns_put, if_pos rfl]
          exact attached
        rw [State.on_on] at resumed
        exact .calm resumed
      | reply job reply => exact .calm (complete_calm base wired head socket)
      | closeAll => exact .closeAll head
  | ready i token error socket =>
    simp only [State.step] at h
    split at h
    · cases h
    · rename_i watch found
      cases h
      refine .calm (on_calm (wired.watches i _ (Reactor.mem_of_watch found)) _ ?_)
      unfold View.onReady
      split
      · have may : (s.view t watch.1).MayClose t .socketError := trivial
        exact close_moves may
      · exact View.pump_moves _ _
  | timer i id =>
    simp only [State.step] at h
    split at h
    · cases h
    · rename_i c live
      cases h
      exact .timer live
  | take worker =>
    obtain ⟨queue, taken, rfl⟩ := Option.map_eq_some_iff.mp h
    exact .calm (.single ⟨.take taken, rfl, fun _ => rfl⟩)
  | handle worker h' =>
    obtain ⟨queue, called, rfl⟩ := Option.map_eq_some_iff.mp h
    exact .calm (.single ⟨.handle called, rfl, fun _ => rfl⟩)
  | complete worker =>
    simp only [State.step] at h
    split at h
    · cases h
    · rename_i job reply queue completed
      cases h
      exact .calm (.single ⟨.complete completed, rfl, State.stopping_post _ _⟩)
  | closing =>
    cases h
    exact .calm (.single ⟨.closing, rfl, fun _ => rfl⟩)
  | join =>
    simp only [State.step] at h
    split at h
    · rename_i last
      cases h
      refine .calm (.single ⟨.join last.1 last.2, rfl, fun i => ?_⟩)
      dsimp only
      split <;> rfl
    · cases h

/-- **Every event is a sequence of acts.** -/
theorem step_acts (base : Base t s) (wired : Wired t s) {e : Event}
    (h : State.step t s e = some s') : Acts t s s' := by
  cases step_play base wired h with
  | calm acts => exact acts.acts
  | @timer i id c live =>
    refine .head (.expire live) ?_
    have attached : (s.conns c).peer.token ≠ 0 := by
      obtain ⟨before, after, split, -⟩ := List.lookup_eq_some_iff.mp live
      exact wired.timers i (id, c) (by simp [split])
    have may : ∀ v : View, v.MayClose t .timeout := fun _ => trivial
    refine on_acts ?_ (fun v => v.close .timeout) (close_moves (may _))
    exact attached
  | @closeAll i rest head =>
    refine .head (.closeAll head) (closeAll_acts fun c mem => ?_)
    obtain ⟨x, mem', rfl⟩ := List.mem_map.mp mem
    apply wired.peers i x
    simpa [State.setTasks, State.setIo] using mem'

end KVRPC.Server
