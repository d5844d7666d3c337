import KVRPC.Library.Fairness
import KVRPC.Server.Settled

/-!
# Nothing waits for ever

The threads of the server are the workers, the I/O threads with their tasks and the thread in
`Run`. In an execution in which each of them goes on as long as it can:

1. every job is handled and its completion runs on its I/O thread (`requests_completed`);
2. once `Run` has set `closing` all jobs are completed, the workers end, every loop stops and no
   connection stays open, whatever the peers do (`shutdown_completes`).
-/
namespace KVRPC.Server

open Library Net
open scoped List

variable {ε κ : Type} {t : TcpServer ε} {s s' : State} {e : Event} {i w n : Nat}

theorem TcpServer.home_lt (t : TcpServer ε) (c : Nat) : t.home c < t.options.ioThreads := by
  refine Nat.mod_lt _ (Nat.pos_of_ne_zero fun none => ?_)
  exact t.configured (.inl none)

/-! ## Threads -/

/-- The steps of a worker. -/
def ofWorker (w : Nat) (_ : State) (e : Event) : Prop :=
  e = .take w ∨ (∃ h, e = .handle w h) ∨ e = .complete w

/-- The end of the joins in `Run`. -/
def joining (_ : State) (e : Event) : Prop := e = .join

/-- A loop takes a task, as long as it is not told to stop. -/
def ofLoop (i : Nat) (s : State) (e : Event) : Prop :=
  (s.ios i).loop.stopping = false ∧ ∃ socket, e = .task i socket

theorem JobQueue.take_isSome {q : JobQueue κ} (here : q.workers[w]? = some .waiting)
    (due : q.closing = true ∨ q.jobs ≠ []) : (q.take t w).isSome := by
  simp only [JobQueue.take, here, if_pos due]
  split <;> rfl

/-- The handler may throw. -/
theorem JobQueue.handle_isSome {q : JobQueue κ} {batch : List (Job κ)}
    (here : q.workers[w]? = some (.running batch)) : (q.handle t w .threw).isSome := by
  simp [JobQueue.handle, here, Handled.replies, Handled.Fits]

theorem worker_can {worker : Worker Completion} (busy : s.queue.Busy)
    (here : s.queue.workers[w]? = some worker) (alive : worker ≠ .exited)
    (due : worker = .waiting → s.queue.closing = true ∨ s.queue.jobs ≠ []) :
    CanStep (State.step t) (ofWorker w) s := by
  cases worker with
  | waiting =>
    refine .of_isSome (.inl rfl) ?_
    simpa [State.step] using JobQueue.take_isSome (t := t) here (due rfl)
  | running batch =>
    refine .of_isSome (.inr (.inl ⟨.threw, rfl⟩)) ?_
    simpa [State.step] using JobQueue.handle_isSome (t := t) here
  | replying rest =>
    refine .of_isSome (.inr (.inr rfl)) ?_
    cases rest with
    | nil => exact absurd rfl (busy _ (List.mem_of_getElem? here)).2
    | cons pair rest => simp [State.step, JobQueue.complete, here]
  | exited => exact absurd rfl alive

theorem loop_can {task : Task} {rest : List Task} (running : (s.ios i).loop.stopping = false)
    (head : (s.ios i).loop.tasks = task :: rest) : CanStep (State.step t) (ofLoop i) s := by
  refine .of_isSome (a := .task i {}) ⟨running, {}, rfl⟩ ?_
  simp [State.step, head]

theorem run_can (early : s.joined = false)
    (exited : ∀ worker ∈ s.queue.workers, worker = .exited) :
    CanStep (State.step t) joining s := by
  refine .of_isSome (a := .join) rfl ?_
  rw [State.step, if_pos ⟨early, exited⟩]
  rfl

/-- What a step of a worker does to the server. -/
structure Worked (t : TcpServer ε) (s : State) (w : Nat) (s' : State) : Prop where
  step : JobQueue.WorkerStep s.queue w s'.queue
  accepted : s'.queue.accepted = s.queue.accepted
  closing : s'.queue.closing = s.queue.closing
  posted : ∃ new, s'.queue.completed = s.queue.completed ++ new ∧ ∀ p ∈ new,
    .reply p.1 p.2 ∈ (s'.ios (t.home p.1.complete.conn)).loop.tasks

theorem Effect.queue (base : Base t s) (busy : s.queue.Busy) (effect : Effect t s e s') :
    s.queue.Grew s'.queue ∧ (∀ w, ¬ ofWorker w s e) ∨
      ∃ w, Worked t s w s' ∧ ∀ w', ofWorker w' s e → w' = w := by
  cases effect with
  | accept _ queue => exact .inl ⟨queue ▸ .refl _, by simp [ofWorker]⟩
  | ready gentle | timer gentle | task _ _ gentle | closeAll _ gentle =>
    exact .inl ⟨gentle.queue, by simp [ofWorker]⟩
  | @take w _ taken =>
    obtain ⟨step, accepted, completed⟩ := JobQueue.WorkerStep.of_take base.queue taken
    refine .inr ⟨w, ⟨step, accepted, JobQueue.take_closing taken, [], ?_⟩, by simp [ofWorker]⟩
    simpa using completed
  | @handle w _ _ _ called =>
    obtain ⟨step, accepted, completed⟩ := JobQueue.WorkerStep.of_handle base.queue busy called
    refine .inr ⟨w, ⟨step, accepted, JobQueue.handle_closing called, [], ?_⟩, by simp [ofWorker]⟩
    simpa using completed
  | @complete w job reply queue done =>
    obtain ⟨step, accepted, completed⟩ := JobQueue.WorkerStep.of_complete done
    refine .inr ⟨w, ⟨step, accepted, JobQueue.complete_closing done, [(job, reply)], completed, ?_⟩,
      by simp [ofWorker]⟩
    simp [State.post, State.setIo, Reactor.post]
  | closing => exact .inl ⟨.close _, by simp [ofWorker]⟩
  | join => exact .inl ⟨.refl _, by simp [ofWorker]⟩

theorem Gentle.tasks (gentle : Gentle s s') (i : Nat) :
    ∃ new, (s'.ios i).loop.tasks = (s.ios i).loop.tasks ++ new := by
  obtain ⟨new, tasks, -⟩ := gentle.posts.tasks i
  exact ⟨new, tasks⟩

/-- What an event does to a loop. -/
theorem Effect.loop (effect : Effect t s e s') (i : Nat) :
    (∃ socket task rest new, e = .task i socket ∧ (s.ios i).loop.tasks = task :: rest ∧
      (s'.ios i).loop.tasks = rest ++ new ∧
      (task = .closeAll → (s'.ios i).loop.stopping = true)) ∨
    (∀ socket, e ≠ .task i socket) ∧
      ∃ new, (s'.ios i).loop.tasks = (s.ios i).loop.tasks ++ new := by
  cases effect with
  | accept _ _ posts =>
    obtain ⟨new, tasks, -⟩ := posts.tasks i
    exact .inr ⟨by simp, new, tasks⟩
  | ready gentle | timer gentle => exact .inr ⟨by simp, gentle.tasks i⟩
  | @task j socket task rest _ head other gentle =>
    obtain ⟨new, tasks⟩ := gentle.tasks i
    rw [State.tasks_setTasks] at tasks
    split_ifs at tasks with same
    · subst same
      exact .inl ⟨socket, task, rest, new, rfl, head, tasks, fun last => absurd last other⟩
    · exact .inr ⟨by simp [Ne.symm same], new, tasks⟩
  | @closeAll j socket rest s₁ head gentle =>
    obtain ⟨new, tasks⟩ := gentle.tasks i
    rw [State.tasks_setTasks] at tasks
    split_ifs at tasks with same
    · subst same
      refine .inl ⟨socket, .closeAll, rest, new, rfl, head, ?_, fun _ => ?_⟩
      · rw [State.tasks_stopLoop, tasks]
      · rw [State.stopping_stopLoop, if_pos rfl]
    · exact .inr ⟨by simp [Ne.symm same], new, by rw [State.tasks_stopLoop, tasks]⟩
  | take | handle | closing => exact .inr ⟨by simp, [], by simp⟩
  | complete =>
    obtain ⟨new, tasks, -⟩ := (Posts.post (P := fun _ => True) _ trivial).tasks i
    exact .inr ⟨by simp, new, tasks⟩
  | join =>
    refine .inr ⟨by simp, if i < t.options.ioThreads then [.closeAll] else [], ?_⟩
    dsimp only
    split_ifs <;> simp [Reactor.post]

theorem Effect.joined (effect : Effect t s e s') (joins : joining s e) : s'.joined = true := by
  cases joins
  cases effect
  rfl

theorem Effect.stopping (effect : Effect t s e s') (ended : (s.ios i).loop.stopping = true) :
    (s'.ios i).loop.stopping = true := by
  cases effect with
  | accept _ _ posts => rw [posts.stopping, ended]
  | ready gentle | timer gentle => rw [gentle.posts.stopping, ended]
  | task _ _ gentle => rw [gentle.posts.stopping, State.stopping_setTasks, ended]
  | closeAll _ gentle =>
    rw [State.stopping_stopLoop, gentle.posts.stopping, State.stopping_setTasks, ended, ite_self]
  | take | handle | closing => exact ended
  | complete => rw [State.stopping_post, ended]
  | join =>
    dsimp only
    split_ifs <;> exact ended

/-! ## Executions of the server -/

namespace Progress

variable (x : Execution (State.step t)) (first : x.state 0 = State.initial t)
include first

theorem between (n : Nat) : Between t (x.state n) := by
  suffices ∃ trace, State.Runs t trace (x.state n) by
    obtain ⟨trace, run⟩ := this
    exact run.between
  induction n with
  | zero => exact ⟨[], first ▸ .nil⟩
  | succ n ih =>
    obtain ⟨trace, run⟩ := ih
    exact ⟨_, run.snoc (fun _ _ => not_false) (x.taken n)⟩

theorem queue_step (m : Nat) :
    (x.state m).queue.Grew (x.state (m + 1)).queue ∧
      (∀ w, ¬ ofWorker w (x.state m) (x.event m)) ∨
    ∃ w, Worked t (x.state m) w (x.state (m + 1)) ∧
      ∀ w', ofWorker w' (x.state m) (x.event m) → w' = w := by
  have between := between x first m
  exact (step_effect (x.taken m)).queue between.base between.settled.busy

/-- The queue is not left with a job. -/
theorem job_taken (fair : x.Fair (ofWorker 0)) {job : Job Completion}
    (queued : job ∈ (x.state n).queue.jobs) :
    ∃ m ≥ n, ∃ (w : Nat) (worker : Worker Completion),
      (x.state m).queue.workers[w]? = some worker ∧ job ∈ worker.hand := by
  refine x.eventually (fun _ : Unit => ofWorker 0) (fun _ => fair)
    (fun m => job ∈ (x.state m).queue.jobs) _
    (fun m => 3 * (x.state m).queue.jobs.idxOf job + (x.state m).queue.left) (fun _ _ => True)
    ?_ (fun _ _ => ⟨(), trivial⟩) ?_ queued
  · rintro - m waiting - -
    have between := between x first m
    have present : 0 < (x.state m).queue.workers.length := by
      rw [between.base.queue.threads]
      exact t.threads_pos
    refine worker_can between.settled.busy (List.getElem?_eq_getElem present) ?_ ?_
    · intro ended
      have empty := (between.base.queue.exited (ended ▸ List.getElem_mem present)).2
      simp [empty] at waiting
    · exact fun _ => .inr (List.ne_nil_of_mem waiting)
  · intro m waiting _
    obtain ⟨grew, elsewhere⟩ | ⟨w, worked, -⟩ := queue_step x first m
    · obtain ⟨new, jobs, -⟩ := grew.jobs
      refine .inr ⟨?_, ?_, fun _ _ => .inr ⟨elsewhere 0, trivial⟩⟩
      · rw [jobs]
        exact List.mem_append_left new waiting
      · rw [jobs, List.idxOf_append_of_mem waiting, JobQueue.left, grew.workers, JobQueue.left]
    · cases worked.step with
      | exits _ _ empty => simp [empty] at waiting
      | takes k here pos within workers jobs more =>
        by_cases taken : job ∈ (x.state m).queue.jobs.take k
        · refine .inl ⟨w, .running ((x.state m).queue.jobs.take k), ?_, taken⟩
          rw [workers, List.getElem?_set_self (List.getElem?_eq_some_iff.mp here).1]
        · have split := List.take_append_drop k (x.state m).queue.jobs
          have later : job ∈ (x.state m).queue.jobs.drop k := by
            rw [← split] at waiting
            exact (List.mem_append.mp waiting).resolve_left taken
          have position : (x.state m).queue.jobs.idxOf job =
              k + ((x.state m).queue.jobs.drop k).idxOf job := by
            conv_lhs => rw [← split]
            rw [List.idxOf_append_of_notMem taken, List.length_take_of_le within]
          rw [jobs, more]
          exact .inr ⟨later, by omega, fun _ _ => .inl (by omega)⟩
      | handles _ _ _ _ _ _ jobs less | completes _ _ _ _ _ jobs _ less =>
        rw [jobs]
        exact .inr ⟨waiting, by omega, fun _ _ => .inl (by omega)⟩

/-- A worker does not keep a job. -/
theorem job_completed (fair : x.Fair (ofWorker w)) {job : Job Completion}
    {worker : Worker Completion} (here : (x.state n).queue.workers[w]? = some worker)
    (held : job ∈ worker.hand) :
    ∃ m ≥ n, ∃ reply, (job, reply) ∈ (x.state m).queue.completed ∧
      .reply job reply ∈ ((x.state m).ios (t.home job.complete.conn)).loop.tasks := by
  refine x.eventually (fun _ : Unit => ofWorker w) (fun _ => fair)
    (fun m => ∃ worker : Worker Completion,
      (x.state m).queue.workers[w]? = some worker ∧ job ∈ worker.hand) _
    (fun m => ((x.state m).queue.workers[w]?.map Worker.left).getD 0) (fun _ _ => True)
    ?_ (fun _ _ => ⟨(), trivial⟩) ?_ ⟨worker, here, held⟩
  · rintro - m ⟨worker, here, held⟩ - -
    refine worker_can (between x first m).settled.busy here ?_ ?_ <;>
    · rintro rfl
      simp [Worker.hand] at held
  · rintro m ⟨worker, here, held⟩ -
    obtain ⟨grew, elsewhere⟩ | ⟨w', worked, own⟩ := queue_step x first m
    · rw [grew.workers]
      exact .inr ⟨⟨worker, here, held⟩, le_rfl, fun _ _ => .inr ⟨elsewhere w, trivial⟩⟩
    by_cases same : w' = w
    · subst same
      have present := (List.getElem?_eq_some_iff.mp here).1
      cases worked.step with
      | exits idle | takes _ idle =>
        cases Option.some.inj (here.symm.trans idle)
        simp [Worker.hand] at held
      | handles _ pairs running same some_pair workers =>
        subst same
        cases Option.some.inj (here.symm.trans running)
        have pos := List.length_pos_iff.mpr some_pair
        have less : (Worker.replying pairs).left < (Worker.running (pairs.map Prod.fst)).left := by
          simp only [Worker.left, List.length_map]
          omega
        rw [workers, List.getElem?_set_self present, here]
        exact .inr ⟨⟨_, rfl, held⟩, less.le, fun _ _ => .inl less⟩
      | completes job' reply rest replying workers _ completed =>
        cases Option.some.inj (here.symm.trans replying)
        obtain ⟨new, more, posted⟩ := worked.posted
        rw [completed, List.append_cancel_left_eq] at more
        obtain rfl | later := List.mem_cons.mp held
        · refine .inl ⟨reply, ?_, posted _ (more ▸ List.mem_singleton_self _)⟩
          rw [completed]
          simp
        · have some_left : rest ≠ [] := by
            rintro rfl
            cases later
          rw [if_neg some_left] at workers
          rw [workers, List.getElem?_set_self present, here]
          refine .inr ⟨⟨_, rfl, later⟩, ?_, fun _ _ => .inl ?_⟩ <;> simp [Worker.left]
    · obtain ⟨old, new, -, -, workers, -⟩ := worked.step.moved
      rw [workers, List.getElem?_set_ne same]
      refine .inr ⟨⟨worker, here, held⟩, le_rfl, fun _ _ => .inr ⟨fun mine => ?_, trivial⟩⟩
      exact same (own w mine).symm

omit first in
/-- A loop comes to every task, unless it is told to stop. -/
theorem task_run (fair : x.Fair (ofLoop i)) {task : Task}
    (posted : task ∈ ((x.state n).ios i).loop.tasks) :
    ∃ m ≥ n, task ∈ ((x.state m).ios i).loop.tasks ∧
      (((x.state m).ios i).loop.stopping = true ∨ ∃ socket rest, x.event m = .task i socket ∧
        ((x.state m).ios i).loop.tasks = task :: rest) := by
  refine x.eventually (fun _ : Unit => ofLoop i) (fun _ => fair)
    (fun m => task ∈ ((x.state m).ios i).loop.tasks) _
    (fun m => ((x.state m).ios i).loop.tasks.idxOf task) (fun _ _ => True)
    ?_ (fun _ _ => ⟨(), trivial⟩) ?_ posted
  · rintro - m waiting wait -
    obtain ⟨head, rest, tasks⟩ := List.exists_cons_of_ne_nil (List.ne_nil_of_mem waiting)
    refine loop_can (Bool.eq_false_iff.mpr fun ended => wait ⟨waiting, .inl ended⟩) tasks
  · intro m waiting wait
    refine .inr ?_
    obtain ⟨socket, head, rest, new, event, before, after, -⟩ | ⟨elsewhere, new, after⟩ :=
      (step_effect (x.taken m)).loop i
    · have other : head ≠ task := by
        rintro rfl
        exact wait ⟨waiting, .inr ⟨socket, rest, event, before⟩⟩
      have later : task ∈ rest := by
        rw [before] at waiting
        exact List.mem_of_ne_of_mem other.symm waiting
      have less : (rest ++ new).idxOf task < (head :: rest).idxOf task := by
        rw [List.idxOf_append_of_mem later, List.idxOf_cons_ne _ other]
        exact Nat.lt_succ_self _
      rw [after, before]
      exact ⟨List.mem_append_left new later, less.le, fun _ _ => .inl less⟩
    · rw [after, List.idxOf_append_of_mem waiting]
      refine ⟨List.mem_append_left new waiting, le_rfl, fun _ _ => .inr ⟨?_, trivial⟩⟩
      rintro ⟨-, socket, event⟩
      exact elsewhere socket event

/-- An accepted job has been in the queue. -/
theorem was_queued {job : Job Completion} (accepted : job ∈ (x.state n).queue.accepted) :
    ∃ m, job ∈ (x.state m).queue.jobs := by
  induction n with
  | zero =>
    rw [first] at accepted
    cases accepted
  | succ n ih =>
    obtain ⟨grew, -⟩ | ⟨w, worked, -⟩ := queue_step x first n
    · obtain ⟨new, jobs, all, -⟩ := grew.jobs
      rw [all] at accepted
      obtain old | later := List.mem_append.mp accepted
      · exact ih old
      · exact ⟨n + 1, by simp [jobs, later]⟩
    · exact ih (worked.accepted ▸ accepted)

theorem completed_mono {m : Nat} (le : n ≤ m) {p : Job Completion × Reply}
    (completed : p ∈ (x.state n).queue.completed) : p ∈ (x.state m).queue.completed := by
  induction m, le using Nat.le_induction with
  | base => exact completed
  | succ m _ ih =>
    obtain ⟨grew, -⟩ | ⟨w, worked, -⟩ := queue_step x first m
    · rw [grew.completed]
      exact ih
    · obtain ⟨new, more, -⟩ := worked.posted
      rw [more]
      exact List.mem_append_left new ih

theorem closing_succ (closing : (x.state n).queue.closing = true) :
    (x.state (n + 1)).queue.closing = true := by
  obtain ⟨grew, -⟩ | ⟨w, worked, -⟩ := queue_step x first n
  · exact grew.closing closing
  · rw [worked.closing, closing]

/-- The thread in `Run` is not left waiting for a worker. -/
theorem workers_joined (workers : ∀ w < t.threads, x.Fair (ofWorker w)) (run : x.Fair joining)
    (closing : (x.state n).queue.closing = true) : ∃ m ≥ n, (x.state m).joined = true := by
  -- `none` is the thread in `Run`, which can go on when all workers have ended
  refine x.eventually (fun k : Option (Fin t.threads) => k.elim joining fun w => ofWorker w)
    (fun k => k.rec run fun w => workers w w.isLt)
    (fun m => (x.state m).queue.closing = true) _
    (fun m => 3 * (x.state m).queue.jobs.length + (x.state m).queue.left)
    (fun k m => k.elim (∀ worker ∈ (x.state m).queue.workers, worker = .exited) fun w =>
      ∃ worker, (x.state m).queue.workers[w.val]? = some worker ∧ worker ≠ .exited)
    ?_ ?_ ?_ closing
  · rintro (_ | w) m closing early helps
    · exact run_can (Bool.eq_false_iff.mpr early) helps
    · obtain ⟨worker, here, alive⟩ := helps
      exact worker_can (between x first m).settled.busy here alive fun _ => .inl closing
  · intro m closing early
    by_cases ended : ∀ worker ∈ (x.state m).queue.workers, worker = .exited
    · exact ⟨none, ended⟩
    · push Not at ended
      obtain ⟨worker, mem, alive⟩ := ended
      obtain ⟨w, here⟩ := List.mem_iff_getElem?.mp mem
      have present : w < t.threads := by
        rw [← (between x first m).base.queue.threads]
        exact (List.getElem?_eq_some_iff.mp here).1
      exact ⟨some ⟨w, present⟩, worker, here, alive⟩
  · intro m closing early
    have still := closing_succ x first closing
    obtain ⟨grew, elsewhere⟩ | ⟨w, worked, -⟩ := queue_step x first m
    · by_cases last : (x.state (m + 1)).joined = true
      · exact .inl last
      obtain ⟨new, jobs, -, none_late⟩ := grew.jobs
      rw [none_late closing, List.append_nil] at jobs
      rw [jobs, JobQueue.left, grew.workers, JobQueue.left]
      refine .inr ⟨still, le_rfl, ?_⟩
      rintro (_ | w) helps
      · exact .inr ⟨fun joins => last ((step_effect (x.taken m)).joined joins), helps⟩
      · exact .inr ⟨elsewhere w, helps⟩
    · have less := worked.step.less
      exact .inr ⟨still, less.le, fun _ _ => .inl less⟩

omit first in
theorem stopping_mono {m : Nat} (le : n ≤ m) (ended : ((x.state n).ios i).loop.stopping = true) :
    ((x.state m).ios i).loop.stopping = true := by
  induction m, le using Nat.le_induction with
  | base => exact ended
  | succ m _ ih => exact (step_effect (x.taken m)).stopping ih

theorem loop_stops (fair : x.Fair (ofLoop i)) (own : i < t.options.ioThreads)
    (joined : (x.state n).joined = true) :
    ∃ m ≥ n, ((x.state m).ios i).loop.stopping = true := by
  obtain last | ended := ((between x first n).settled.posted joined).2 i own
  · obtain ⟨m, late, -, ended | ⟨socket, rest, event, tasks⟩⟩ := task_run x fair last
    · exact ⟨m, late, ended⟩
    · refine ⟨m + 1, by omega, ?_⟩
      obtain ⟨_, head, _, _, _, before, _, stops⟩ | ⟨elsewhere, -⟩ :=
        (step_effect (x.taken m)).loop i
      · rw [before] at tasks
        exact stops (List.cons.inj tasks).1
      · exact absurd event (elsewhere socket)
  · exact ⟨n, le_rfl, ended⟩

end Progress

/-- **Requests.** If no worker and no I/O thread stands still for ever while it could go on, and
none of the I/O threads ends by an exception, for which `State.step` has no step, then every job
that is accepted is handled, and its completion is run with the reply by the I/O thread of its
connection, whatever the other threads, the handler and the peers do and also if the server is told
to stop meanwhile. -/
theorem requests_completed (x : Execution (State.step t)) (first : x.state 0 = State.initial t)
    (workers : ∀ w < t.threads, x.Fair (ofWorker w))
    (loops : ∀ i < t.options.ioThreads, x.Fair (ofLoop i)) {job : Job Completion}
    (accepted : job ∈ (x.state n).queue.accepted) :
    ∃ m reply socket rest, (job, reply) ∈ (x.state m).queue.completed ∧
      x.event m = .task (t.home job.complete.conn) socket ∧
      ((x.state m).ios (t.home job.complete.conn)).loop.tasks = .reply job reply :: rest := by
  obtain ⟨n₀, queued⟩ := Progress.was_queued x first accepted
  obtain ⟨n₁, -, w, worker, here, held⟩ :=
    Progress.job_taken x first (workers 0 t.threads_pos) queued
  have present : w < t.threads := by
    rw [← (Progress.between x first n₁).base.queue.threads]
    exact (List.getElem?_eq_some_iff.mp here).1
  obtain ⟨n₂, -, reply, completed, posted⟩ :=
    Progress.job_completed x first (workers w present) here held
  have home : t.home job.complete.conn < t.options.ioThreads := t.home_lt _
  obtain ⟨n₃, late, posted', stopping | ⟨socket, rest, event, tasks⟩⟩ :=
    Progress.task_run x (loops _ home) posted
  · exact absurd posted' ((Progress.between x first n₃).settled.stopped _ stopping job reply)
  · exact ⟨n₃, reply, socket, rest, Progress.completed_mono x first late completed, event, tasks⟩

/-- **Shutdown.** If none of the threads stands still for ever while it could go on, and no I/O
thread ends by an exception, then once `Run` has set `closing` the server comes to a point from
which on the workers are joined, every loop has stopped, no connection is open, and every job that
was ever accepted is completed and its completion has been run. -/
theorem shutdown_completes (x : Execution (State.step t)) (first : x.state 0 = State.initial t)
    (workers : ∀ w < t.threads, x.Fair (ofWorker w)) (run : x.Fair joining)
    (loops : ∀ i < t.options.ioThreads, x.Fair (ofLoop i))
    (closing : (x.state n).queue.closing = true) :
    ∃ m ≥ n, ∀ k ≥ m, (x.state k).joined = true ∧
      (∀ i < t.options.ioThreads, ((x.state k).ios i).loop.stopping = true) ∧
      (x.state k).stats.active = 0 ∧
      (x.state k).queue.completed.map Prod.fst ~ (x.state k).queue.accepted ∧
      ∀ i < t.options.ioThreads, ∀ job reply,
        .reply job reply ∉ ((x.state k).ios i).loop.tasks := by
  obtain ⟨n₁, late, joined⟩ := Progress.workers_joined x first workers run closing
  have stops : ∀ i < t.options.ioThreads, ∀ᶠ k in Filter.atTop,
      ((x.state k).ios i).loop.stopping = true := by
    intro i own
    obtain ⟨m, -, ended⟩ := Progress.loop_stops x first (loops i own) own joined
    exact Filter.eventually_atTop.mpr ⟨m, fun k later => Progress.stopping_mono x later ended⟩
  obtain ⟨m, all⟩ := Filter.eventually_atTop.mp
    ((Filter.eventually_all_finite (Set.finite_lt_nat t.options.ioThreads)).mpr stops)
  refine ⟨max n m, le_max_left n m, fun k later => ?_⟩
  have between := Progress.between x first k
  have ended := all k (le_of_max_le_right later)
  have still : (x.state k).joined = true := by
    refine Bool.of_not_eq_false fun early => ?_
    have running := (between.shut.before early (t.home 0)).2
    cases running.symm.trans (ended _ (t.home_lt 0))
  obtain ⟨-, empty, idle⟩ := between.base.queue.drained (between.settled.posted still).1
  have spread := between.base.queue.places
  rw [idle, empty, List.append_nil, List.append_nil] at spread
  exact ⟨still, ended, between.shut.active_eq_zero between.accounted ended, spread.symm,
    fun i own => between.settled.stopped i (ended i own)⟩

/-! ## An execution -/

theorem worker_stuck (ended : ∀ worker ∈ s.queue.workers, worker = .exited) :
    ¬ CanStep (State.step t) (ofWorker w) s := by
  have gone : ∀ worker, s.queue.workers[w]? = some worker → worker = .exited :=
    fun worker here => ended worker (List.mem_of_getElem? here)
  rintro ⟨e, s', rfl | ⟨h, rfl⟩ | rfl, taken⟩
  · obtain ⟨queue, taken, -⟩ := Option.map_eq_some_iff.mp taken
    unfold JobQueue.take at taken
    split at taken
    case h_1 here => cases gone _ here
    case h_2 => cases taken
  · obtain ⟨queue, taken, -⟩ := Option.map_eq_some_iff.mp taken
    unfold JobQueue.handle at taken
    split at taken
    case h_1 here => cases gone _ here
    case h_2 => cases taken
  · simp only [State.step] at taken
    split at taken
    case h_1 => cases taken
    case h_2 done =>
      obtain ⟨rest, here, -⟩ := JobQueue.complete_cases done
      cases gone _ here

theorem run_stuck (late : s.joined = true) : ¬ CanStep (State.step t) joining s := by
  rintro ⟨e, s', rfl, taken⟩
  simp [State.step, late] at taken

theorem loop_stuck (ended : (s.ios i).loop.stopping = true) :
    ¬ CanStep (State.step t) (ofLoop i) s := by
  rintro ⟨e, s', ⟨running, -⟩, -⟩
  cases running.symm.trans ended

theorem closing_idle (closing : s.queue.closing = true) : State.step t s .closing = some s := by
  simp only [State.step, JobQueue.close, ← closing]

/-- Once the server has stopped, `closing` may be set again and again and no thread has anything
left to do. -/
theorem exists_fair (t : TcpServer ε) (events : List Event) (P : State → Prop)
    (stops : After (State.step t) (State.initial t) events fun s =>
      s.queue.closing = true ∧ (∀ worker ∈ s.queue.workers, worker = .exited) ∧
      s.joined = true ∧ (∀ i < t.options.ioThreads, (s.ios i).loop.stopping = true) ∧ P s) :
    ∃ x : Execution (State.step t), x.state 0 = State.initial t ∧
      (∀ w < t.threads, x.Fair (ofWorker w)) ∧ x.Fair joining ∧
      (∀ i < t.options.ioThreads, x.Fair (ofLoop i)) ∧ P (x.state events.length) := by
  obtain ⟨trace, last, replayed, closing, exited, late, ended, holds⟩ := stops.exists_replay
  obtain ⟨x, first, reached, fair⟩ :=
    Execution.exists_of_replay events replayed (closing_idle closing)
  rw [← reached] at holds
  exact ⟨x, first, fun w _ => fair _ (worker_stuck exited), fair _ (run_stuck late),
    fun i own => fair _ (loop_stuck (ended i own)), holds⟩

/-- One request, and shutdown while it is being handled. -/
def stopped : List Event :=
  [.accept, .task 0 {}, .ready 0 1 false { receives :=
    [.data [0xca, 0xfe, 1, 2, 0, 0, 0, 1, 0, 0, 0, 0, 65]] }, .take 0, .closing,
    .handle 0 (.single [7] 13), .complete 0, .take 0, .join, .task 0 { sends := [.wrote 1] },
    .task 0 {}]

/-- The request is completed after `closing` is set. -/
theorem requests_completed_stopped :
    ∃ (x : Execution (State.step soleServer)) (job : Job Completion), job.input.length = 13 ∧
    ∃ m reply socket rest, (job, reply) ∈ (x.state m).queue.completed ∧
      x.event m = .task (soleServer.home job.complete.conn) socket ∧
      ((x.state m).ios (soleServer.home job.complete.conn)).loop.tasks =
        .reply job reply :: rest := by
  obtain ⟨x, first, workers, -, loops, job, accepted, length⟩ := exists_fair soleServer stopped
    (fun s => ∃ job ∈ s.queue.accepted, job.input.length = 13) (by decide +kernel)
  exact ⟨x, job, length, requests_completed x first workers loops accepted⟩

/-- The execution gets there with one job accepted. -/
theorem shutdown_completes_stopped :
    ∃ x : Execution (State.step soleServer),
    (x.state stopped.length).queue.accepted.length = 1 ∧
    ∃ m ≥ stopped.length, ∀ k ≥ m, (x.state k).joined = true ∧
      (∀ i < soleServer.options.ioThreads, ((x.state k).ios i).loop.stopping = true) ∧
      (x.state k).stats.active = 0 ∧
      (x.state k).queue.completed.map Prod.fst ~ (x.state k).queue.accepted ∧
      ∀ i < soleServer.options.ioThreads, ∀ job reply,
        .reply job reply ∉ ((x.state k).ios i).loop.tasks := by
  obtain ⟨x, first, workers, run, loops, closing, one⟩ := exists_fair soleServer stopped
    (fun s => s.queue.closing = true ∧ s.queue.accepted.length = 1) (by decide +kernel)
  exact ⟨x, one, shutdown_completes x first workers run loops closing⟩

end KVRPC.Server
