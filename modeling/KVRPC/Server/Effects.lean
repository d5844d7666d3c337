import KVRPC.Server.Acceptor
import KVRPC.Server.Shutdown

/-!
# Events, jobs and tasks

What an event does to the job queue and to the tasks of the loops. Callbacks on an I/O thread may
put jobs in the queue and post tasks that pump a connection; a reply is posted by a worker, a
connection by the acceptor, and the task that closes all peers by the thread in `Run`
(`step_effect`).
-/
namespace KVRPC.Server

open Library Net Relation

variable {ε κ : Type} {t : TcpServer ε} {s s' : State} {c i : Nat} {v w : View}

namespace JobQueue

/-- Jobs may have been put in the queue, but none if it is closing. -/
structure Grew (q q' : JobQueue κ) : Prop where
  workers : q'.workers = q.workers
  closing : q.closing = true → q'.closing = true
  taken : q'.taken = q.taken
  completed : q'.completed = q.completed
  jobs : ∃ new, q'.jobs = q.jobs ++ new ∧ q'.accepted = q.accepted ++ new ∧
    (q.closing = true → new = [])

variable {q q' q'' : JobQueue κ}

theorem Grew.refl (q : JobQueue κ) : q.Grew q := ⟨rfl, id, rfl, rfl, [], by simp⟩

theorem Grew.trans (first : q.Grew q') (second : q'.Grew q'') : q.Grew q'' where
  workers := second.workers.trans first.workers
  closing shut := second.closing (first.closing shut)
  taken := second.taken.trans first.taken
  completed := second.completed.trans first.completed
  jobs := by
    obtain ⟨new, jobs, accepted, late⟩ := first.jobs
    obtain ⟨new', jobs', accepted', late'⟩ := second.jobs
    refine ⟨new ++ new', by rw [jobs', jobs, List.append_assoc],
      by rw [accepted', accepted, List.append_assoc], fun shut => ?_⟩
    rw [late shut, late' (first.closing shut), List.append_nil]

theorem Grew.enqueue {input : Bytes} {complete : κ} (room : ¬ q.Full t input) :
    q.Grew (q.enqueue input complete) := by
  refine ⟨rfl, id, rfl, rfl, _, rfl, rfl, fun shut => ?_⟩
  exact absurd (.inl shut) room

theorem Grew.close (q : JobQueue κ) : q.Grew q.close :=
  ⟨rfl, fun _ => rfl, rfl, rfl, [], by simp [JobQueue.close]⟩

end JobQueue

/-! ## One connection -/

/-- What a function on an I/O thread does to the queue and to its loop. -/
structure View.Gentle (c : Nat) (v w : View) : Prop where
  queue : v.queue.Grew w.queue
  stopping : w.io.loop.stopping = v.io.loop.stopping
  tasks : ∃ new, w.io.loop.tasks = v.io.loop.tasks ++ new ∧ ∀ x ∈ new, x = .pump c

namespace View.Gentle

theorem of_eq (queue : w.queue = v.queue) (stopping : w.io.loop.stopping = v.io.loop.stopping)
    (tasks : w.io.loop.tasks = v.io.loop.tasks) : Gentle c v w :=
  ⟨queue ▸ .refl _, stopping, [], by simp [tasks], by simp⟩

theorem trans {u : View} (first : Gentle c v w) (second : Gentle c w u) : Gentle c v u where
  queue := first.queue.trans second.queue
  stopping := second.stopping.trans first.stopping
  tasks := by
    obtain ⟨new, tasks, pumps⟩ := first.tasks
    obtain ⟨new', tasks', pumps'⟩ := second.tasks
    refine ⟨new ++ new', by rw [tasks', tasks, List.append_assoc], fun x mem => ?_⟩
    exact (List.mem_append.mp mem).elim (pumps x) (pumps' x)

theorem of_tidy (queue : v.queue.Grew w.queue)
    (stopping : w.io.loop.stopping = v.io.loop.stopping) (tidy : Tidy c v w) : Gentle c v w where
  queue := queue
  stopping := stopping
  tasks := by
    obtain same | more := tidy.tasks
    · exact ⟨[], by simp [same], by simp⟩
    · exact ⟨[.pump c], more, by simp⟩

theorem move (m : View.Move t c v w) : Gentle c v w := by
  refine of_tidy ?_ m.frame.2 (.move m)
  obtain same | ⟨size, -, room, rfl⟩ := m.queue_cases
  · rw [same]
    exact .refl _
  · exact .enqueue room

theorem moves (h : View.Moves t c v w) : Gentle c v w := by
  induction h with
  | refl => exact of_eq rfl rfl rfl
  | tail _ last ih => exact ih.trans (move last.2)

theorem close (c : Nat) (v : View) (reason : CloseReason) : Gentle c v (v.close reason) := by
  refine of_tidy ?_ View.close_frame.2 (.close c v reason)
  rw [View.queue_close]
  exact .refl _

end View.Gentle

/-! ## Events -/

/-- The loops are as they were, apart from tasks that have been posted to them. -/
structure Posts (P : Task → Prop) (s s' : State) : Prop where
  joined : s'.joined = s.joined
  stopping : ∀ i, (s'.ios i).loop.stopping = (s.ios i).loop.stopping
  tasks : ∀ i, ∃ new, (s'.ios i).loop.tasks = (s.ios i).loop.tasks ++ new ∧ ∀ x ∈ new, P x

theorem Posts.of_ios {P : Task → Prop} (joined : s'.joined = s.joined) (ios : s'.ios = s.ios) :
    Posts P s s' := by
  refine ⟨joined, fun i => ?_, fun i => ⟨[], ?_, ?_⟩⟩ <;> simp [ios]

theorem Posts.post {P : Task → Prop} (i : Nat) {task : Task} (allowed : P task) :
    Posts P s (s.post i task) := by
  refine ⟨rfl, State.stopping_post i task, fun j => ?_⟩
  simp only [State.post, State.setIo, Function.update_apply]
  split_ifs with same
  · subst same
    exact ⟨[task], rfl, by simpa using allowed⟩
  · exact ⟨[], by simp, by simp⟩

/-- What callbacks on an I/O thread do. -/
structure Gentle (s s' : State) : Prop where
  queue : s.queue.Grew s'.queue
  posts : Posts (fun x => ∃ c, x = .pump c) s s'

namespace Gentle

theorem refl (s : State) : Gentle s s := ⟨.refl _, .of_ios rfl rfl⟩

theorem trans {s'' : State} (first : Gentle s s') (second : Gentle s' s'') : Gentle s s'' where
  queue := first.queue.trans second.queue
  posts := by
    refine ⟨second.posts.joined.trans first.posts.joined,
      fun i => (second.posts.stopping i).trans (first.posts.stopping i), fun i => ?_⟩
    obtain ⟨new, tasks, pumps⟩ := first.posts.tasks i
    obtain ⟨new', tasks', pumps'⟩ := second.posts.tasks i
    refine ⟨new ++ new', by rw [tasks', tasks, List.append_assoc], fun x mem => ?_⟩
    exact (List.mem_append.mp mem).elim (pumps x) (pumps' x)

theorem on (f : View → View) (h : View.Gentle c (s.view t c) (f (s.view t c))) :
    Gentle s (s.on t c f) := by
  refine ⟨h.queue, rfl, State.stopping_put h.stopping, fun j => ?_⟩
  simp only [State.on, State.put, Function.update_apply]
  split_ifs with home
  · obtain ⟨new, tasks, pumps⟩ := h.tasks
    refine ⟨new, ?_, fun x mem => ⟨c, pumps x mem⟩⟩
    rw [tasks, home]
    rfl
  · exact ⟨[], by simp, by simp⟩

theorem closePeers (peers : List Nat) :
    Gentle s (peers.foldl (fun s c => s.on t c fun v => v.close .shutdown) s) := by
  induction peers generalizing s with
  | nil => exact refl s
  | cons c peers ih => exact (on _ (.close c _ .shutdown)).trans ih

end Gentle

/-- The loop of the I/O thread is told to stop. -/
def State.stopLoop (s : State) (i : Nat) : State :=
  s.setIo i { s.ios i with loop := (s.ios i).loop.stop }

theorem State.tasks_stopLoop (i j : Nat) :
    ((s.stopLoop i).ios j).loop.tasks = (s.ios j).loop.tasks := by
  simp only [State.stopLoop, State.setIo, Function.update_apply]
  split_ifs with same
  · rw [same]
    rfl
  · rfl

theorem State.stopping_stopLoop (i j : Nat) : ((s.stopLoop i).ios j).loop.stopping =
    if j = i then true else (s.ios j).loop.stopping := by
  simp only [State.stopLoop, State.setIo, Function.update_apply]
  split_ifs <;> rfl

theorem State.tasks_setTasks (i : Nat) (tasks : List Task) (j : Nat) :
    ((s.setTasks i tasks).ios j).loop.tasks = if j = i then tasks else (s.ios j).loop.tasks := by
  simp only [State.setTasks, State.setIo, Function.update_apply]
  split_ifs <;> rfl

theorem Gentle.stopLoop (h : Gentle s s') (i : Nat) : Gentle (s.stopLoop i) (s'.stopLoop i) where
  queue := h.queue
  posts := by
    refine ⟨h.posts.joined, fun j => ?_, fun j => ?_⟩
    · rw [State.stopping_stopLoop, State.stopping_stopLoop, h.posts.stopping]
    · rw [State.tasks_stopLoop, State.tasks_stopLoop]
      exact h.posts.tasks j

/-- What an event does to jobs and tasks. -/
inductive Effect (t : TcpServer ε) (s : State) : Event → State → Prop
  | accept {s' : State} (running : s.queue.closing = false) (queue : s'.queue = s.queue)
      (posts : Posts (fun x => ∃ c, x = .attach c) s s') : Effect t s .accept s'
  | ready {i token : Nat} {error : Bool} {socket : Socket} {s' : State} (gentle : Gentle s s') :
      Effect t s (.ready i token error socket) s'
  | timer {i id : Nat} {s' : State} (gentle : Gentle s s') : Effect t s (.timer i id) s'
  | task {i : Nat} {socket : Socket} {task : Task} {rest : List Task} {s' : State}
      (head : (s.ios i).loop.tasks = task :: rest) (other : task ≠ .closeAll)
      (gentle : Gentle (s.setTasks i rest) s') : Effect t s (.task i socket) s'
  | closeAll {i : Nat} {socket : Socket} {rest : List Task} {s' : State}
      (head : (s.ios i).loop.tasks = .closeAll :: rest)
      (gentle : Gentle (s.setTasks i rest) s') : Effect t s (.task i socket) (s'.stopLoop i)
  | take {worker : Nat} {queue : JobQueue Completion}
      (taken : s.queue.take t worker = some queue) :
      Effect t s (.take worker) { s with queue := queue }
  | handle {worker : Nat} {h : Handled} {queue : JobQueue Completion} {handled}
      (called : s.queue.handle t worker h = some queue) :
      Effect t s (.handle worker h) { s with queue := queue, handled := handled }
  | complete {worker : Nat} {job : Job Completion} {reply : Reply} {queue : JobQueue Completion}
      (completed : s.queue.complete worker = some (job, reply, queue)) :
      Effect t s (.complete worker) (({ s with queue := queue } : State).post
        (t.home job.complete.conn) (.reply job reply))
  | closing : Effect t s .closing { s with queue := s.queue.close }
  | join (first : s.joined = false) (exited : ∀ worker ∈ s.queue.workers, worker = .exited) :
      Effect t s .join { s with
        joined := true
        ios := fun i =>
          if i < t.options.ioThreads then { s.ios i with loop := (s.ios i).loop.post .closeAll }
          else s.ios i }

theorem runTask_gentle (socket : Socket) {task : Task} (other : task ≠ .closeAll) :
    Gentle s (s.runTask t i socket task) := by
  cases task with
  | attach c => exact .on _ (.of_eq rfl rfl rfl)
  | pump c =>
    have unscheduled : (s.view t c).Gentle c (s.view t c).unschedule := .of_eq rfl rfl rfl
    exact .on _ (unscheduled.trans (.moves (View.pump_moves socket _)))
  | reply job reply =>
    obtain ⟨-, ignored⟩ | ⟨-, -, refused⟩ | ⟨-, -, absorbed⟩ := complete_cases t s job reply socket
    · simp only [State.runTask, ignored]
      exact .refl s
    · simp only [State.runTask, refused]
      have retracted : (s.view t job.complete.conn).Gentle job.complete.conn
          (s.view t job.complete.conn).retract := .of_eq rfl rfl rfl
      exact .on _ (retracted.trans (.close _ _ .reply))
    · simp only [State.runTask, absorbed]
      exact (Gentle.on _ (.of_eq rfl rfl rfl)).trans (.on _ (.moves (View.pump_moves socket _)))
  | closeAll => exact absurd rfl other

theorem step_effect {e : Event} (h : State.step t s e = some s') : Effect t s e s' := by
  cases e with
  | accept =>
    obtain ⟨running, ⟨⟩⟩ := Option.ite_none_left_eq_some.mp h
    refine .accept (Bool.eq_false_iff.mpr running) (Acceptor.accept_queue s) ?_
    unfold State.accept
    split
    · exact .of_ios rfl rfl
    · obtain ⟨joined, stopping, tasks⟩ := Posts.post (P := fun x => ∃ c, x = .attach c)
        (s := { s with stats.active := s.stats.active + 1, stats.accepted := s.stats.accepted + 1 })
        (t.home s.stats.accepted) ⟨s.stats.accepted, rfl⟩
      exact ⟨joined, stopping, tasks⟩
  | task i socket =>
    simp only [State.step] at h
    split at h
    case h_1 => cases h
    case h_2 task rest head =>
      cases h
      by_cases last : task = .closeAll
      · subst last
        exact .closeAll head (.closePeers _)
      · exact .task head last (runTask_gentle socket last)
  | ready i token error socket =>
    simp only [State.step] at h
    split at h
    case h_1 => cases h
    case h_2 watch found =>
      cases h
      refine .ready (.on _ ?_)
      unfold View.onReady
      split
      · exact .close _ _ _
      · exact .moves (View.pump_moves socket _)
  | timer i id =>
    simp only [State.step] at h
    split at h
    case h_1 => cases h
    case h_2 c live =>
      cases h
      have cancelled : Gentle s (s.setIo i { s.ios i with loop := (s.ios i).loop.cancel id }) := by
        refine ⟨.refl _, rfl, fun j => ?_, fun j => ⟨[], ?_, by simp⟩⟩
        all_goals
          simp only [State.setIo, Function.update_apply]
          split_ifs with same
          · simp [same, Reactor.cancel]
          · simp
      have counted (u : View) : u.Gentle c { u with stats.timeouts := u.stats.timeouts + 1 } :=
        .of_eq rfl rfl rfl
      exact .timer (cancelled.trans (.on _ ((counted _).trans (.close _ _ .timeout))))
  | take worker =>
    obtain ⟨queue, taken, rfl⟩ := Option.map_eq_some_iff.mp h
    exact .take taken
  | handle worker h' =>
    obtain ⟨queue, called, rfl⟩ := Option.map_eq_some_iff.mp h
    exact .handle called
  | complete worker =>
    simp only [State.step] at h
    split at h
    case h_1 => cases h
    case h_2 job reply queue completed =>
      cases h
      exact .complete completed
  | closing =>
    cases h
    exact .closing
  | join =>
    obtain ⟨⟨first, exited⟩, ⟨⟩⟩ := Option.ite_none_right_eq_some.mp h
    exact .join first exited

end KVRPC.Server
