import KVRPC.Server.Runtime

/-!
# Jobs on their way

The jobs of a connection that are queued, with a worker, or on their way back as a posted
reply. `pending` counts them while the connection is open, and no connection ever has more
of them than its limit allows.
-/
namespace KVRPC.Server

open Library Net Relation
open scoped List

variable {ε : Type} {t : TcpServer ε} {s s' : State} {c d : Nat} {v w : View}

/-- The jobs a worker calls the handler with. -/
def Worker.batch {κ : Type} : Worker κ → List (Job κ)
  | .running batch => batch
  | _ => []

/-- The replies waiting in the loop of an I/O thread. -/
def Io.replies (io : Io) : List (Job Completion × Reply) :=
  io.loop.tasks.filterMap fun
    | .reply job reply => some (job, reply)
    | _ => none

namespace JobQueue

variable {κ : Type} {q q' : JobQueue κ} {worker : Nat}

/-- The jobs the handler is being called with. -/
def batches (q : JobQueue κ) : List (Job κ) := q.workers.flatMap Worker.batch

/-- The replies computed and not yet passed on. -/
def replies (q : JobQueue κ) : List (Job κ × Reply) := q.workers.flatMap Worker.computed

/-- Jobs go from the front of the queue to a worker. -/
theorem take_lists (counted : q.Counted) (h : take t q worker = some q') :
    ∃ n, q'.jobs = q.jobs.drop n ∧ q'.taken = q.taken ++ q.jobs.take n ∧
      q'.accepted = q.accepted ∧ q'.batches ~ q.jobs.take n ++ q.batches ∧
      q'.replies ~ q.replies := by
  obtain ⟨idle, ⟨-, empty, rfl⟩ | ⟨n, -, -, -, rfl⟩⟩ := take_cases counted h
  · refine ⟨0, by simp [setWorker], by simp [setWorker], rfl, ?_, ?_⟩
    · obtain ⟨others, before, after⟩ := flatMap_setWorker Worker.batch idle .exited
      exact after.trans before.symm
    · obtain ⟨others, before, after⟩ := flatMap_setWorker Worker.computed idle .exited
      exact after.trans before.symm
  · refine ⟨n, rfl, rfl, rfl, ?_, ?_⟩
    · obtain ⟨others, before, after⟩ :=
        flatMap_setWorker Worker.batch idle (.running (q.jobs.take n))
      exact after.trans (before.symm.append_left _)
    · obtain ⟨others, before, after⟩ :=
        flatMap_setWorker Worker.computed idle (.running (q.jobs.take n))
      exact after.trans before.symm

/-- The handler turns the jobs of a worker into replies. -/
theorem handle_lists {h : Handled} (inv : Inv t q) (called : handle t q worker h = some q') :
    ∃ pairs others, q'.jobs = q.jobs ∧ q'.taken = q.taken ∧ q'.accepted = q.accepted ∧
      (q'.workers[worker]?.map Worker.computed).getD [] = pairs ∧
      q.batches ~ pairs.map Prod.fst ++ others ∧ q'.batches ~ others ∧
      q'.replies ~ pairs ++ q.replies := by
  obtain ⟨batch, pairs, errors, busy, rfl, -, rfl⟩ := handle_cases called fun batch busy =>
    inv.single batch (List.mem_of_getElem? busy)
  obtain ⟨others, before, after⟩ := flatMap_setWorker Worker.batch busy (.replying pairs)
  obtain ⟨others', before', after'⟩ := flatMap_setWorker Worker.computed busy (.replying pairs)
  refine ⟨pairs, others, rfl, rfl, rfl, ?_, before, after,
    after'.trans (before'.symm.append_left _)⟩
  have lt := (List.getElem?_eq_some_iff.mp busy).1
  simp [setWorker, lt, Worker.computed]

/-- A worker passes on the next reply. -/
theorem complete_lists {job : Job κ} {reply : Reply}
    (completed : q.complete worker = some (job, reply, q')) :
    q'.jobs = q.jobs ∧ q'.taken = q.taken ∧ q'.accepted = q.accepted ∧ q'.batches ~ q.batches ∧
      q.replies ~ (job, reply) :: q'.replies := by
  obtain ⟨rest, busy, rfl⟩ := complete_cases completed
  obtain ⟨others, before, after⟩ :=
    flatMap_setWorker Worker.batch busy (if rest = [] then .waiting else .replying rest)
  obtain ⟨others', before', after'⟩ :=
    flatMap_setWorker Worker.computed busy (if rest = [] then .waiting else .replying rest)
  refine ⟨rfl, rfl, rfl, after.trans ?_, before'.trans ?_⟩
  · refine List.Perm.trans ?_ before.symm
    split <;> rfl
  · refine (List.Perm.cons _ (after'.trans ?_)).symm
    split
    case isTrue last => simp [Worker.computed, last]
    case isFalse => rfl

end JobQueue

namespace State

def queued (s : State) (c : Nat) : List (Job Completion) :=
  s.queue.jobs.filter fun job => job.complete.conn = c

def running (s : State) (c : Nat) : List (Job Completion) :=
  s.queue.batches.filter fun job => job.complete.conn = c

def computed (s : State) (c : Nat) : List (Job Completion × Reply) :=
  s.queue.replies.filter fun p => p.1.complete.conn = c

def posted (t : TcpServer ε) (s : State) (c : Nat) : List (Job Completion × Reply) :=
  (s.ios (t.home c)).replies.filter fun p => p.1.complete.conn = c

/-- The jobs of connection `c` that have been accepted and not yet answered on its loop. -/
def flights (t : TcpServer ε) (s : State) (c : Nat) : List (Job Completion) :=
  s.queued c ++ s.running c ++ (s.computed c ++ s.posted t c).map Prod.fst

end State

namespace View

@[simp] theorem queue_close {reason : CloseReason} : (v.close reason).queue = v.queue := by
  unfold close
  split <;> rfl

@[simp] theorem queue_schedule : (v.schedule c).queue = v.queue := by
  unfold schedule
  split <;> rfl

@[simp] theorem queue_wrote {bytes : Bytes} {rest : List Bytes} {n : Nat} :
    (v.wrote c bytes rest n).queue = v.queue := by
  unfold wrote
  split <;> rfl

@[simp] theorem queue_reject {size : Nat} : (v.reject t size).queue = v.queue := queue_close

@[simp] theorem replies_close {reason : CloseReason} :
    (v.close reason).io.replies = v.io.replies := by
  unfold close
  split <;> rfl

@[simp] theorem replies_schedule : (v.schedule c).io.replies = v.io.replies := by
  unfold schedule
  split
  · rfl
  · simp [Io.replies, Reactor.post]

@[simp] theorem replies_wrote {bytes : Bytes} {rest : List Bytes} {n : Nat} :
    (v.wrote c bytes rest n).io.replies = v.io.replies := by
  unfold wrote
  split <;> rfl

@[simp] theorem replies_reject {size : Nat} : (v.reject t size).io.replies = v.io.replies :=
  replies_close

/-- A move leaves the queue alone or puts one job in it. -/
theorem Move.queue_cases (m : Move t c v w) :
    w.queue = v.queue ∨ ∃ size, v.Cuts t size ∧ ¬ v.queue.Full t (v.cutInput size) ∧
      w = v.accept t c size := by
  cases m with
  | accepted cuts room => exact .inr ⟨_, cuts, room, rfl⟩
  | _ =>
    left
    first | rfl | simp

theorem Move.replies_eq (m : Move t c v w) : w.io.replies = v.io.replies := by
  cases m with
  | _ => first | rfl | simp

/-- The jobs a move puts in the queue. -/
theorem Move.jobs (m : Move t c v w) :
    ∃ new, w.queue.jobs = v.queue.jobs ++ new ∧ w.queue.workers = v.queue.workers ∧
      ∀ job ∈ new, job.complete.conn = c := by
  obtain same | ⟨size, -, -, rfl⟩ := m.queue_cases
  · exact ⟨[], by simp [same], by rw [same], by simp⟩
  · exact ⟨_, rfl, rfl, by simp⟩

end View

namespace State

theorem posted_put (replies : w.io.replies = (s.ios (t.home c)).replies) (d : Nat) :
    (s.put t c w).posted t d = s.posted t d := by
  unfold State.posted
  by_cases home : t.home d = t.home c
  · simp [put, home, replies]
  · simp [put, Function.update_of_ne home]

theorem queued_put {new : List (Job Completion)} (jobs : w.queue.jobs = s.queue.jobs ++ new)
    (own : ∀ job ∈ new, job.complete.conn = c) (d : Nat) :
    (s.put t c w).queued d = s.queued d ++ if d = c then new else [] := by
  simp only [State.queued, put, jobs, List.filter_append]
  congr 1
  split_ifs with same
  · subst same
    simpa using own
  · rw [List.filter_eq_nil_iff]
    intro job mem
    have := own job mem
    simp [this, Ne.symm same]

theorem running_put (workers : w.queue.workers = s.queue.workers) (d : Nat) :
    (s.put t c w).running d = s.running d := by
  simp [State.running, put, JobQueue.batches, workers]

theorem computed_put (workers : w.queue.workers = s.queue.workers) (d : Nat) :
    (s.put t c w).computed d = s.computed d := by
  simp [State.computed, put, JobQueue.replies, workers]

/-- A move of one connection is seen in the flights of that connection only. -/
theorem flights_put {new : List (Job Completion)}
    (replies : w.io.replies = (s.ios (t.home c)).replies)
    (workers : w.queue.workers = s.queue.workers) (jobs : w.queue.jobs = s.queue.jobs ++ new)
    (own : ∀ job ∈ new, job.complete.conn = c) (d : Nat) :
    (s.put t c w).flights t d ~ (if d = c then new else []) ++ s.flights t d := by
  simp only [flights, posted_put replies, queued_put jobs own, running_put workers,
    computed_put workers, List.append_assoc]
  exact List.perm_append_comm_assoc _ _ _

theorem flights_congr (jobs : s'.queue.jobs = s.queue.jobs)
    (workers : s'.queue.workers = s.queue.workers)
    (replies : (s'.ios (t.home d)).replies = (s.ios (t.home d)).replies) :
    s'.flights t d = s.flights t d := by
  simp only [flights, queued, running, computed, posted, JobQueue.batches, JobQueue.replies, jobs,
    workers, replies]

theorem flights_setIo {i : Nat} {io : Io} (replies : io.replies = (s.ios i).replies) :
    (s.setIo i io).flights t d = s.flights t d := by
  refine flights_congr rfl rfl ?_
  by_cases home : t.home d = i
  · simp [setIo, home, replies]
  · simp [setIo, Function.update_of_ne home]

theorem flights_on {f : View → View} (queue : (f (s.view t c)).queue = s.queue)
    (replies : (f (s.view t c)).io.replies = (s.ios (t.home c)).replies) :
    (s.on t c f).flights t d = s.flights t d := by
  refine flights_congr (congrArg _ queue) (congrArg _ queue) ?_
  by_cases home : t.home d = t.home c
  · simp [on, put, home, replies]
  · simp [on, put, Function.update_of_ne home]

/-- A reply leaves the queue of its loop. -/
theorem posted_pop {i : Nat} {job : Job Completion} {reply : Reply} {rest : List Task}
    (head : (s.ios i).loop.tasks = .reply job reply :: rest)
    (home : t.home job.complete.conn = i) (d : Nat) :
    s.posted t d =
      (if d = job.complete.conn then [(job, reply)] else []) ++ (s.setTasks i rest).posted t d := by
  unfold State.posted
  by_cases same : t.home d = i
  · simp only [same, setTasks, setIo, Function.update_self, Io.replies, head, List.filterMap_cons]
    by_cases own : job.complete.conn = d
    · simp [own]
    · simp [own, Ne.symm own]
  · have other : d ≠ job.complete.conn := by
      rintro rfl
      exact same home
    simp [setTasks, setIo, Function.update_of_ne same, other]

theorem flights_pop {i : Nat} {job : Job Completion} {reply : Reply} {rest : List Task}
    (head : (s.ios i).loop.tasks = .reply job reply :: rest)
    (home : t.home job.complete.conn = i) (d : Nat) :
    s.flights t d ~
      (if d = job.complete.conn then [job] else []) ++ (s.setTasks i rest).flights t d := by
  have front : (s.posted t d).map Prod.fst = (if d = job.complete.conn then [job] else []) ++
      ((s.setTasks i rest).posted t d).map Prod.fst := by
    rw [posted_pop head home, List.map_append]
    split_ifs <;> rfl
  have queued : (s.setTasks i rest).queued d = s.queued d := rfl
  have running : (s.setTasks i rest).running d = s.running d := rfl
  have computed : (s.setTasks i rest).computed d = s.computed d := rfl
  rw [List.perm_iff_count]
  intro j
  simp only [flights, List.map_append, front, queued, running, computed, List.count_append]
  omega

theorem flights_setTasks_nil {i : Nat} {task : Task} {rest : List Task}
    (head : (s.ios i).loop.tasks = task :: rest) (none : s.flights t d = []) :
    (s.setTasks i rest).flights t d = [] := by
  have shorter : ((s.setTasks i rest).posted t d).Sublist (s.posted t d) := by
    unfold State.posted
    apply List.Sublist.filter
    by_cases home : t.home d = i
    · simp only [home, setTasks, setIo, Function.update_self, Io.replies, head]
      exact (List.sublist_cons_self _ _).filterMap _
    · simp [setTasks, setIo, Function.update_of_ne home]
  simp only [flights, List.append_eq_nil_iff, List.map_eq_nil_iff] at none ⊢
  refine ⟨none.1, none.2.1, ?_⟩
  rw [none.2.2] at shorter
  exact List.sublist_nil.mp shorter

theorem flights_take (counted : s.queue.Counted) {worker : Nat} {queue : JobQueue Completion}
    (taken : s.queue.take t worker = some queue) (d : Nat) :
    ({ s with queue := queue } : State).flights t d ~ s.flights t d := by
  obtain ⟨n, jobs, -, -, batches, replies⟩ := JobQueue.take_lists counted taken
  rw [List.perm_iff_count]
  intro j
  have moved := (batches.filter fun job => job.complete.conn = d).count_eq j
  have same := ((replies.filter fun p => p.1.complete.conn = d).map Prod.fst).count_eq j
  have parts := congrArg (fun l => (l.filter fun job => decide (job.complete.conn = d)).count j)
    (List.take_append_drop n s.queue.jobs)
  simp only [List.filter_append, List.count_append] at moved parts
  simp only [flights, queued, running, computed, jobs, List.map_append, List.count_append, posted]
  omega

theorem flights_handle (inv : JobQueue.Inv t s.queue) {worker : Nat} {h : Handled}
    {queue : JobQueue Completion} (called : s.queue.handle t worker h = some queue)
    (handled : List (Job Completion × Reply)) (d : Nat) :
    ({ s with queue := queue, handled := handled } : State).flights t d ~ s.flights t d := by
  obtain ⟨pairs, others, jobs, -, -, -, before, after, replies⟩ := JobQueue.handle_lists inv called
  rw [List.perm_iff_count]
  intro j
  have had := (before.filter fun job => job.complete.conn = d).count_eq j
  have left := (after.filter fun job => job.complete.conn = d).count_eq j
  have got := ((replies.filter fun p => p.1.complete.conn = d).map Prod.fst).count_eq j
  have same : (pairs.filter fun p => decide (p.1.complete.conn = d)).map Prod.fst =
      (pairs.map Prod.fst).filter fun job => decide (job.complete.conn = d) := by
    rw [List.filter_map]
    rfl
  simp only [List.filter_append, List.map_append, List.count_append, same] at had got
  simp only [flights, queued, running, computed, jobs, List.map_append, List.count_append, posted]
  omega

theorem posted_post (s : State) (job : Job Completion) (reply : Reply) (d : Nat) :
    (s.post (t.home job.complete.conn) (.reply job reply)).posted t d =
      s.posted t d ++ if d = job.complete.conn then [(job, reply)] else [] := by
  unfold State.posted
  by_cases same : t.home d = t.home job.complete.conn
  · simp only [same, post, setIo, Function.update_self, Io.replies, Reactor.post,
      List.filterMap_append, List.filterMap_cons, List.filterMap_nil, List.filter_append]
    by_cases own : job.complete.conn = d
    · simp [own]
    · simp [own, Ne.symm own]
  · have other : d ≠ job.complete.conn := by
      rintro rfl
      exact same rfl
    simp [post, setIo, Function.update_of_ne same, other]

theorem flights_complete {worker : Nat} {job : Job Completion} {reply : Reply}
    {queue : JobQueue Completion} (completed : s.queue.complete worker = some (job, reply, queue))
    (d : Nat) :
    (({ s with queue := queue } : State).post (t.home job.complete.conn) (.reply job reply)).flights
      t d ~ s.flights t d := by
  obtain ⟨jobs, -, -, batches, replies⟩ := JobQueue.complete_lists completed
  rw [List.perm_iff_count]
  intro j
  have left := (batches.filter fun job => job.complete.conn = d).count_eq j
  have had := ((replies.filter fun p => p.1.complete.conn = d).map Prod.fst).count_eq j
  unfold flights
  rw [posted_post]
  simp only [queued, running, computed, posted, post, setIo, jobs, List.map_append,
    List.count_append]
  by_cases own : job.complete.conn = d
  · simp only [List.filter_cons, own, decide_true, if_true, List.map_cons, List.count_cons] at had
    simp only [own, if_true, List.map_cons, List.map_nil, List.count_cons, List.count_nil]
    omega
  · simp only [List.filter_cons, own, decide_false, Bool.false_eq_true, if_false] at had
    simp only [Ne.symm own, if_false, List.map_nil, List.count_nil]
    omega

theorem flights_initial : (State.initial t).flights t c = [] := by
  have jobs : (JobQueue.initial t : JobQueue Completion).jobs = [] := rfl
  have batches : (JobQueue.initial t : JobQueue Completion).batches = [] := by
    simp [JobQueue.initial, JobQueue.batches, Worker.batch]
  have replies : (JobQueue.initial t : JobQueue Completion).replies = [] := by
    simp [JobQueue.initial, JobQueue.replies, Worker.computed]
  simp [flights, queued, running, computed, posted, State.initial, jobs, batches, replies,
    Io.replies]

end State
end KVRPC.Server
