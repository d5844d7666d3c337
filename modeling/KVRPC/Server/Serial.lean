import KVRPC.Server.Invariant

/-!
# One worker

A server with one worker calls its handler with the jobs in the order they were accepted, so
that order is the one in which the requests of all connections take effect. Nothing is ever
taken out of the lists of accepted and handled jobs.
-/
namespace KVRPC.Server

open Library Net Relation

variable {ε : Type} {t : TcpServer ε} {s s' : State} {c : Nat} {v w : View}

namespace JobQueue

variable {κ : Type} {q q' : JobQueue κ} {worker : Nat}

/-- The only worker. -/
theorem workers_eq_singleton (one : q.workers.length = 1) {x : Worker κ}
    (found : q.workers[worker]? = some x) : worker = 0 ∧ q.workers = [x] := by
  obtain ⟨only, workers⟩ := List.length_eq_one_iff.mp one
  obtain ⟨inside, rfl⟩ := List.getElem?_eq_some_iff.mp found
  have first : worker = 0 := by omega
  subst first
  simp [workers]

/-- The jobs the only worker takes follow those taken before. -/
theorem take_serial (counted : q.Counted) (one : q.workers.length = 1)
    (taken : q.take t worker = some q') :
    q.batches = [] ∧ q'.taken = q.taken ++ q'.batches ∧ q'.accepted = q.accepted := by
  obtain ⟨idle, ⟨-, -, rfl⟩ | ⟨n, -, -, -, rfl⟩⟩ := take_cases counted taken
  all_goals
    obtain ⟨rfl, workers⟩ := workers_eq_singleton one idle
    simp [batches, setWorker, dropJobs, workers, Worker.batch]

/-- The only worker answers what it has taken, in the same order. -/
theorem handle_serial {h : Handled} (inv : Inv t q) (one : q.workers.length = 1)
    (called : q.handle t worker h = some q') :
    q.batches = ((q'.workers[worker]?.map Worker.computed).getD []).map Prod.fst ∧
      q'.batches = [] ∧ q'.taken = q.taken ∧ q'.accepted = q.accepted := by
  obtain ⟨batch, pairs, errors, busy, rfl, -, rfl⟩ := handle_cases called fun batch busy =>
    inv.single batch (List.mem_of_getElem? busy)
  obtain ⟨rfl, workers⟩ := workers_eq_singleton one busy
  simp [batches, setWorker, workers, Worker.batch, Worker.computed]

theorem complete_serial {job : Job κ} {reply : Reply} (one : q.workers.length = 1)
    (completed : q.complete worker = some (job, reply, q')) :
    q.batches = [] ∧ q'.batches = [] ∧ q'.taken = q.taken ∧ q'.accepted = q.accepted := by
  obtain ⟨rest, busy, rfl⟩ := complete_cases completed
  obtain ⟨rfl, workers⟩ := workers_eq_singleton one busy
  refine ⟨by simp [batches, workers, Worker.batch], ?_, rfl, rfl⟩
  simp only [batches, setWorker, workers]
  split <;> simp [Worker.batch]

end JobQueue

/-- Jobs are handled in the order they are taken. -/
def Serial (s : State) : Prop :=
  s.queue.taken = s.handled.map Prod.fst ++ s.queue.batches

namespace Serial

theorem initial (t : TcpServer ε) : Serial (State.initial t) := by
  simp [Serial, State.initial, JobQueue.initial, JobQueue.batches, Worker.batch]

/-- No job has moved. -/
theorem congr (h : Serial s) (taken : s'.queue.taken = s.queue.taken)
    (workers : s'.queue.workers = s.queue.workers) (handled : s'.handled = s.handled) :
    Serial s' := by
  rw [Serial, taken, JobQueue.batches, workers, handled]
  exact h

theorem on (h : Serial s) (f : View → View) (queue : (f (s.view t c)).queue = s.queue) :
    Serial (s.on t c f) := by
  refine h.congr ?_ ?_ rfl
  all_goals simp only [State.on, State.put, queue]

theorem act (one : t.threads = 1) (base : Base t s) (h : Serial s) (act : Act t s s') :
    Serial s' := by
  have single : s.queue.workers.length = 1 := base.queue.threads.trans one
  cases act with
  | move _ _ m =>
    obtain same | ⟨size, -, -, rfl⟩ := m.queue_cases
    · refine h.congr ?_ ?_ rfl
      all_goals simp only [State.put, same, State.view_queue]
    · exact h.congr rfl rfl rfl
  | attach _ => exact on (s := s.setTasks _ _) h _ rfl
  | resume _ => exact on (s := s.setTasks _ _) h _ rfl
  | refuse _ _ _ _ =>
    refine on (s := s.setTasks _ _) h _ ?_
    rw [View.queue_close]
    rfl
  | absorb _ _ _ _ => exact on (s := s.setTasks _ _) h _ rfl
  | accept _ =>
    unfold State.accept
    split <;> exact h
  | take taken =>
    obtain ⟨idle, grown, -⟩ := JobQueue.take_serial base.queue.counted single taken
    rw [Serial, idle, List.append_nil] at h
    rw [Serial, grown, h]
  | handle called =>
    obtain ⟨busy, idle, taken, -⟩ := JobQueue.handle_serial base.queue single called
    rw [Serial, busy] at h
    rw [Serial, taken, h, idle, List.map_append, List.append_nil]
  | complete completed =>
    obtain ⟨before, after, taken, -⟩ := JobQueue.complete_serial single completed
    rw [Serial, before] at h
    have : Serial { s with queue := _ } := taken.trans (h.trans (by rw [after]))
    exact this
  | drop | expire | closing | join | closeAll | stop => exact h

end Serial

/-- Only a call of the handler adds to what has been handled. -/
theorem State.handled_closeAll (t : TcpServer ε) (s : State) (i : Nat) :
    (s.closeAll t i).handled = s.handled := by
  have closing : ∀ (cs : List Nat) (s : State),
      (cs.foldl (fun s c => s.on t c fun v => v.close .shutdown) s).handled = s.handled := by
    intro cs
    induction cs with
    | nil => exact fun _ => rfl
    | cons c cs ih => exact fun s => ih _
  exact closing _ s

theorem step_handled {e : Event} (taken : State.step t s e = some s')
    (other : ∀ worker h, e ≠ .handle worker h) : s'.handled = s.handled := by
  cases e with
  | accept =>
    simp only [State.step] at taken
    split at taken
    · cases taken
    · cases taken
      unfold State.accept
      split <;> rfl
  | task i socket =>
    simp only [State.step] at taken
    split at taken
    · cases taken
    · rename_i task rest head
      cases taken
      cases task with
      | closeAll => exact State.handled_closeAll t _ i
      | attach | pump | reply => rfl
  | ready i token error socket =>
    simp only [State.step] at taken
    split at taken <;> cases taken
    rfl
  | timer i id =>
    simp only [State.step] at taken
    split at taken <;> cases taken
    rfl
  | take worker =>
    obtain ⟨queue, -, rfl⟩ := Option.map_eq_some_iff.mp taken
    rfl
  | handle worker h => exact absurd rfl (other worker h)
  | complete worker =>
    simp only [State.step] at taken
    split at taken <;> cases taken
    rfl
  | closing =>
    cases taken
    rfl
  | join =>
    simp only [State.step] at taken
    split at taken <;> cases taken
    rfl

/-! ## Order of acceptance -/

/-- Jobs are only ever added. -/
structure Grows (s s' : State) : Prop where
  accepted : s.queue.accepted <+: s'.queue.accepted
  handled : s.handled <+: s'.handled

theorem Grows.of_eq (accepted : s'.queue.accepted = s.queue.accepted)
    (handled : s'.handled = s.handled) : Grows s s' :=
  ⟨accepted ▸ List.prefix_rfl, handled ▸ List.prefix_rfl⟩

theorem Act.grows (base : Base t s) (act : Act t s s') : Grows s s' := by
  cases act with
  | move _ _ m =>
    refine ⟨?_, List.prefix_rfl⟩
    obtain same | ⟨size, -, -, rfl⟩ := m.queue_cases
    · simp only [State.put, same, State.view_queue]
      exact List.prefix_rfl
    · exact List.prefix_append _ _
  | refuse _ _ _ _ =>
    refine .of_eq ?_ rfl
    simp only [State.on, State.put, View.queue_close]
    rfl
  | accept _ =>
    unfold State.accept
    split <;> exact .of_eq rfl rfl
  | take taken =>
    obtain ⟨n, -, -, accepted, -⟩ := JobQueue.take_lists base.queue.counted taken
    exact .of_eq accepted rfl
  | handle called =>
    obtain ⟨_, _, -, -, accepted, -⟩ := JobQueue.handle_lists base.queue called
    exact ⟨accepted ▸ List.prefix_rfl, List.prefix_append _ _⟩
  | complete completed =>
    obtain ⟨-, -, accepted, -⟩ := JobQueue.complete_lists completed
    exact .of_eq accepted rfl
  | attach | resume | absorb | drop | expire | closing | join | closeAll | stop =>
    exact .of_eq rfl rfl

/-- With one worker, the accepted jobs are those handled, then those the worker has, then
those that wait. -/
theorem State.Runs.serial {trace : List (State × Event)} (run : State.Runs t trace s)
    (one : t.threads = 1) :
    s.queue.accepted = s.handled.map Prod.fst ++ s.queue.batches ++ s.queue.jobs := by
  obtain ⟨base, -, -, serial⟩ := run.invariant Serial (.initial t)
    fun base _ h act => Serial.act one base h act
  rw [base.queue.order, serial]

end KVRPC.Server
