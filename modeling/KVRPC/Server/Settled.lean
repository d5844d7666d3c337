import KVRPC.Server.Effects

/-!
# Workers and the last tasks of a loop

A step of a worker leaves less to be done by the workers, apart from jobs it takes from the queue
(`WorkerStep`). No worker is left with an empty batch, and no loop with a reply it will not run:
the task that closes all peers is posted after the last reply (`State.Runs.between`).
-/
namespace KVRPC.Server

open Library Net
open scoped List

variable {ε κ : Type} {t : TcpServer ε}

/-! ## Work left to the workers -/

/-- The steps a worker has before it on the jobs it holds, and one to leave. -/
def Worker.left : Worker κ → Nat
  | .waiting => 1
  | .running batch => 2 * batch.length + 1
  | .replying rest => rest.length + 1
  | .exited => 0

namespace JobQueue

variable {q q' : JobQueue κ} {w : Nat}

def left (q : JobQueue κ) : Nat := (q.workers.map Worker.left).sum

/-- A worker does not hold an empty batch. -/
def Busy (q : JobQueue κ) : Prop :=
  ∀ worker ∈ q.workers, worker ≠ .running [] ∧ worker ≠ .replying []

theorem Busy.initial (t : TcpServer ε) : Busy (JobQueue.initial t : JobQueue κ) := by
  intro worker mem
  rw [List.eq_of_mem_replicate mem]
  simp

theorem Busy.set (busy : q.Busy) {new : Worker κ} (held : new ≠ .running [] ∧ new ≠ .replying [])
    (workers : q'.workers = q.workers.set w new) : q'.Busy := by
  intro worker mem
  rw [workers] at mem
  obtain old | rfl := List.mem_or_eq_of_mem_set mem
  · exact busy worker old
  · exact held

theorem setWorker_left {old : Worker κ} (here : q.workers[w]? = some old) (new : Worker κ)
    (workers : q'.workers = q.workers.set w new) : q'.left + old.left = q.left + new.left := by
  rw [left, workers]
  exact sum_map_set Worker.left here new

/-- What a step of worker `w` does. -/
inductive WorkerStep (q : JobQueue κ) (w : Nat) (q' : JobQueue κ) : Prop
  | exits (here : q.workers[w]? = some .waiting) (closing : q.closing = true)
      (empty : q.jobs = []) (workers : q'.workers = q.workers.set w .exited)
      (jobs : q'.jobs = q.jobs) (less : q'.left < q.left)
  | takes (n : Nat) (here : q.workers[w]? = some .waiting) (pos : 0 < n)
      (within : n ≤ q.jobs.length)
      (workers : q'.workers = q.workers.set w (.running (q.jobs.take n)))
      (jobs : q'.jobs = q.jobs.drop n) (more : q'.left = q.left + 2 * n)
  | handles (batch : List (Job κ)) (pairs : List (Job κ × Reply))
      (here : q.workers[w]? = some (.running batch)) (same : pairs.map Prod.fst = batch)
      (held : pairs ≠ []) (workers : q'.workers = q.workers.set w (.replying pairs))
      (jobs : q'.jobs = q.jobs) (less : q'.left < q.left)
  | completes (job : Job κ) (reply : Reply) (rest : List (Job κ × Reply))
      (here : q.workers[w]? = some (.replying ((job, reply) :: rest)))
      (workers : q'.workers = q.workers.set w (if rest = [] then .waiting else .replying rest))
      (jobs : q'.jobs = q.jobs) (completed : q'.completed = q.completed ++ [(job, reply)])
      (less : q'.left < q.left)

theorem WorkerStep.of_take (inv : Inv t q) (h : take t q w = some q') :
    WorkerStep q w q' ∧ q'.accepted = q.accepted ∧ q'.completed = q.completed := by
  obtain ⟨idle, ⟨closing, empty, rfl⟩ | ⟨n, pos, within, -, result⟩⟩ := take_cases inv.counted h
  · have workers : (q.setWorker w .exited).workers = q.workers.set w .exited := rfl
    have moved := setWorker_left idle _ workers
    simp only [Worker.left] at moved
    exact ⟨.exits idle closing empty workers rfl (by omega), rfl, rfl⟩
  · have workers : q'.workers = q.workers.set w (.running (q.jobs.take n)) := by rw [result]; rfl
    have moved := setWorker_left idle _ workers
    simp only [Worker.left, List.length_take_of_le within] at moved
    exact ⟨.takes n idle pos within workers (by rw [result]; rfl) (by omega),
      by rw [result]; rfl, by rw [result]; rfl⟩

theorem WorkerStep.of_handle {h : Handled} (inv : Inv t q) (busy : q.Busy)
    (called : handle t q w h = some q') :
    WorkerStep q w q' ∧ q'.accepted = q.accepted ∧ q'.completed = q.completed := by
  obtain ⟨batch, pairs, errors, here, same, -, result⟩ := handle_cases called
    fun batch here => inv.single batch (List.mem_of_getElem? here)
  have held : pairs ≠ [] := by
    rintro rfl
    exact (busy _ (List.mem_of_getElem? here)).1 (same ▸ rfl)
  have pos := List.length_pos_iff.mpr held
  have workers : q'.workers = q.workers.set w (.replying pairs) := by rw [result]; rfl
  have moved := setWorker_left here _ workers
  simp only [Worker.left, ← same, List.length_map] at moved
  exact ⟨.handles batch pairs here same held workers (by rw [result]; rfl) (by omega),
    by rw [result]; rfl, by rw [result]; rfl⟩

theorem WorkerStep.of_complete {job : Job κ} {reply : Reply}
    (h : q.complete w = some (job, reply, q')) : WorkerStep q w q' ∧
      q'.accepted = q.accepted ∧ q'.completed = q.completed ++ [(job, reply)] := by
  obtain ⟨rest, here, result⟩ := complete_cases h
  have workers : q'.workers = q.workers.set w (if rest = [] then .waiting else .replying rest) := by
    rw [result]; rfl
  have moved := setWorker_left here _ workers
  have less : (if rest = [] then Worker.waiting else .replying rest).left <
      (Worker.replying ((job, reply) :: rest)).left := by
    split <;> simp [Worker.left]
  exact ⟨.completes job reply rest here workers (by rw [result]; rfl) (by rw [result]) (by omega),
    by rw [result]; rfl, by rw [result]⟩

/-- A job in the queue counts for more than one that a worker holds. -/
theorem WorkerStep.less (h : WorkerStep q w q') :
    3 * q'.jobs.length + q'.left < 3 * q.jobs.length + q.left := by
  cases h with
  | takes n _ pos within _ jobs more =>
    rw [jobs, more, List.length_drop]
    omega
  | exits _ _ _ _ jobs less | handles _ _ _ _ _ _ jobs less | completes _ _ _ _ _ jobs _ less =>
    rw [jobs]
    omega

/-- The worker that takes a step has not ended, and does not end up with an empty batch. -/
theorem WorkerStep.moved (h : WorkerStep q w q') : ∃ old new, q.workers[w]? = some old ∧
    old ≠ .exited ∧ q'.workers = q.workers.set w new ∧ new ≠ .running [] ∧ new ≠ .replying [] := by
  cases h with
  | exits here _ _ workers => exact ⟨_, _, here, by simp, workers, by simp, by simp⟩
  | takes n here pos within workers =>
    refine ⟨_, _, here, by simp, workers, fun none => ?_, by simp⟩
    have length := congrArg List.length (Worker.running.inj none)
    rw [List.length_take_of_le within] at length
    exact pos.ne' length
  | handles _ _ here _ held workers =>
    exact ⟨_, _, here, by simp, workers, by simp, by simpa using held⟩
  | completes _ _ rest here workers =>
    refine ⟨_, _, here, by simp, workers, ?_⟩
    split_ifs with none
    · simp
    · simpa using none

end JobQueue

variable {s s' : State} {i w : Nat}

/-! ## The last tasks of a loop -/

/-- Replies are posted before the task that closes all peers, which each loop is given when the
workers have ended. -/
structure Settled (t : TcpServer ε) (s : State) : Prop where
  busy : s.queue.Busy
  posted : s.joined = true → (∀ worker ∈ s.queue.workers, worker = .exited) ∧
    ∀ i < t.options.ioThreads, .closeAll ∈ (s.ios i).loop.tasks ∨ (s.ios i).loop.stopping = true
  last : ∀ i, (s.ios i).loop.tasks.Pairwise fun a b => a = .closeAll → ∀ job reply,
    b ≠ .reply job reply
  stopped : ∀ i, (s.ios i).loop.stopping = true → ∀ job reply,
    .reply job reply ∉ (s.ios i).loop.tasks

namespace Settled

theorem initial (t : TcpServer ε) : Settled t (State.initial t) where
  busy := .initial t
  posted late := by cases late
  last i := .nil
  stopped i late := by cases late

/-- Tasks other than replies are posted. -/
theorem posts {P : Task → Prop} (h : Settled t s) (busy : s'.queue.Busy)
    (workers : s'.queue.workers = s.queue.workers) (posted : Posts P s s')
    (other : ∀ x, P x → ∀ job reply, x ≠ .reply job reply) : Settled t s' where
  busy := busy
  posted late := by
    obtain ⟨exited, waiting⟩ := h.posted (posted.joined ▸ late)
    refine ⟨workers ▸ exited, fun i early => ?_⟩
    obtain ⟨new, tasks, -⟩ := posted.tasks i
    rw [tasks, posted.stopping]
    exact (waiting i early).imp_left (List.mem_append_left new)
  last i := by
    obtain ⟨new, tasks, allowed⟩ := posted.tasks i
    rw [tasks, List.pairwise_append]
    refine ⟨h.last i, ?_, fun a _ b mem _ => other b (allowed b mem)⟩
    exact List.pairwise_of_forall_mem_list fun a _ b mem _ => other b (allowed b mem)
  stopped i late job reply mem := by
    obtain ⟨new, tasks, allowed⟩ := posted.tasks i
    rw [posted.stopping] at late
    rw [tasks, List.mem_append] at mem
    obtain old | late' := mem
    · exact h.stopped i late job reply old
    · exact other _ (allowed _ late') job reply rfl

theorem gentle (h : Settled t s) (gentle : Gentle s s') : Settled t s' := by
  refine h.posts ?_ gentle.queue.workers gentle.posts ?_
  · intro worker mem
    exact h.busy worker (gentle.queue.workers ▸ mem)
  · rintro x ⟨c, rfl⟩ job reply same
    cases same

/-- A loop takes its next task, and stops if it is the one that closes all peers. -/
theorem pop {task : Task} {rest : List Task} (h : Settled t s)
    (head : (s.ios i).loop.tasks = task :: rest) (queue : s'.queue = s.queue)
    (joined : s'.joined = s.joined)
    (tasks : ∀ j, (s'.ios j).loop.tasks = if j = i then rest else (s.ios j).loop.tasks)
    (stopping : ∀ j, (s'.ios j).loop.stopping =
      if j = i ∧ task = .closeAll then true else (s.ios j).loop.stopping) : Settled t s' := by
  have sublist : ∀ j, (s'.ios j).loop.tasks <+ (s.ios j).loop.tasks := by
    intro j
    rw [tasks]
    split_ifs with same
    · rw [same, head]
      exact List.sublist_cons_self _ _
    · exact .refl _
  refine ⟨queue ▸ h.busy, fun late => ?_, fun j => (h.last j).sublist (sublist j), ?_⟩
  · obtain ⟨exited, waiting⟩ := h.posted (joined ▸ late)
    refine ⟨queue ▸ exited, fun j early => ?_⟩
    rw [tasks, stopping]
    by_cases same : j = i
    · subst same
      by_cases last : task = .closeAll
      · exact .inr (if_pos ⟨rfl, last⟩)
      · rw [if_pos rfl, if_neg fun both => last both.2]
        refine (waiting j early).imp_left fun mem => ?_
        rw [head] at mem
        exact List.mem_of_ne_of_mem (Ne.symm last) mem
    · rw [if_neg same, if_neg fun both => same both.1]
      exact waiting j early
  · intro j late job reply mem
    rw [stopping] at late
    split_ifs at late with last
    · obtain ⟨rfl, rfl⟩ := last
      rw [tasks, if_pos rfl] at mem
      have ordered := h.last j
      rw [head, List.pairwise_cons] at ordered
      exact ordered.1 _ mem rfl job reply rfl
    · exact h.stopped j late job reply ((sublist j).subset mem)

/-- A step of a worker, before the workers are joined. -/
theorem setWorker {new : Worker Completion} (h : Settled t s) (early : s.joined = false)
    (held : new ≠ .running [] ∧ new ≠ .replying [])
    (workers : s'.queue.workers = s.queue.workers.set w new) (ios : s'.ios = s.ios)
    (joined : s'.joined = s.joined) : Settled t s' where
  busy := h.busy.set held workers
  posted late := by
    rw [joined, early] at late
    cases late
  last := ios ▸ h.last
  stopped := ios ▸ h.stopped

/-- The workers are not joined while one of them has not ended. -/
theorem not_joined {old : Worker Completion} (h : Settled t s)
    (here : s.queue.workers[w]? = some old) (alive : old ≠ .exited) : s.joined = false := by
  refine Bool.eq_false_iff.mpr fun late => alive ?_
  exact (h.posted late).1 old (List.mem_of_getElem? here)

/-- A reply is posted before the loop is told to close its peers. -/
theorem reply {job : Job Completion} {reply : Reply} (h : Settled t s) (early : s.joined = false)
    (before : ∀ i, .closeAll ∉ (s.ios i).loop.tasks ∧ (s.ios i).loop.stopping = false) :
    Settled t (s.post i (.reply job reply)) := by
  obtain ⟨joined, stopping, tasks⟩ := Posts.post (P := fun x => x = .reply job reply) (s := s) i rfl
  refine ⟨h.busy, fun late => ?_, fun j => ?_, fun j late => ?_⟩
  · rw [joined, early] at late
    cases late
  · obtain ⟨new, more, same⟩ := tasks j
    rw [more, List.pairwise_append]
    refine ⟨h.last j, ?_, fun a mem b _ last => ?_⟩
    · refine List.pairwise_of_forall_mem_list fun a mem b _ last => ?_
      cases (same a mem).symm.trans last
    · exact absurd (last ▸ mem) (before j).1
  · rw [stopping, (before j).2] at late
    cases late

theorem join (h : Settled t s) (exited : ∀ worker ∈ s.queue.workers, worker = .exited)
    (before : ∀ i, .closeAll ∉ (s.ios i).loop.tasks ∧ (s.ios i).loop.stopping = false)
    (queue : s'.queue = s.queue)
    (ios : ∀ i, s'.ios i = if i < t.options.ioThreads then
      { s.ios i with loop := (s.ios i).loop.post .closeAll } else s.ios i) : Settled t s' := by
  have tasks : ∀ i, (s'.ios i).loop.tasks = (s.ios i).loop.tasks ++
      if i < t.options.ioThreads then [.closeAll] else [] := by
    intro i
    rw [ios]
    split_ifs <;> simp [Reactor.post]
  refine ⟨queue ▸ h.busy, fun _ => ⟨queue ▸ exited, fun i own => .inl ?_⟩, fun i => ?_, ?_⟩
  · rw [tasks, if_pos own]
    simp
  · rw [tasks, List.pairwise_append]
    refine ⟨h.last i, ?_, fun a mem b _ last => absurd (last ▸ mem) (before i).1⟩
    split_ifs <;> simp
  · intro i late
    rw [ios] at late
    have running := (before i).2
    split_ifs at late <;> cases running.symm.trans late

theorem step {e : Event} (h : Settled t s) (base : Base t s) (shut : Shut s)
    (effect : Effect t s e s') : Settled t s' := by
  cases effect with
  | accept _ queue posts =>
    refine h.posts (queue ▸ h.busy) (queue ▸ rfl) posts ?_
    rintro x ⟨c, rfl⟩ job reply same
    cases same
  | ready gentle | timer gentle => exact h.gentle gentle
  | @task i _ task rest _ head other gentle =>
    have popped : Settled t (s.setTasks i rest) := by
      refine h.pop head rfl rfl (State.tasks_setTasks i rest) fun j => ?_
      rw [State.stopping_setTasks, if_neg fun both => other both.2]
    exact popped.gentle gentle
  | @closeAll i _ rest _ head gentle =>
    have popped : Settled t ((s.setTasks i rest).stopLoop i) := by
      refine h.pop head rfl rfl (fun j => ?_) fun j => ?_
      · rw [State.tasks_stopLoop, State.tasks_setTasks]
      · rw [State.stopping_stopLoop, State.stopping_setTasks]
        simp
    exact popped.gentle (gentle.stopLoop i)
  | take taken =>
    obtain ⟨old, new, here, alive, workers, held⟩ :=
      (JobQueue.WorkerStep.of_take base.queue taken).1.moved
    exact h.setWorker (h.not_joined here alive) held workers rfl rfl
  | handle called =>
    obtain ⟨old, new, here, alive, workers, held⟩ :=
      (JobQueue.WorkerStep.of_handle base.queue h.busy called).1.moved
    exact h.setWorker (h.not_joined here alive) held workers rfl rfl
  | @complete _ _ _ queue completed =>
    obtain ⟨old, new, here, alive, workers, held⟩ :=
      (JobQueue.WorkerStep.of_complete completed).1.moved
    have early := h.not_joined here alive
    have moved : Settled t { s with queue := queue } := h.setWorker early held workers rfl rfl
    exact moved.reply early (shut.before early)
  | closing => exact ⟨h.busy, h.posted, h.last, h.stopped⟩
  | join first exited => exact h.join exited (shut.before first) rfl fun i => rfl

end Settled

/-- What holds between two events. -/
structure Between (t : TcpServer ε) (s : State) : Prop where
  base : Base t s
  accounted : Accounted t s
  shut : Shut s
  settled : Settled t s

theorem State.Runs.between {trace : List (State × Event)} (run : State.Runs t trace s) :
    Between t s := by
  obtain ⟨base, -, accounted, shut⟩ := run.accounted
  refine ⟨base, accounted, shut, ?_⟩
  induction run with
  | nil => exact .initial t
  | snoc run _ taken ih =>
    obtain ⟨base, -, accounted, shut⟩ := State.Runs.accounted run
    exact (ih base accounted shut).step base shut (step_effect taken)

end KVRPC.Server
