import KVRPC.Library.Runs
import KVRPC.Library.Threads
import KVRPC.Server.TcpServer

/-!
# The server's job queue

`TcpServer::Runtime::Submit` and `Work`: I/O threads put jobs in a bounded queue, workers
take them in batches, run the handler and invoke the completion of every job they took.
Each section under the mutex is one step, and so are the call of the handler and the
invocation of one completion; steps of different threads interleave in any order.

The completion of a job is its captured data, of a type `κ` that this module leaves open.
-/
namespace KVRPC.Server

open Library
open scoped List

structure Reply where
  consumed : Nat := 0
  bytes : Bytes := []
  close : Bool := false
  deriving DecidableEq, Repr

/-- The reply to every job of a batch whose handler threw. -/
def closeReply : Reply := ⟨0, [], true⟩

structure Job (κ : Type) where
  input : Bytes
  complete : κ
  /-- The position among the accepted jobs; no code reads it. -/
  ticket : Nat
  deriving DecidableEq

inductive Worker (κ : Type) where
  | waiting
  | running (batch : List (Job κ))
  | replying (rest : List (Job κ × Reply))
  | exited
  deriving DecidableEq

/-- The jobs a worker has taken and not yet completed. -/
def Worker.hand {κ : Type} : Worker κ → List (Job κ)
  | .running batch => batch
  | .replying rest => rest.map Prod.fst
  | _ => []

/-- The replies a worker has computed and not yet passed on. -/
def Worker.computed {κ : Type} : Worker κ → List (Job κ × Reply)
  | .replying rest => rest
  | _ => []

structure JobQueue (κ : Type) where
  jobs : List (Job κ) := []
  queuedBytes : Nat := 0
  closing : Bool := false
  ownerTasks : Nat := 0
  ownerBytes : Nat := 0
  handlerErrors : Nat := 0
  workers : List (Worker κ)
  -- what has happened so far: accepted and taken jobs, and invoked completions, in order
  accepted : List (Job κ) := []
  taken : List (Job κ) := []
  completed : List (Job κ × Reply) := []
  deriving DecidableEq

/-- What a call of the handler does. -/
inductive Handled where
  | threw
  | batch (replies : List Reply)
  | single (bytes : Bytes) (consumed : Nat)
  deriving DecidableEq

/-- Which of the two handlers is called is fixed. -/
def Handled.Fits (batchHandler : Bool) : Handled → Prop
  | .threw => True
  | .batch _ => batchHandler = true
  | .single _ _ => batchHandler = false

instance (batchHandler : Bool) (h : Handled) : Decidable (h.Fits batchHandler) := by
  cases h <;> unfold Handled.Fits <;> infer_instance

/-- The replies the handler's call produces, or `none` if control reaches `catch (...)`. -/
def Handled.replies (count : Nat) : Handled → Option (List Reply)
  | .threw => none
  | .batch replies => if replies.length ≠ count then none else some replies
  | .single bytes consumed => some [⟨consumed, bytes, false⟩]

/-- The reply at position `i` of a batch of `count` jobs. -/
def Handled.Answers (count : Nat) (h : Handled) (i : Nat) (reply : Reply) : Prop :=
  match h with
  | .threw => reply = closeReply
  | .batch replies => if replies.length = count then replies[i]? = some reply
      else reply = closeReply
  | .single bytes consumed => reply = ⟨consumed, bytes, false⟩

namespace JobQueue

variable {ε κ : Type}

def initial (t : TcpServer ε) : JobQueue κ := { workers := List.replicate t.threads .waiting }

/-- A job is accepted. -/
def enqueue (q : JobQueue κ) (input : Bytes) (complete : κ) : JobQueue κ :=
  let job : Job κ := ⟨input, complete, q.accepted.length⟩
  { q with
    queuedBytes := q.queuedBytes + input.length
    ownerBytes := q.ownerBytes + input.length
    ownerTasks := q.ownerTasks + 1
    jobs := q.jobs ++ [job]
    accepted := q.accepted ++ [job] }

/-- The condition under which `Submit` returns false. -/
def Full (t : TcpServer ε) (q : JobQueue κ) (input : Bytes) : Prop :=
  q.closing = true ∨ q.jobs.length ≥ t.options.queueCapacity ∨
    input.length > usub t.options.queueBytes q.queuedBytes

instance (t : TcpServer ε) (q : JobQueue κ) (input : Bytes) : Decidable (q.Full t input) := by
  unfold Full; infer_instance

def submit (t : TcpServer ε) (q : JobQueue κ) (input : Bytes) (complete : κ) :
    Bool × JobQueue κ :=
  if q.Full t input then (false, q) else (true, q.enqueue input complete)

/-- The loop under the mutex that moves `count` jobs into the batch. -/
def takeJobs : Nat → JobQueue κ → List (Job κ) × JobQueue κ
  | 0, q => ([], q)
  | count + 1, q =>
    match q.jobs with
    | [] => ([], q)
    | job :: rest =>
      let (batch, q) := takeJobs count { q with
        queuedBytes := usub q.queuedBytes job.input.length
        ownerBytes := usub q.ownerBytes job.input.length
        ownerTasks := usub q.ownerTasks 1
        jobs := rest }
      (job :: batch, q)

def setWorker (q : JobQueue κ) (w : Nat) (worker : Worker κ) : JobQueue κ :=
  { q with workers := q.workers.set w worker }

def batchSize (t : TcpServer ε) (q : JobQueue κ) : Nat :=
  if t.batchHandler then min 64 q.jobs.length else 1

/-- The first half of an iteration of `Work`, once the wait is over. -/
def take (t : TcpServer ε) (q : JobQueue κ) (w : Nat) : Option (JobQueue κ) :=
  match q.workers[w]? with
  | some .waiting =>
    if q.closing ∨ q.jobs ≠ [] then
      if q.jobs = [] then some (q.setWorker w .exited)
      else
        let (batch, q) := takeJobs (q.batchSize t) q
        some { q.setWorker w (.running batch) with taken := q.taken ++ batch }
    else none
  | _ => none

/-- The handler returns or throws. -/
def handle (t : TcpServer ε) (q : JobQueue κ) (w : Nat) (h : Handled) : Option (JobQueue κ) :=
  match q.workers[w]? with
  | some (.running batch) =>
    if h.Fits t.batchHandler then
      match h.replies batch.length with
      | some replies => some (q.setWorker w (.replying (batch.zip replies)))
      | none => some { q.setWorker w (.replying (batch.map fun job => (job, closeReply))) with
          handlerErrors := q.handlerErrors + batch.length }
    else none
  | _ => none

/-- The next completion of the worker's batch is invoked. -/
def complete (q : JobQueue κ) (w : Nat) : Option (Job κ × Reply × JobQueue κ) :=
  match q.workers[w]? with
  | some (.replying ((job, reply) :: rest)) =>
    some (job, reply, { q.setWorker w (if rest = [] then .waiting else .replying rest) with
      completed := q.completed ++ [(job, reply)] })
  | _ => none

def close (q : JobQueue κ) : JobQueue κ := { q with closing := true }

inductive Action (κ : Type) where
  | submit (input : Bytes) (complete : κ)
  | take (w : Nat)
  | handle (w : Nat) (h : Handled)
  | complete (w : Nat)
  | close

def step (t : TcpServer ε) (q : JobQueue κ) : Action κ → Option (JobQueue κ)
  | .submit input complete => some (submit t q input complete).2
  | .take w => take t q w
  | .handle w h => handle t q w h
  | .complete w => (q.complete w).map fun r => r.2.2
  | .close => some q.close

/-- The octets of the jobs' inputs. -/
def total (jobs : List (Job κ)) : Nat := (jobs.map fun job => job.input.length).sum

/-- The four counters agree with the queue. -/
structure Counted (q : JobQueue κ) : Prop where
  bytes : q.queuedBytes = total q.jobs
  ownerBytes : q.ownerBytes = total q.jobs
  ownerTasks : q.ownerTasks = q.jobs.length

/-- The queue after its first `n` jobs have been taken out. -/
def dropJobs (q : JobQueue κ) (n : Nat) : JobQueue κ :=
  { q with
    jobs := q.jobs.drop n
    queuedBytes := total (q.jobs.drop n)
    ownerBytes := total (q.jobs.drop n)
    ownerTasks := (q.jobs.drop n).length }

theorem Counted.dropJobs_zero {q : JobQueue κ} (h : q.Counted) : q.dropJobs 0 = q := by
  obtain ⟨bytes, ownerBytes, ownerTasks⟩ := h
  cases q
  simp_all [dropJobs]

theorem takeJobs_eq {q : JobQueue κ} (h : q.Counted) {n : Nat} (enough : n ≤ q.jobs.length) :
    takeJobs n q = (q.jobs.take n, q.dropJobs n) := by
  induction n generalizing q with
  | zero => simp [takeJobs, h.dropJobs_zero]
  | succ n ih =>
    obtain ⟨bytes, ownerBytes, ownerTasks⟩ := h
    cases hj : q.jobs with
    | nil => simp [hj] at enough
    | cons job rest =>
      rw [hj] at bytes ownerBytes ownerTasks enough
      simp only [total, List.map_cons, List.sum_cons] at bytes ownerBytes
      rw [List.length_cons] at ownerTasks enough
      simp only [takeJobs, hj]
      -- no counter falls below what the jobs left in the queue account for
      rw [usub_of_le (by omega), usub_of_le (by omega), usub_of_le (by omega), ih]
      · simp [dropJobs, hj]
      · constructor
        all_goals simp only [total]
        all_goals omega
      · simpa using enough

variable {t : TcpServer ε} {q q' : JobQueue κ} {w : Nat}

/-- A worker moves on and what the others hold stays as it is. -/
theorem flatMap_setWorker {α : Type} {old : Worker κ} (f : Worker κ → List α)
    (h : q.workers[w]? = some old) (new : Worker κ) :
    ∃ others, q.workers.flatMap f ~ f old ++ others ∧
      (q.setWorker w new).workers.flatMap f ~ f new ++ others :=
  Library.flatMap_set f h new

theorem take_cases (counted : q.Counted) (h : take t q w = some q') :
    q.workers[w]? = some .waiting ∧
      ((q.closing = true ∧ q.jobs = [] ∧ q' = q.setWorker w .exited) ∨
        ∃ n, 0 < n ∧ n ≤ q.jobs.length ∧ (t.batchHandler = false → n = 1) ∧
          q' = { (q.dropJobs n).setWorker w (.running (q.jobs.take n)) with
            taken := q.taken ++ q.jobs.take n }) := by
  unfold take at h
  split at h
  case h_2 => cases h
  case h_1 idle =>
    refine ⟨idle, ?_⟩
    split_ifs at h with woken empty
    · cases h
      exact .inl ⟨woken.resolve_right (fun ne => ne empty), empty, rfl⟩
    · right
      have positive : 0 < q.jobs.length := List.length_pos_iff.mpr empty
      have within : 0 < q.batchSize t ∧ q.batchSize t ≤ q.jobs.length := by
        unfold batchSize
        split <;> omega
      refine ⟨q.batchSize t, within.1, within.2, fun single => by simp [batchSize, single], ?_⟩
      rw [takeJobs_eq counted within.2] at h
      cases h
      rfl

theorem takeJobs_closing (n : Nat) (q : JobQueue κ) : (takeJobs n q).2.closing = q.closing := by
  induction n generalizing q with
  | zero => rfl
  | succ n ih =>
    unfold takeJobs
    split
    · rfl
    · exact ih _

theorem take_closing (h : take t q w = some q') : q'.closing = q.closing := by
  unfold take at h
  split at h
  case h_2 => cases h
  case h_1 =>
    split_ifs at h
    · cases h
      rfl
    · cases h
      exact takeJobs_closing _ q

theorem handle_closing {h : Handled} (taken : handle t q w h = some q') :
    q'.closing = q.closing := by
  unfold handle at taken
  split at taken
  case h_2 => cases taken
  case h_1 =>
    split_ifs at taken
    split at taken <;> cases taken <;> rfl

theorem complete_closing {job : Job κ} {reply : Reply} (h : q.complete w = some (job, reply, q')) :
    q'.closing = q.closing := by
  unfold complete at h
  split at h
  · cases h
    rfl
  · cases h

theorem replies_answers {count i : Nat} {h : Handled} {replies : List Reply} {reply : Reply}
    (some_replies : h.replies count = some replies) (at_i : replies[i]? = some reply) :
    h.Answers count i reply := by
  cases h with
  | threw => cases some_replies
  | batch list =>
    simp only [Handled.replies] at some_replies
    split at some_replies
    · cases some_replies
    · cases some_replies
      simp_all [Handled.Answers]
  | single bytes consumed =>
    cases some_replies
    obtain _ | i := i
    all_goals simp_all [Handled.Answers]

theorem no_replies_answers {count : Nat} {h : Handled} (none_replies : h.replies count = none)
    (i : Nat) : h.Answers count i closeReply := by
  cases h with
  | threw => rfl
  | batch list =>
    simp only [Handled.replies] at none_replies
    split at none_replies
    case isTrue differ => simp [Handled.Answers, differ]
    case isFalse => cases none_replies
  | single bytes consumed => cases none_replies

theorem replies_length {count : Nat} {h : Handled} {replies : List Reply}
    (fits : h.Fits t.batchHandler) (single : t.batchHandler = false → count = 1)
    (some_replies : h.replies count = some replies) : replies.length = count := by
  cases h with
  | threw => cases some_replies
  | batch list =>
    simp only [Handled.replies] at some_replies
    split at some_replies
    · cases some_replies
    · cases some_replies
      omega
  | single bytes consumed =>
    cases some_replies
    exact (single fits).symm

/-- The handler's call gives every job of the batch one reply. -/
theorem handle_cases {h : Handled} (taken : handle t q w h = some q')
    (single : ∀ batch, q.workers[w]? = some (.running batch) →
      t.batchHandler = false → batch.length = 1) :
    ∃ batch pairs errors, q.workers[w]? = some (.running batch) ∧ pairs.map Prod.fst = batch ∧
      (∀ i job reply, pairs[i]? = some (job, reply) →
        batch[i]? = some job ∧ h.Answers batch.length i reply) ∧
      q' = { q.setWorker w (.replying pairs) with handlerErrors := errors } := by
  unfold handle at taken
  split at taken
  case h_2 => cases taken
  case h_1 batch busy =>
    split_ifs at taken with fits
    split at taken
    case h_1 replies some_replies =>
      cases taken
      have length := replies_length fits (single batch busy) some_replies
      refine ⟨batch, batch.zip replies, q.handlerErrors, busy, ?_, ?_, rfl⟩
      · exact List.map_fst_zip (by omega)
      · intro i job reply at_i
        rw [List.getElem?_zip_eq_some] at at_i
        exact ⟨at_i.1, replies_answers some_replies at_i.2⟩
    case h_2 none_replies =>
      cases taken
      refine ⟨batch, batch.map fun job => (job, closeReply), _, busy, ?_, ?_, rfl⟩
      · simp [Function.comp_def]
      · intro i job reply at_i
        simp only [List.getElem?_map, Option.map_eq_some_iff, Prod.mk.injEq] at at_i
        obtain ⟨_, at_job, rfl, rfl⟩ := at_i
        exact ⟨at_job, no_replies_answers none_replies i⟩

theorem complete_cases {job : Job κ} {reply : Reply} (h : q.complete w = some (job, reply, q')) :
    ∃ rest, q.workers[w]? = some (.replying ((job, reply) :: rest)) ∧
      q' = { q.setWorker w (if rest = [] then .waiting else .replying rest) with
        completed := q.completed ++ [(job, reply)] } := by
  unfold complete at h
  split at h
  case h_2 => cases h
  case h_1 rest busy =>
    cases h
    exact ⟨rest, busy, rfl⟩

/-- What holds of the queue and its workers at all times. -/
structure Inv (t : TcpServer ε) (q : JobQueue κ) : Prop where
  counted : q.Counted
  capacity : q.jobs.length ≤ t.options.queueCapacity
  budget : q.queuedBytes ≤ t.options.queueBytes
  order : q.accepted = q.taken ++ q.jobs
  tickets : q.accepted.map Job.ticket = List.range q.accepted.length
  hands : q.taken.Perm (q.completed.map Prod.fst ++ q.workers.flatMap Worker.hand)
  single : ∀ batch, .running batch ∈ q.workers → t.batchHandler = false → batch.length = 1
  exited : .exited ∈ q.workers → q.closing = true ∧ q.jobs = []
  threads : q.workers.length = t.threads

theorem Inv.initial (t : TcpServer ε) : Inv t (JobQueue.initial t : JobQueue κ) where
  counted := ⟨rfl, rfl, rfl⟩
  capacity := Nat.zero_le _
  budget := Nat.zero_le _
  order := rfl
  tickets := rfl
  hands := by
    have idle :
        (List.replicate t.threads (Worker.waiting : Worker κ)).flatMap Worker.hand = [] := by
      simp [Worker.hand]
    simp [JobQueue.initial, idle]
  single := by simp [JobQueue.initial]
  exited := by simp [JobQueue.initial]
  threads := by simp [JobQueue.initial]

theorem Inv.submit (inv : Inv t q) (input : Bytes) (complete : κ) :
    Inv t (submit t q input complete).2 := by
  unfold JobQueue.submit
  split
  case isTrue => exact inv
  case isFalse room =>
    obtain ⟨running, space, fits⟩ := not_or.mp room |>.imp id not_or.mp
    rw [usub_of_le inv.budget] at fits
    have budget := inv.budget
    refine ⟨⟨?_, ?_, ?_⟩, ?_, ?_, ?_, ?_, inv.hands, inv.single, ?_, inv.threads⟩
    · simp [enqueue, total, inv.counted.bytes]
    · simp [enqueue, total, inv.counted.ownerBytes]
    · simp [enqueue, inv.counted.ownerTasks]
    · simp [enqueue]
      omega
    · simp [enqueue]
      omega
    · simp [enqueue, inv.order]
    · simp [enqueue, inv.tickets, List.range_succ]
    · intro gone
      exact absurd (inv.exited gone).1 running

/-- A worker moves on and the queue stays as it is. -/
theorem Inv.setWorker (inv : Inv t q) {old new : Worker κ} {completed : List (Job κ × Reply)}
    (busy : q.workers[w]? = some old)
    (hands : (q.completed.map Prod.fst ++ old.hand).Perm (completed.map Prod.fst ++ new.hand))
    (single : ∀ batch, new = .running batch → t.batchHandler = false → batch.length = 1)
    (exited : new = .exited → q.closing = true ∧ q.jobs = []) (errors : Nat) :
    Inv t { q.setWorker w new with completed := completed, handlerErrors := errors } := by
  obtain ⟨others, before, after⟩ := flatMap_setWorker Worker.hand busy new
  refine ⟨⟨inv.counted.bytes, inv.counted.ownerBytes, inv.counted.ownerTasks⟩, inv.capacity,
    inv.budget, inv.order, inv.tickets, ?_, ?_, ?_, ?_⟩
  · calc q.taken
        _ ~ q.completed.map Prod.fst ++ (old.hand ++ others) :=
          inv.hands.trans (before.append_left _)
        _ ~ completed.map Prod.fst ++ (new.hand ++ others) := by
          simpa using hands.append_right others
        _ ~ completed.map Prod.fst ++ (q.setWorker w new).workers.flatMap Worker.hand :=
          after.symm.append_left _
  · intro batch mem
    obtain mem | rfl := List.mem_or_eq_of_mem_set mem
    · exact inv.single batch mem
    · exact single batch rfl
  · intro mem
    obtain mem | rfl := List.mem_or_eq_of_mem_set mem
    · exact inv.exited mem
    · exact exited rfl
  · simpa [JobQueue.setWorker] using inv.threads

theorem Inv.take (inv : Inv t q) (h : take t q w = some q') : Inv t q' := by
  obtain ⟨idle, ⟨closing, empty, rfl⟩ | ⟨n, positive, enough, one, rfl⟩⟩ :=
    take_cases inv.counted h
  · exact inv.setWorker idle (by simp [Worker.hand]) (by simp) (fun _ => ⟨closing, empty⟩) _
  · obtain ⟨others, before, after⟩ := flatMap_setWorker Worker.hand idle (.running (q.jobs.take n))
    have parts : total q.jobs = total (q.jobs.take n) + total (q.jobs.drop n) := by
      conv_lhs => rw [← List.take_append_drop n q.jobs]
      rw [total, List.map_append, List.sum_append]
      rfl
    have bytes := inv.counted.bytes
    have budget := inv.budget
    have capacity := inv.capacity
    refine ⟨⟨rfl, rfl, rfl⟩, ?_, ?_, ?_, inv.tickets, ?_, ?_, ?_, ?_⟩
    · simp only [JobQueue.setWorker, dropJobs, List.length_drop]
      omega
    · simp only [JobQueue.setWorker, dropJobs]
      omega
    · simp only [JobQueue.setWorker, dropJobs, List.append_assoc, List.take_append_drop]
      exact inv.order
    · calc q.taken ++ q.jobs.take n
          _ ~ q.completed.map Prod.fst ++ others ++ q.jobs.take n :=
            (inv.hands.trans (before.append_left _)).append_right _
          _ ~ q.completed.map Prod.fst ++ (q.jobs.take n ++ others) := by
            rw [List.append_assoc]
            exact List.perm_append_comm.append_left _
          _ ~ _ := after.symm.append_left _
    · intro batch mem
      obtain mem | same := List.mem_or_eq_of_mem_set mem
      · exact inv.single batch mem
      · cases same
        intro single
        rw [List.length_take, one single]
        omega
    · intro mem
      obtain mem | impossible := List.mem_or_eq_of_mem_set mem
      · have := (inv.exited mem).2
        simp [this] at enough
        omega
      · cases impossible
    · simpa [JobQueue.setWorker, dropJobs] using inv.threads

theorem Inv.handle {h : Handled} (inv : Inv t q) (taken : handle t q w h = some q') :
    Inv t q' := by
  obtain ⟨batch, pairs, errors, busy, same, -, rfl⟩ := handle_cases taken fun batch busy =>
    inv.single batch (List.mem_of_getElem? busy)
  exact inv.setWorker busy (by simp [Worker.hand, same, JobQueue.setWorker]) (by simp) (by simp) _

theorem Inv.complete {job : Job κ} {reply : Reply} (inv : Inv t q)
    (h : q.complete w = some (job, reply, q')) : Inv t q' := by
  obtain ⟨rest, busy, rfl⟩ := complete_cases h
  refine inv.setWorker busy ?_ ?_ ?_ _
  · split
    case isTrue last => simp [Worker.hand, last]
    case isFalse => simp [Worker.hand]
  all_goals
    split
    all_goals simp

theorem Inv.step {a : Action κ} (inv : Inv t q) (h : step t q a = some q') : Inv t q' := by
  cases a with
  | submit input complete =>
    cases h
    exact inv.submit input complete
  | take w => exact inv.take h
  | handle w h' => exact inv.handle h
  | complete w =>
    obtain ⟨⟨job, reply, _⟩, completed, rfl⟩ := Option.map_eq_some_iff.mp h
    exact inv.complete completed
  | close =>
    cases h
    exact ⟨⟨inv.counted.bytes, inv.counted.ownerBytes, inv.counted.ownerTasks⟩, inv.capacity,
      inv.budget, inv.order, inv.tickets, inv.hands, inv.single,
      fun gone => ⟨rfl, (inv.exited gone).2⟩, inv.threads⟩

/-- The job was answered by a call of the handler in the run: the reply is the one at the
job's position in the batch. -/
def Answered (trace : List (JobQueue κ × Action κ)) (job : Job κ) (reply : Reply) : Prop :=
  ∃ q w h batch i, (q, Action.handle w h) ∈ trace ∧ q.workers[w]? = some (.running batch) ∧
    batch[i]? = some job ∧ h.Answers batch.length i reply

theorem Answered.append {trace : List (JobQueue κ × Action κ)} {job : Job κ} {reply : Reply}
    (h : Answered trace job reply) (e : JobQueue κ × Action κ) :
    Answered (trace ++ [e]) job reply := by
  obtain ⟨q, w, h, batch, i, mem, rest⟩ := h
  exact ⟨q, w, h, batch, i, by simp [mem], rest⟩

/-- Every reply a worker holds or has passed on was computed for its job. -/
def Genuine (trace : List (JobQueue κ × Action κ)) (q : JobQueue κ) : Prop :=
  ∀ job reply, ((job, reply) ∈ q.completed ∨ ∃ worker ∈ q.workers, (job, reply) ∈ worker.computed) →
    Answered trace job reply

theorem Genuine.step {trace : List (JobQueue κ × Action κ)} {a : Action κ} (inv : Inv t q)
    (genuine : Genuine trace q) (h : step t q a = some q') : Genuine (trace ++ [(q, a)]) q' := by
  intro job reply origin
  -- a reply that was there before keeps its origin
  have old := fun known => (genuine job reply known).append (q, a)
  cases a with
  | submit input complete =>
    cases h
    apply old
    unfold JobQueue.submit at origin
    split at origin
    all_goals exact origin
  | take w =>
    apply old
    obtain ⟨-, ⟨-, -, rfl⟩ | ⟨n, -, -, -, rfl⟩⟩ := take_cases inv.counted h
    all_goals
      refine origin.imp_right ?_
      rintro ⟨worker, mem, computed⟩
      obtain mem | rfl := List.mem_or_eq_of_mem_set mem
      · exact ⟨worker, mem, computed⟩
      · simp [Worker.computed] at computed
  | handle w h' =>
    obtain ⟨batch, pairs, errors, busy, -, answers, rfl⟩ := handle_cases h fun batch busy =>
      inv.single batch (List.mem_of_getElem? busy)
    obtain completed | ⟨worker, mem, computed⟩ := origin
    · exact old (.inl completed)
    obtain mem | rfl := List.mem_or_eq_of_mem_set mem
    · exact old (.inr ⟨worker, mem, computed⟩)
    · obtain ⟨i, at_i⟩ := List.mem_iff_getElem?.mp computed
      obtain ⟨at_job, answer⟩ := answers i job reply at_i
      exact ⟨q, w, h', batch, i, by simp, busy, at_job, answer⟩
  | complete w =>
    obtain ⟨⟨job', reply', _⟩, completes, rfl⟩ := Option.map_eq_some_iff.mp h
    obtain ⟨rest, busy, same⟩ := complete_cases completes
    have holder := List.mem_of_getElem? busy
    apply old
    subst same
    obtain completed | ⟨worker, mem, computed⟩ := origin
    · rw [List.mem_append, List.mem_singleton] at completed
      refine completed.imp_right ?_
      rintro ⟨⟩
      exact ⟨_, holder, by simp [Worker.computed]⟩
    · right
      obtain mem | rfl := List.mem_or_eq_of_mem_set mem
      · exact ⟨worker, mem, computed⟩
      · refine ⟨_, holder, ?_⟩
        split at computed
        · simp [Worker.computed] at computed
        · exact List.mem_cons_of_mem _ computed
  | close =>
    cases h
    exact old origin

/-- A run of I/O threads, workers and shutdown. -/
abbrev Runs (t : TcpServer ε) (trace : List (JobQueue κ × Action κ)) (q : JobQueue κ) : Prop :=
  Run (fun q a q' => step t q a = some q') (fun _ => False) (initial t) trace q

theorem Runs.inv {trace : List (JobQueue κ × Action κ)} (run : Runs t trace q) :
    Inv t q ∧ Genuine trace q := by
  refine run.invariant (fun trace q => Inv t q ∧ Genuine trace q) (fun _ _ => True)
    ⟨.initial t, ?_⟩ ?_ (fun _ _ => trivial)
  · rintro job reply (completed | ⟨worker, mem, computed⟩)
    · simp [initial] at completed
    · rw [initial, List.mem_replicate] at mem
      simp [mem.2, Worker.computed] at computed
  · rintro trace q a q' ⟨inv, genuine⟩ - taken
    exact ⟨inv.step taken, genuine.step inv taken⟩

theorem Inv.nodup (inv : Inv t q) : q.accepted.Nodup := by
  apply List.Nodup.of_map Job.ticket
  rw [inv.tickets]
  exact List.nodup_range

/-- The jobs `Submit` accepted in the run. -/
def acceptedIn (t : TcpServer ε) (trace : List (JobQueue κ × Action κ)) : List (Bytes × κ) :=
  trace.filterMap fun
    | (q, .submit input complete) => if q.Full t input then none else some (input, complete)
    | _ => none

theorem acceptedIn_step {trace : List (JobQueue κ × Action κ)} {a : Action κ} (inv : Inv t q)
    (same : q.accepted.map (fun job => (job.input, job.complete)) = acceptedIn t trace)
    (h : step t q a = some q') :
    q'.accepted.map (fun job => (job.input, job.complete)) =
      acceptedIn t (trace ++ [(q, a)]) := by
  rw [acceptedIn, List.filterMap_append, ← acceptedIn, ← same]
  cases a with
  | submit input complete =>
    cases h
    by_cases full : q.Full t input
    all_goals simp [submit, full, enqueue]
  | take w =>
    obtain ⟨-, ⟨-, -, rfl⟩ | ⟨n, -, -, -, rfl⟩⟩ := take_cases inv.counted h
    all_goals simp [setWorker, dropJobs]
  | handle w h' =>
    obtain ⟨batch, pairs, errors, -, -, -, rfl⟩ := handle_cases h fun batch busy =>
      inv.single batch (List.mem_of_getElem? busy)
    simp [setWorker]
  | complete w =>
    obtain ⟨⟨job, reply, _⟩, completes, rfl⟩ := Option.map_eq_some_iff.mp h
    obtain ⟨rest, -, same⟩ := complete_cases completes
    subst same
    simp [setWorker]
  | close =>
    cases h
    simp [close]

theorem Inv.places (inv : Inv t q) :
    q.accepted ~ q.completed.map Prod.fst ++ q.workers.flatMap Worker.hand ++ q.jobs := by
  rw [inv.order]
  exact inv.hands.append_right q.jobs

theorem Inv.drained (inv : Inv t q) (gone : ∀ worker ∈ q.workers, worker = .exited) :
    q.closing = true ∧ q.jobs = [] ∧ q.workers.flatMap Worker.hand = [] := by
  obtain ⟨worker, mem⟩ : ∃ worker, worker ∈ q.workers := by
    apply List.exists_mem_of_length_pos
    rw [inv.threads]
    exact t.threads_pos
  obtain ⟨closing, empty⟩ := inv.exited (gone worker mem ▸ mem)
  refine ⟨closing, empty, ?_⟩
  rw [List.flatMap_eq_nil_iff]
  intro worker mem
  rw [gone worker mem]
  rfl

/-- **The job queue.** In every state of every run the counters agree with the queue and
stay within their limits, jobs leave the queue in the order they were accepted, every
accepted job is in exactly one place, a completion is invoked at most once and with the
reply computed for its job, and once all workers have exited every accepted job has been
completed. -/
theorem jobs_completed_exactly_once (t : TcpServer ε) {trace : List (JobQueue κ × Action κ)}
    {q : JobQueue κ} (run : Runs t trace q) :
    (q.queuedBytes = total q.jobs ∧ q.queuedBytes ≤ t.options.queueBytes ∧
      q.jobs.length ≤ t.options.queueCapacity) ∧
    (q.ownerTasks = q.jobs.length ∧ q.ownerBytes = q.queuedBytes) ∧
    (q.accepted.map (fun job => (job.input, job.complete)) = acceptedIn t trace ∧
      q.accepted = q.taken ++ q.jobs ∧
      q.accepted ~ q.completed.map Prod.fst ++ q.workers.flatMap Worker.hand ++ q.jobs) ∧
    (q.accepted.Nodup ∧ (q.completed.map Prod.fst).Nodup ∧
      ∀ job reply, (job, reply) ∈ q.completed → Answered trace job reply) ∧
    ((∀ worker ∈ q.workers, worker = .exited) →
      q.closing = true ∧ q.jobs = [] ∧ q.completed.map Prod.fst ~ q.accepted) := by
  obtain ⟨inv, genuine⟩ := run.inv
  have sources : q.accepted.map (fun job => (job.input, job.complete)) = acceptedIn t trace := by
    refine (run.invariant (fun trace q => Inv t q ∧
      q.accepted.map (fun job => (job.input, job.complete)) = acceptedIn t trace)
      (fun _ _ => True) ⟨.initial t, rfl⟩ ?_ (fun _ _ => trivial)).2
    rintro trace q a q' ⟨inv, same⟩ - taken
    exact ⟨inv.step taken, acceptedIn_step inv same taken⟩
  have spread := inv.places
  have once : (q.completed.map Prod.fst).Nodup := by
    have all := spread.nodup_iff.mp inv.nodup
    exact (List.nodup_append.mp (List.nodup_append.mp all).1).1
  refine ⟨⟨inv.counted.bytes, inv.budget, inv.capacity⟩,
    ⟨inv.counted.ownerTasks, inv.counted.ownerBytes.trans inv.counted.bytes.symm⟩,
    ⟨sources, inv.order, spread⟩,
    ⟨inv.nodup, once, fun job reply completed => genuine job reply (.inl completed)⟩, ?_⟩
  intro gone
  obtain ⟨closing, empty, idle⟩ := inv.drained gone
  rw [idle, empty, List.append_nil, List.append_nil] at spread
  exact ⟨closing, empty, spread.symm⟩

/-- Two requests, a handler that answers the first and closes the second, and shutdown. -/
theorem jobs_completed_exactly_once_shutdown :
    ∃ trace, ∃ q : JobQueue Nat, Runs (kvServer true) trace q ∧
      q.completed = [(⟨[1, 2], 0, 0⟩, ⟨2, [7], false⟩), (⟨[3], 1, 1⟩, closeReply)] ∧
      q.completed.map Prod.fst ~ q.accepted := by
  have run := Run.of_replay (step (kvServer true)) (initial (kvServer true) : JobQueue Nat)
    [.submit [1, 2] 0, .submit [3] 1, .take 0, .handle 0 (.batch [⟨2, [7], false⟩, closeReply]),
      .complete 0, .complete 0, .close, .take 0] rfl
  refine ⟨_, _, run, rfl, ((jobs_completed_exactly_once _ run).2.2.2.2 ?_).2.2⟩
  decide

end JobQueue
end KVRPC.Server
