import KVRPC.Server.Fragmentation
import KVRPC.Server.Orderly

/-!
# Replies in request order

When a connection may have one job at a time, the handler is called with its frames in the
order they were received, and the replies go out in the same order: at all times the octets
delivered are the beginning of the replies computed so far.
-/
namespace KVRPC.Server

open Library Net Relation Library.Framing
open scoped List

variable {ε : Type} {t : TcpServer ε} {sizer : Sizer ε} {s s' : State} {c d : Nat} {v w : View}

namespace State

/-- The handler's calls for connection `c`, each job with its reply. -/
def answered (s : State) (c : Nat) : List (Job Completion × Reply) :=
  s.handled.filter fun p => p.1.complete.conn = c

/-- The jobs of connection `c` the handler has not returned from. -/
def upcoming (s : State) (c : Nat) : List (Job Completion) := s.running c ++ s.queued c

/-- The replies on their way to the loop of connection `c`. -/
def returning (t : TcpServer ε) (s : State) (c : Nat) : List (Job Completion × Reply) :=
  s.computed c ++ s.posted t c

theorem flights_length :
    (s.flights t c).length = (s.upcoming c).length + (s.returning t c).length := by
  simp only [flights, upcoming, returning, List.length_append, List.length_map]
  omega

end State

/-- What has been put in the output and not been sent. -/
def Connection.unsent (conn : Connection) : Bytes := conn.peer.output.flatten.drop conn.peer.sent

/-- The octets of the replies. -/
def replyBytes (pairs : List (Job Completion × Reply)) : Bytes :=
  (pairs.map fun p => p.2.bytes).flatten

theorem replyBytes_append (l l' : List (Job Completion × Reply)) :
    replyBytes (l ++ l') = replyBytes l ++ replyBytes l' := by
  simp [replyBytes]

/-- Requests and replies of a connection, against what has become of its jobs. -/
structure InOrder (conn : Connection) (answered : List (Job Completion × Reply))
    (upcoming : List (Job Completion)) (returning : List (Job Completion × Reply)) : Prop where
  requests : (answered.map Prod.fst ++ upcoming).map Job.input <+: conn.submitted
  all : conn.peer.closed = false →
    (answered.map Prod.fst ++ upcoming).map Job.input = conn.submitted
  delivered : conn.delivered <+: replyBytes answered
  replies : conn.peer.closed = false →
    conn.delivered ++ conn.unsent ++ replyBytes returning = replyBytes answered

namespace InOrder

variable {conn conn' : Connection} {answered : List (Job Completion × Reply)}
  {upcoming : List (Job Completion)} {returning : List (Job Completion × Reply)}

/-- An open connection in terms of equations. -/
theorem of_eq (all : (answered.map Prod.fst ++ upcoming).map Job.input = conn.submitted)
    (replies : conn.delivered ++ conn.unsent ++ replyBytes returning = replyBytes answered) :
    InOrder conn answered upcoming returning where
  requests := all ▸ List.prefix_rfl
  all _ := all
  delivered := by
    rw [← replies, List.append_assoc]
    exact List.prefix_append _ _
  replies _ := replies

/-- A closed connection sends nothing more. -/
theorem close (h : InOrder conn answered upcoming returning) (closed : conn'.peer.closed = true)
    (submitted : conn.submitted <+: conn'.submitted) (delivered : conn'.delivered = conn.delivered)
    (returning' : List (Job Completion × Reply)) :
    InOrder conn' answered upcoming returning' where
  requests := h.requests.trans submitted
  all alive := by simp [closed] at alive
  delivered := delivered ▸ h.delivered
  replies alive := by simp [closed] at alive

theorem closes (h : InOrder v.conn answered upcoming returning)
    (alive : v.conn.peer.closed = false) (reason : CloseReason)
    (returning' : List (Job Completion × Reply)) :
    InOrder (v.close reason).conn answered upcoming returning' := by
  refine h.close View.closed_close ?_ ?_ _
  all_goals rw [View.conn_close alive]

/-- The rest of the connection does not matter. -/
theorem congr (h : InOrder conn answered upcoming returning)
    (closed : conn'.peer.closed = conn.peer.closed)
    (submitted : conn'.submitted = conn.submitted) (delivered : conn'.delivered = conn.delivered)
    (unsent : conn'.unsent = conn.unsent) : InOrder conn' answered upcoming returning where
  requests := submitted ▸ h.requests
  all alive := submitted ▸ h.all (closed ▸ alive)
  delivered := delivered ▸ h.delivered
  replies alive := by
    rw [delivered, unsent]
    exact h.replies (closed ▸ alive)

/-- `send` takes octets off the front of what is left. -/
theorem unsent_wrote (outbox : Outbox v.conn.peer) {bytes : Bytes} {rest : List Bytes} {n : Nat}
    (front : v.conn.peer.output = bytes :: rest) (fits : n ≤ usub bytes.length v.conn.peer.sent) :
    (v.wrote c bytes rest n).conn.delivered ++ (v.wrote c bytes rest n).conn.unsent =
      v.conn.delivered ++ v.conn.unsent := by
  have inside := outbox.cursor bytes rest front
  rw [usub_of_le inside.le] at fits
  have before : v.conn.unsent = bytes.drop v.conn.peer.sent ++ rest.flatten := by
    rw [Connection.unsent, front, List.flatten_cons, List.drop_append_of_le_length inside.le]
  unfold View.wrote
  split
  case isTrue done =>
    have whole : (bytes.drop v.conn.peer.sent).take n = bytes.drop v.conn.peer.sent := by
      apply List.take_of_length_le
      rw [List.length_drop]
      omega
    rw [before]
    simp [View.popFront, View.deadline, View.advance, Connection.unsent, whole]
  case isFalse more =>
    have after : ((v.advance bytes n).conn.unsent) =
        bytes.drop (v.conn.peer.sent + n) ++ rest.flatten := by
      simp only [Connection.unsent, View.advance, front, List.flatten_cons]
      rw [List.drop_append_of_le_length (by omega)]
    have delivered : (v.advance bytes n).conn.delivered =
        v.conn.delivered ++ (bytes.drop v.conn.peer.sent).take n := rfl
    rw [after, delivered, before, ← List.drop_drop, List.append_assoc,
      ← List.append_assoc (List.take _ _), List.take_append_drop]

/-- A reply joins what is left to send. -/
theorem unsent_absorb (outbox : Outbox v.conn.peer) (job : Job Completion) (reply : Reply) :
    (v.retract.absorb job reply).conn.unsent = v.conn.unsent ++ reply.bytes := by
  have total := outbox.total
  unfold Connection.unsent
  by_cases none : reply.bytes = []
  · simp [View.absorb, View.retract, none]
  · simp only [View.absorb, View.retract, none, if_false, List.flatten_append,
      List.flatten_cons, List.flatten_nil, List.append_nil]
    rw [List.drop_append_of_le_length (by omega)]

theorem move (h : InOrder v.conn answered upcoming returning) (outbox : Outbox v.conn.peer)
    (alive : v.conn.peer.closed = false) (m : View.Move t c v w) {new : List (Job Completion)}
    (jobs : w.queue.jobs = v.queue.jobs ++ new) :
    InOrder w.conn answered (upcoming ++ new) returning := by
  have unchanged : w.queue = v.queue → new = [] := by
    intro same
    rwa [same, List.self_eq_append_right] at jobs
  cases m with
  | @wrote bytes rest n front _ fits =>
    rw [unchanged (by simp), List.append_nil]
    refine of_eq ((h.all alive).trans ?_) ?_
    · unfold View.wrote
      split <;> rfl
    · rw [unsent_wrote outbox front fits]
      exact h.replies alive
  | received _ _ _ _ _ =>
    rw [unchanged rfl, List.append_nil]
    exact h.congr rfl rfl rfl rfl
  | ended _ _ =>
    rw [unchanged rfl, List.append_nil]
    exact h.congr rfl rfl rfl rfl
  | @accepted size cuts _ =>
    have one : new = [_] := (List.append_cancel_left jobs).symm
    rw [one]
    refine of_eq ?_ (h.replies alive)
    rw [← List.append_assoc, List.map_append, h.all alive]
    rfl
  | @rejected size cuts _ =>
    rw [unchanged (by simp), List.append_nil]
    have conn : (v.reject t size).conn =
        { (v.offer t size).conn with peer.closed := true, closedBy := some .rejected } :=
      View.conn_close alive
    have closed : (v.reject t size).conn.peer.closed = true := View.closed_close
    refine h.close closed ?_ ?_ _
    · rw [conn]
      exact List.prefix_append _ _
    · rw [conn]
      rfl
  | closed _ =>
    rw [unchanged (by simp), List.append_nil]
    exact h.closes alive _ _
  | scheduled =>
    rw [unchanged (by simp), List.append_nil]
    unfold View.schedule
    split <;> exact h.congr rfl rfl rfl rfl
  | interest _ =>
    rw [unchanged rfl, List.append_nil]
    exact h.congr rfl rfl rfl rfl

/-- The only reply on its way is put in the output. -/
theorem absorb {job : Job Completion} {reply : Reply}
    (h : InOrder v.conn answered upcoming [(job, reply)]) (outbox : Outbox v.conn.peer)
    (alive : v.conn.peer.closed = false) :
    InOrder (v.retract.absorb job reply).conn answered upcoming [] := by
  refine of_eq (h.all alive) ?_
  have replies := h.replies alive
  simp only [replyBytes, List.map_cons, List.map_nil, List.flatten_cons, List.flatten_nil,
    List.append_nil] at replies ⊢
  rw [unsent_absorb outbox, ← List.append_assoc]
  exact replies

end InOrder

/-- Every connection is in order. -/
def AllInOrder (t : TcpServer ε) (s : State) : Prop :=
  ∀ c, InOrder (s.conns c) (s.answered c) (s.upcoming c) (s.returning t c)

/-- Lists of at most one element have no order to lose. -/
theorem eq_of_perm_of_short {α : Type} {l l' : List α} (h : l ~ l') (short : l.length ≤ 1) :
    l = l' := by
  match l with
  | [] => exact (List.nil_perm.mp h).symm
  | [a] => exact (List.singleton_perm.mp h)
  | _ :: _ :: _ => simp at short

theorem AllServed.short (served : AllServed t s) (one : t.limit = 1) (c : Nat) :
    (s.upcoming c).length + (s.returning t c).length ≤ 1 := by
  have limit := (served c).limit
  rwa [State.flights_length, one] at limit

namespace State

theorem upcoming_take (counted : s.queue.Counted) {worker : Nat} {queue : JobQueue Completion}
    (taken : s.queue.take t worker = some queue) (d : Nat) :
    ({ s with queue := queue } : State).upcoming d ~ s.upcoming d ∧
      ({ s with queue := queue } : State).returning t d ~ s.returning t d := by
  obtain ⟨n, jobs, -, -, batches, replies⟩ := JobQueue.take_lists counted taken
  refine ⟨?_, (replies.filter _).append_right _⟩
  rw [List.perm_iff_count]
  intro j
  have moved := (batches.filter fun job => job.complete.conn = d).count_eq j
  have parts := congrArg (fun l => (l.filter fun job => decide (job.complete.conn = d)).count j)
    (List.take_append_drop n s.queue.jobs)
  simp only [List.filter_append, List.count_append] at moved parts
  simp only [upcoming, queued, running, jobs, List.count_append]
  omega

theorem upcoming_handle (inv : JobQueue.Inv t s.queue) {worker : Nat} {h : Handled}
    {queue : JobQueue Completion} (called : s.queue.handle t worker h = some queue)
    (handled : List (Job Completion × Reply)) (d : Nat) :
    let pairs := ((queue.workers[worker]?.map Worker.computed).getD []).filter fun p =>
      p.1.complete.conn = d
    s.upcoming d ~ pairs.map Prod.fst ++
        ({ s with queue := queue, handled := handled } : State).upcoming d ∧
      ({ s with queue := queue, handled := handled } : State).returning t d ~
        s.returning t d ++ pairs := by
  obtain ⟨pairs, others, jobs, -, -, computed, before, after, replies⟩ :=
    JobQueue.handle_lists inv called
  rw [computed]
  dsimp only
  constructor
  all_goals
    rw [List.perm_iff_count]
    intro j
  · have had := (before.filter fun job => job.complete.conn = d).count_eq j
    have left := (after.filter fun job => job.complete.conn = d).count_eq j
    have same : (pairs.filter fun p => decide (p.1.complete.conn = d)).map Prod.fst =
        (pairs.map Prod.fst).filter fun job => decide (job.complete.conn = d) := by
      rw [List.filter_map]
      rfl
    simp only [List.filter_append, List.count_append] at had
    simp only [upcoming, queued, running, jobs, List.count_append, same]
    omega
  · have got := (replies.filter fun p => p.1.complete.conn = d).count_eq j
    simp only [List.filter_append, List.count_append] at got
    simp only [returning, State.computed, posted, List.count_append]
    omega

theorem upcoming_complete {worker : Nat} {job : Job Completion} {reply : Reply}
    {queue : JobQueue Completion} (completed : s.queue.complete worker = some (job, reply, queue))
    (d : Nat) :
    let s' := ({ s with queue := queue } : State).post (t.home job.complete.conn) (.reply job reply)
    s'.upcoming d ~ s.upcoming d ∧ s'.returning t d ~ s.returning t d := by
  obtain ⟨jobs, -, -, batches, replies⟩ := JobQueue.complete_lists completed
  refine ⟨?_, ?_⟩
  · simp only [upcoming, queued, running, post, setIo, jobs]
    exact (batches.filter _).append_right _
  · rw [List.perm_iff_count]
    intro j
    have had := (replies.filter fun p => p.1.complete.conn = d).count_eq j
    rw [returning, posted_post]
    simp only [returning, computed, posted, post, setIo, List.count_append]
    by_cases own : job.complete.conn = d
    · simp only [List.filter_cons, own, decide_true, if_true, List.count_cons] at had
      simp only [own, if_true, List.count_cons, List.count_nil]
      omega
    · simp only [List.filter_cons, own, decide_false, Bool.false_eq_true, if_false] at had
      simp only [Ne.symm own, if_false, List.count_nil]
      omega

/-- Neither the queue nor the replies on the way have changed. -/
theorem lists_congr (jobs : s'.queue.jobs = s.queue.jobs)
    (workers : s'.queue.workers = s.queue.workers)
    (replies : ∀ i, (s'.ios i).replies = (s.ios i).replies) (d : Nat) :
    s'.upcoming d = s.upcoming d ∧ s'.returning t d = s.returning t d := by
  simp only [upcoming, returning, queued, running, computed, posted, JobQueue.batches,
    JobQueue.replies, jobs, workers, replies, and_self]

theorem replies_setIo {i : Nat} {io : Io} (replies : io.replies = (s.ios i).replies) (j : Nat) :
    ((s.setIo i io).ios j).replies = (s.ios j).replies := by
  simp only [setIo, Function.update_apply]
  split_ifs with same
  · rw [same, replies]
  · rfl

theorem replies_on {f : View → View}
    (replies : (f (s.view t c)).io.replies = (s.ios (t.home c)).replies) (j : Nat) :
    ((s.on t c f).ios j).replies = (s.ios j).replies := by
  simp only [on, put, Function.update_apply]
  split_ifs with same
  · rw [same, replies]
  · rfl

/-- A task that carries no reply leaves the queue of its loop. -/
theorem replies_setTasks {i : Nat} {task : Task} {rest : List Task}
    (head : (s.ios i).loop.tasks = task :: rest) (other : ∀ job reply, task ≠ .reply job reply)
    (j : Nat) : ((s.setTasks i rest).ios j).replies = (s.ios j).replies := by
  refine replies_setIo ?_ j
  unfold Io.replies
  rw [head]
  cases task with
  | reply job reply => exact absurd rfl (other job reply)
  | _ => rfl

theorem returning_pop {i : Nat} {job : Job Completion} {reply : Reply} {rest : List Task}
    (head : (s.ios i).loop.tasks = .reply job reply :: rest)
    (home : t.home job.complete.conn = i) (d : Nat) :
    s.returning t d ~ (if d = job.complete.conn then [(job, reply)] else []) ++
      (s.setTasks i rest).returning t d := by
  have computed : (s.setTasks i rest).computed d = s.computed d := rfl
  rw [returning, returning, posted_pop head home, computed]
  exact List.perm_append_comm_assoc _ _ _

/-- One connection changes, and none of the lists. -/
theorem lists_on {f : View → View} (queue : (f (s.view t c)).queue = s.queue)
    (replies : (f (s.view t c)).io.replies = (s.ios (t.home c)).replies) (d : Nat) :
    (s.on t c f).upcoming d = s.upcoming d ∧ (s.on t c f).returning t d = s.returning t d :=
  lists_congr (congrArg JobQueue.jobs queue) (congrArg JobQueue.workers queue)
    (replies_on replies) d

/-- What a move of connection `c` adds to the lists: the jobs it has put in the queue. -/
theorem lists_put (m : View.Move t c (s.view t c) w) : ∃ new,
    w.queue.jobs = s.queue.jobs ++ new ∧ ∀ d,
      (s.put t c w).upcoming d = (s.upcoming d ++ if d = c then new else []) ∧
      (s.put t c w).returning t d = s.returning t d := by
  obtain ⟨new, jobs, workers, own⟩ := m.jobs
  refine ⟨new, jobs, fun d => ⟨?_, ?_⟩⟩
  · rw [upcoming, running_put workers, queued_put jobs own, ← List.append_assoc]
    rfl
  · rw [returning, computed_put workers, posted_put m.replies_eq]
    rfl

end State

namespace AllInOrder

theorem initial (t : TcpServer ε) : AllInOrder t (State.initial t) := by
  intro c
  have none : (State.initial t).flights t c = [] := State.flights_initial
  simp only [State.flights, List.append_eq_nil_iff, List.map_eq_nil_iff] at none
  obtain ⟨⟨queued, running⟩, computed, posted⟩ := none
  rw [State.upcoming, State.returning, queued, running, computed, posted]
  exact .of_eq rfl rfl

/-- Nothing about requests and replies has changed. -/
theorem congr (h : AllInOrder t s) (conns : s'.conns = s.conns) (handled : s'.handled = s.handled)
    (jobs : s'.queue.jobs = s.queue.jobs) (workers : s'.queue.workers = s.queue.workers)
    (replies : ∀ i, (s'.ios i).replies = (s.ios i).replies) : AllInOrder t s' := by
  intro d
  obtain ⟨upcoming, returning⟩ := State.lists_congr (t := t) jobs workers replies d
  rw [conns, State.answered, handled, upcoming, returning]
  exact h d

/-- The jobs of every connection have moved on, and there was one at most. -/
theorem of_perm (h : AllInOrder t s) (served : AllServed t s) (one : t.limit = 1)
    (conns : s'.conns = s.conns) (handled : s'.handled = s.handled)
    (moved : ∀ d, s'.upcoming d ~ s.upcoming d ∧ s'.returning t d ~ s.returning t d) :
    AllInOrder t s' := by
  intro d
  have short := served.short one d
  have upcoming := eq_of_perm_of_short (moved d).1.symm (by omega)
  have returning := eq_of_perm_of_short (moved d).2.symm (by omega)
  rw [conns, State.answered, handled, ← upcoming, ← returning]
  exact h d

theorem on (h : AllInOrder t s) (f : View → View) (queue : (f (s.view t c)).queue = s.queue)
    (replies : (f (s.view t c)).io.replies = (s.ios (t.home c)).replies)
    (own : ∀ {A U R}, InOrder (s.conns c) A U R → InOrder (f (s.view t c)).conn A U R) :
    AllInOrder t (s.on t c f) := by
  intro d
  obtain ⟨upcoming, returning⟩ := State.lists_on queue replies d
  rw [upcoming, returning, State.on, State.conns_put]
  split_ifs with same
  · subst same
    exact own (h d)
  · exact h d

theorem move (h : AllInOrder t s) (outbox : Outbox (s.conns c).peer)
    (alive : (s.conns c).peer.closed = false) (m : View.Move t c (s.view t c) w) :
    AllInOrder t (s.put t c w) := by
  intro d
  obtain ⟨new, jobs, lists⟩ := State.lists_put m
  rw [(lists d).1, (lists d).2, State.conns_put]
  split_ifs with same
  · subst same
    exact (h d).move outbox alive m jobs
  · rw [List.append_nil]
    exact h d

theorem setTasks (h : AllInOrder t s) {i : Nat} {task : Task} {rest : List Task}
    (head : (s.ios i).loop.tasks = task :: rest) (other : ∀ job reply, task ≠ .reply job reply) :
    AllInOrder t (s.setTasks i rest) :=
  h.congr rfl rfl rfl rfl (State.replies_setTasks head other)

/-- A reply is taken off the queue of its loop and its connection changes. -/
theorem pop (h : AllInOrder t s) (base : Base t s) (served : AllServed t s) (one : t.limit = 1)
    {i : Nat} {job : Job Completion} {reply : Reply}
    {rest : List Task} (head : (s.ios i).loop.tasks = .reply job reply :: rest) (f : View → View)
    (queue : ∀ v, (f v).queue = v.queue) (replies : ∀ v, (f v).io.replies = v.io.replies)
    (own : InOrder (s.conns job.complete.conn) (s.answered job.complete.conn)
        (s.upcoming job.complete.conn) [(job, reply)] →
      InOrder (f ((s.setTasks i rest).view t job.complete.conn)).conn
        (s.answered job.complete.conn) (s.upcoming job.complete.conn) []) :
    AllInOrder t ((s.setTasks i rest).on t job.complete.conn f) := by
  intro d
  have home := base.homed i (job, reply) (by simp [Io.replies, head])
  obtain ⟨upcoming, returning⟩ := State.lists_on (s := s.setTasks i rest) (t := t)
    (c := job.complete.conn) (queue _) (replies _) d
  have kept : (s.setTasks i rest).upcoming d = s.upcoming d := rfl
  rw [upcoming, returning, kept, State.on, State.conns_put]
  have old := h d
  have short := served.short one d
  have popped := eq_of_perm_of_short (State.returning_pop head home d) (by omega)
  rw [popped] at old short
  split_ifs at old short ⊢ with same
  · subst same
    -- it was the only one
    have last : (s.setTasks i rest).returning t job.complete.conn = [] := by
      rw [List.length_append, List.length_singleton] at short
      exact List.length_eq_zero_iff.mp (by omega)
    rw [last] at old ⊢
    exact own old
  · exact old

/-- The handler returns: the replies follow those before, as their jobs did. -/
theorem handle (h : AllInOrder t s) (base : Base t s) (served : AllServed t s)
    (one : t.limit = 1) {worker : Nat} {outcome : Handled} {queue : JobQueue Completion}
    (called : s.queue.handle t worker outcome = some queue) :
    AllInOrder t { s with
      queue := queue
      handled := s.handled ++ (queue.workers[worker]?.map Worker.computed).getD [] } := by
  intro d
  obtain ⟨upcoming, returning⟩ := State.upcoming_handle base.queue called
    (s.handled ++ (queue.workers[worker]?.map Worker.computed).getD []) d
  have short := served.short one d
  have lengths := upcoming.length_eq
  rw [List.length_append, List.length_map] at lengths
  have old := h d
  rw [eq_of_perm_of_short upcoming (by omega)] at old
  rw [← eq_of_perm_of_short returning.symm (by rw [List.length_append]; omega)]
  have requests := old.requests
  have all := old.all
  rw [← List.append_assoc, ← List.map_append] at requests all
  refine ⟨?_, ?_, ?_, ?_⟩
  all_goals rw [State.answered, List.filter_append]
  · exact requests
  · exact all
  · rw [replyBytes_append]
    exact old.delivered.trans (List.prefix_append _ _)
  · intro alive
    rw [replyBytes_append, replyBytes_append, ← List.append_assoc, old.replies alive]
    rfl

theorem act (one : t.limit = 1) (h : AllInOrder t s) (base : Base t s) (served : AllServed t s)
    (orderly : ∀ c, Orderly t (s.conns c)) (act : Act t s s') : AllInOrder t s' := by
  cases act with
  | move _ alive m => exact h.move (orderly _).outbox alive m
  | attach head =>
    exact (h.setTasks head (by simp)).on _ rfl rfl fun old => old.congr rfl rfl rfl rfl
  | resume head =>
    exact (h.setTasks head (by simp)).on _ rfl rfl fun old => old.congr rfl rfl rfl rfl
  | @drop i job reply rest head gone =>
    have ignored := h.pop base served one head id (fun _ => rfl) (fun _ => rfl) fun old =>
      old.close gone List.prefix_rfl rfl _
    rwa [State.on, id, State.put_view] at ignored
  | @refuse i job reply rest head _ alive _ =>
    refine h.pop base served one head (fun v => v.retract.close .reply) (fun v => ?_) (fun v => ?_)
      fun old => ?_
    · rw [View.queue_close]
      rfl
    · rw [View.replies_close]
      rfl
    · exact InOrder.closes (old.congr rfl rfl rfl rfl) alive .reply []
  | @absorb i job reply rest head _ alive _ =>
    exact h.pop base served one head (fun v => v.retract.absorb job reply) (fun _ => rfl)
      (fun _ => rfl) fun old => old.absorb (orderly _).outbox alive
  | @expire i id _ _ =>
    exact h.congr rfl rfl rfl rfl (State.replies_setIo rfl)
  | accept _ =>
    unfold State.accept
    split
    · exact h
    · refine h.congr rfl rfl rfl rfl (State.replies_setIo ?_)
      simp [Io.replies, Reactor.post]
  | take taken =>
    exact h.of_perm served one rfl rfl fun d => State.upcoming_take base.queue.counted taken d
  | handle called => exact h.handle base served one called
  | complete completed =>
    exact h.of_perm served one rfl rfl fun d => State.upcoming_complete completed d
  | closing => exact h.congr rfl rfl rfl rfl fun _ => rfl
  | join _ _ =>
    refine h.congr rfl rfl rfl rfl fun i => ?_
    dsimp only
    split
    · simp [Io.replies, Reactor.post]
    · rfl
  | closeAll head => exact h.setTasks head (by simp)
  | stop => exact h.congr rfl rfl rfl rfl (State.replies_setIo rfl)

end AllInOrder

/-- **Replies in request order.** With a frame sizer and one job per connection at a time, on
every connection of every run: the handler has been called with the first frames of the
received stream, in order and each once; the octets delivered are a prefix of its replies to
them, in the same order; and at most one job is queued or running. -/
theorem replies_in_request_order {ε : Type} {sizer : Sizer ε} (lawful : Lawful sizer)
    (t : TcpServer ε) (installed : t.sizer = some sizer) (one : t.limit = 1)
    {trace : List (State × Event)} {s : State} (run : State.Runs t trace s) (c : Nat)
    {frames : List Bytes} {rest : Bytes} (parsed : Parse sizer (s.conns c).received frames rest) :
    (s.answered c).map (fun p => p.1.input) <+: frames ∧
    (s.conns c).delivered <+: ((s.answered c).map fun p => p.2.bytes).flatten ∧
    (s.queued c ++ s.running c).length ≤ 1 := by
  obtain ⟨served, framed⟩ := Framed.of_run lawful installed run
  obtain ⟨-, -, -, -, ordered⟩ := run.invariant
    (fun s => (∀ c, Orderly t (s.conns c)) ∧ AllInOrder t s)
    ⟨fun _ => .initial, .initial t⟩
    (fun base served h act => ⟨Orderly.act h.1 base served act, h.2.act one base served h.1 act⟩)
  have cut := frames_prefix lawful List.prefix_rfl (framed c).split (framed c).frames parsed
  refine ⟨?_, (ordered c).delivered, ?_⟩
  · have requests := (ordered c).requests
    rw [List.map_append, List.map_map] at requests
    exact ((List.prefix_append _ _).trans requests).trans cut
  · have short := served.short one c
    rw [State.upcoming, List.length_append] at short
    rw [List.length_append]
    omega

/-- Requests of two connections are answered in one batch, and a second request of the first
connection after it. -/
theorem replies_in_request_order_batch :
    ∃ trace s, State.Runs (kvServer true) trace s ∧
      (s.answered 0).map (fun p => p.2.bytes) = [[7, 8], [9]] ∧
      (s.conns 0).delivered = [7, 8] ∧
      (s.conns 0).delivered <+: ((s.answered 0).map fun p => p.2.bytes).flatten := by
  have run := Run.replays (State.step (kvServer true)) (State.initial (kvServer true))
    [.accept, .task 0 {}, .accept, .task 1 {},
      .ready 0 1 false { receives := [.data [0xca, 0xfe, 1, 2, 0, 0, 0, 1, 0, 0, 0, 0, 65,
        0xca, 0xfe, 1, 2, 0, 0, 0, 1, 0, 0, 0, 0, 66]] },
      .ready 1 1 false { receives := [.data [0xca, 0xfe, 1, 2, 0, 0, 0, 1, 0, 0, 0, 0, 67]] },
      .take 0, .handle 0 (.batch [⟨13, [7, 8], false⟩, ⟨13, [5], false⟩]), .complete 0,
      .complete 0, .task 0 { sends := [.wrote 1, .wrote 1] }, .take 0,
      .handle 0 (.batch [⟨13, [9], false⟩])] (by decide +kernel)
  have ordered := replies_in_request_order kvFrameSize_lawful (kvServer true) rfl rfl run 0
    (parse_spec kvFrameSize_lawful _)
  exact ⟨_, _, run, by decide +kernel, by decide +kernel, ordered.2.1⟩

end KVRPC.Server
