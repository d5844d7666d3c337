import KVRPC.Server.Order
import KVRPC.Server.RpcServer
import KVRPC.Server.Serial
import Mathlib.Data.List.Perm.Subperm

/-!
# Replies of a pipelined connection

A connection may have several jobs on their way, and their replies come back in any order. Each
accepted frame is still handled at most once, and the output is made of whole replies, each of
them once. `Pipelined` lists the calls of the handler in the order their replies were put in the
output; a step of the server adds one call to the list or none (`Tracks.act`).
-/
namespace KVRPC.Server

open Library Net Relation Library.Framing
open scoped List

variable {ε : Type} {t : TcpServer ε} {s s' : State} {c d : Nat} {v w : View}

/-- The calls in `sent` have been put in the output, those in `returning` not yet. -/
structure Pipelined (conn : Connection) (sent answered : List (Job Completion × Reply))
    (upcoming : List (Job Completion)) (returning : List (Job Completion × Reply)) : Prop where
  requests : (answered.map Prod.fst ++ upcoming).map Job.input <+~ conn.submitted
  all : conn.peer.closed = false →
    (answered.map Prod.fst ++ upcoming).map Job.input ~ conn.submitted
  replies : sent ++ returning <+~ answered
  returned : conn.peer.closed = false → sent ++ returning ~ answered
  delivered : conn.delivered <+: replyBytes sent
  stream : conn.peer.closed = false → conn.delivered ++ conn.unsent = replyBytes sent

namespace Pipelined

variable {conn conn' : Connection} {sent answered : List (Job Completion × Reply)}
  {upcoming upcoming' : List (Job Completion)}
  {returning returning' : List (Job Completion × Reply)}

/-- An open connection. -/
theorem of_perm (all : (answered.map Prod.fst ++ upcoming).map Job.input ~ conn.submitted)
    (returned : sent ++ returning ~ answered)
    (stream : conn.delivered ++ conn.unsent = replyBytes sent) :
    Pipelined conn sent answered upcoming returning where
  requests := all.subperm
  all _ := all
  replies := returned.subperm
  returned _ := returned
  delivered := stream ▸ List.prefix_append _ _
  stream _ := stream

/-- A closed connection puts nothing more in its output, and replies to it are ignored. -/
theorem close (h : Pipelined conn sent answered upcoming returning)
    (closed : conn'.peer.closed = true) (submitted : conn.submitted <+: conn'.submitted)
    (delivered : conn'.delivered = conn.delivered) (fewer : returning' <+~ returning) :
    Pipelined conn' sent answered upcoming returning' where
  requests := h.requests.trans submitted.sublist.subperm
  all alive := by simp [closed] at alive
  replies := ((List.subperm_append_left sent).mpr fewer).trans h.replies
  returned alive := by simp [closed] at alive
  delivered := delivered ▸ h.delivered
  stream alive := by simp [closed] at alive

/-- The rest of the connection does not matter. -/
theorem congr (h : Pipelined conn sent answered upcoming returning)
    (closed : conn'.peer.closed = conn.peer.closed)
    (submitted : conn'.submitted = conn.submitted) (delivered : conn'.delivered = conn.delivered)
    (unsent : conn'.unsent = conn.unsent) : Pipelined conn' sent answered upcoming returning where
  requests := submitted ▸ h.requests
  all alive := submitted ▸ h.all (closed ▸ alive)
  replies := h.replies
  returned alive := h.returned (closed ▸ alive)
  delivered := delivered ▸ h.delivered
  stream alive := by
    rw [delivered, unsent]
    exact h.stream (closed ▸ alive)

/-- Jobs and replies are known up to their order. -/
theorem perm (h : Pipelined conn sent answered upcoming returning) (jobs : upcoming' ~ upcoming)
    (replies : returning' ~ returning) : Pipelined conn sent answered upcoming' returning' where
  requests := (((jobs.append_left _).map _).subperm_right).mpr h.requests
  all alive := ((jobs.append_left _).map _).trans (h.all alive)
  replies := ((replies.append_left _).subperm_right).mpr h.replies
  returned alive := (replies.append_left _).trans (h.returned alive)
  delivered := h.delivered
  stream := h.stream

theorem closes (h : Pipelined v.conn sent answered upcoming returning)
    (alive : v.conn.peer.closed = false) (reason : CloseReason) (fewer : returning' <+~ returning) :
    Pipelined (v.close reason).conn sent answered upcoming returning' := by
  refine h.close View.closed_close ?_ ?_ fewer
  all_goals rw [View.conn_close alive]

theorem move (h : Pipelined v.conn sent answered upcoming returning) (outbox : Outbox v.conn.peer)
    (alive : v.conn.peer.closed = false) (m : View.Move t c v w) {new : List (Job Completion)}
    (jobs : w.queue.jobs = v.queue.jobs ++ new) :
    Pipelined w.conn sent answered (upcoming ++ new) returning := by
  have unchanged : w.queue = v.queue → new = [] := by
    intro same
    rwa [same, List.self_eq_append_right] at jobs
  cases m with
  | @wrote bytes rest n front _ fits =>
    rw [unchanged (by simp), List.append_nil]
    refine of_perm ((h.all alive).trans (.of_eq ?_)) (h.returned alive) ?_
    · unfold View.wrote
      split <;> rfl
    · rw [InOrder.unsent_wrote outbox front fits]
      exact h.stream alive
  | received _ _ _ _ _ =>
    rw [unchanged rfl, List.append_nil]
    exact h.congr rfl rfl rfl rfl
  | ended _ _ =>
    rw [unchanged rfl, List.append_nil]
    exact h.congr rfl rfl rfl rfl
  | @accepted size cuts _ =>
    have one : new = [_] := (List.append_cancel_left jobs).symm
    rw [one]
    refine of_perm ?_ (h.returned alive) (h.stream alive)
    rw [← List.append_assoc, List.map_append]
    exact (h.all alive).append_right _
  | @rejected size cuts _ =>
    rw [unchanged (by simp), List.append_nil]
    have conn : (v.reject t size).conn =
        { (v.offer t size).conn with peer.closed := true, closedBy := some .rejected } :=
      View.conn_close alive
    refine h.close View.closed_close ?_ ?_ (List.Perm.refl _).subperm
    · rw [conn]
      exact List.prefix_append _ _
    · rw [conn]
      rfl
  | closed _ =>
    rw [unchanged (by simp), List.append_nil]
    exact h.closes alive _ (List.Perm.refl _).subperm
  | scheduled =>
    rw [unchanged (by simp), List.append_nil]
    unfold View.schedule
    split <;> exact h.congr rfl rfl rfl rfl
  | interest _ =>
    rw [unchanged rfl, List.append_nil]
    exact h.congr rfl rfl rfl rfl

/-- A reply is put in the output. -/
theorem absorb {job : Job Completion} {reply : Reply}
    (h : Pipelined v.conn sent answered upcoming returning) (outbox : Outbox v.conn.peer)
    (alive : v.conn.peer.closed = false) (next : returning ~ (job, reply) :: returning') :
    Pipelined (v.retract.absorb job reply).conn (sent ++ [(job, reply)]) answered upcoming
      returning' := by
  refine of_perm (h.all alive) ?_ ?_
  · rw [List.append_assoc]
    exact (next.symm.append_left sent).trans (h.returned alive)
  · have delivered : (v.retract.absorb job reply).conn.delivered = v.conn.delivered := rfl
    rw [InOrder.unsent_absorb outbox, delivered, ← List.append_assoc, h.stream alive,
      replyBytes_append]
    simp [replyBytes]

/-- The handler returns. -/
theorem handle (h : Pipelined conn sent answered upcoming returning)
    {pairs : List (Job Completion × Reply)} (jobs : upcoming ~ pairs.map Prod.fst ++ upcoming')
    (replies : returning' ~ returning ++ pairs) :
    Pipelined conn sent (answered ++ pairs) upcoming' returning' := by
  have moved : ((answered ++ pairs).map Prod.fst ++ upcoming').map Job.input ~
      (answered.map Prod.fst ++ upcoming).map Job.input := by
    refine List.Perm.map _ ?_
    rw [List.map_append, List.append_assoc]
    exact (jobs.append_left _).symm
  have longer : sent ++ returning' ~ sent ++ returning ++ pairs := by
    rw [List.append_assoc]
    exact replies.append_left _
  exact {
    requests := moved.subperm_right.mpr h.requests
    all alive := moved.trans (h.all alive)
    replies := longer.subperm_right.mpr ((List.subperm_append_right pairs).mpr h.replies)
    returned alive := longer.trans ((h.returned alive).append_right pairs)
    delivered := h.delivered
    stream := h.stream }

end Pipelined

/-- Connection `c` of a running server. -/
def Tracks (t : TcpServer ε) (s : State) (c : Nat) (sent : List (Job Completion × Reply)) : Prop :=
  Pipelined (s.conns c) sent (s.answered c) (s.upcoming c) (s.returning t c)

namespace Tracks

variable {sent : List (Job Completion × Reply)}

theorem initial (t : TcpServer ε) (c : Nat) : Tracks t (State.initial t) c [] := by
  have none : (State.initial t).flights t c = [] := State.flights_initial
  simp only [State.flights, List.append_eq_nil_iff, List.map_eq_nil_iff] at none
  obtain ⟨⟨queued, running⟩, computed, posted⟩ := none
  rw [Tracks, State.upcoming, State.returning, queued, running, computed, posted]
  exact .of_perm .nil .nil rfl

/-- The connection stays as it is and its jobs move on. -/
theorem of_perm (h : Tracks t s d sent) (conn : s'.conns d = s.conns d)
    (handled : s'.handled = s.handled) (upcoming : s'.upcoming d ~ s.upcoming d)
    (returning : s'.returning t d ~ s.returning t d) : Tracks t s' d sent := by
  rw [Tracks, conn, State.answered, handled]
  exact Pipelined.perm h upcoming returning

theorem congr (h : Tracks t s d sent) (conn : s'.conns d = s.conns d)
    (handled : s'.handled = s.handled) (jobs : s'.queue.jobs = s.queue.jobs)
    (workers : s'.queue.workers = s.queue.workers)
    (replies : ∀ i, (s'.ios i).replies = (s.ios i).replies) : Tracks t s' d sent := by
  obtain ⟨upcoming, returning⟩ := State.lists_congr (t := t) jobs workers replies d
  exact h.of_perm conn handled (.of_eq upcoming) (.of_eq returning)

theorem setTasks (h : Tracks t s d sent) {i : Nat} {task : Task} {rest : List Task}
    (head : (s.ios i).loop.tasks = task :: rest) (other : ∀ job reply, task ≠ .reply job reply) :
    Tracks t (s.setTasks i rest) d sent :=
  h.congr rfl rfl rfl rfl (State.replies_setTasks head other)

/-- One connection changes, and none of the lists. -/
theorem on (h : Tracks t s d sent) {f : View → View} (queue : (f (s.view t c)).queue = s.queue)
    (replies : (f (s.view t c)).io.replies = (s.ios (t.home c)).replies)
    (own : ∀ {A U R}, Pipelined (s.conns c) sent A U R →
      Pipelined (f (s.view t c)).conn sent A U R) : Tracks t (s.on t c f) d sent := by
  obtain ⟨upcoming, returning⟩ := State.lists_on queue replies d
  have answered : (s.on t c f).answered d = s.answered d := rfl
  rw [Tracks, upcoming, returning, answered, State.on, State.conns_put]
  split_ifs with same
  · subst same
    exact own h
  · exact h

theorem move (h : Tracks t s d sent) (outbox : Outbox (s.conns c).peer)
    (alive : (s.conns c).peer.closed = false) (m : View.Move t c (s.view t c) w) :
    Tracks t (s.put t c w) d sent := by
  obtain ⟨new, jobs, lists⟩ := State.lists_put m
  have answered : (s.put t c w).answered d = s.answered d := rfl
  rw [Tracks, (lists d).1, (lists d).2, answered, State.conns_put]
  split_ifs with same
  · subst same
    have before : Pipelined (s.view t d).conn sent (s.answered d) (s.upcoming d)
        (s.returning t d) := h
    exact before.move outbox alive m jobs
  · rw [List.append_nil]
    exact h

/-- A reply is taken off the queue of its loop and its connection changes. -/
theorem pop (h : Tracks t s d sent) (base : Base t s) {i : Nat} {job : Job Completion}
    {reply : Reply} {rest : List Task} (head : (s.ios i).loop.tasks = .reply job reply :: rest)
    (f : View → View) (queue : ∀ v, (f v).queue = v.queue)
    (replies : ∀ v, (f v).io.replies = v.io.replies)
    {sent' : List (Job Completion × Reply)} (others : d ≠ job.complete.conn → sent' = sent)
    (own : d = job.complete.conn → ∀ {A U R R'}, R ~ (job, reply) :: R' →
      Pipelined (s.conns d) sent A U R →
      Pipelined (f ((s.setTasks i rest).view t job.complete.conn)).conn sent' A U R') :
    Tracks t ((s.setTasks i rest).on t job.complete.conn f) d sent' := by
  have home := base.homed i (job, reply) (by simp [Io.replies, head])
  have popped := State.returning_pop head home d
  obtain ⟨upcoming, returning⟩ := State.lists_on (s := s.setTasks i rest) (t := t)
    (c := job.complete.conn) (queue _) (replies _) d
  have kept : (s.setTasks i rest).upcoming d = s.upcoming d := rfl
  have answered : ((s.setTasks i rest).on t job.complete.conn f).answered d = s.answered d := rfl
  rw [Tracks, upcoming, returning, kept, answered, State.on, State.conns_put]
  split_ifs at popped ⊢ with same
  · exact own same popped h
  · rw [others same]
    exact Pipelined.perm h .rfl popped.symm

/-- A call whose reply is put in the output. -/
structure Absorbs (t : TcpServer ε) (s : State) (c : Nat) (p : Job Completion × Reply) : Prop where
  alive : (s.conns c).peer.closed = false
  returning : p ∈ s.returning t c
  good : p.2.close = false

/-- An act puts one reply in the output of the connection, or none. -/
theorem act (h : Tracks t s d sent) (base : Base t s) (orderly : ∀ c, Orderly t (s.conns c))
    (act : Act t s s') :
    Tracks t s' d sent ∨ ∃ p, Absorbs t s d p ∧ Tracks t s' d (sent ++ [p]) := by
  have fewer : ∀ {p : Job Completion × Reply} {R R'}, R ~ p :: R' → R' <+~ R := fun next =>
    (List.sublist_cons_self _ _).subperm.trans next.symm.subperm
  cases act with
  | move _ alive m => exact .inl (h.move (orderly _).outbox alive m)
  | attach head =>
    left
    refine (h.setTasks head (by simp)).on rfl rfl fun old => ?_
    exact old.congr rfl rfl rfl rfl
  | resume head =>
    left
    refine (h.setTasks head (by simp)).on rfl rfl fun old => ?_
    exact old.congr rfl rfl rfl rfl
  | @drop i job reply rest head gone =>
    have ignored : Tracks t ((s.setTasks i rest).on t job.complete.conn id) d sent := by
      refine h.pop base head id (fun _ => rfl) (fun _ => rfl) (fun _ => rfl)
        fun own _ _ _ _ next old => ?_
      subst own
      exact old.close gone List.prefix_rfl rfl (fewer next)
    rw [State.on, id, State.put_view] at ignored
    exact .inl ignored
  | @refuse i job reply rest head _ alive _ =>
    refine .inl (h.pop base head (fun v => v.retract.close .reply) (fun v => ?_) (fun v => ?_)
      (fun _ => rfl) fun own _ _ _ _ next old => ?_)
    · rw [View.queue_close]
      rfl
    · rw [View.replies_close]
      rfl
    · subst own
      exact Pipelined.closes (old.congr rfl rfl rfl rfl) alive .reply (fewer next)
  | @absorb i job reply rest head _ alive good =>
    by_cases own : d = job.complete.conn
    · subst own
      have home := base.homed i (job, reply) (by simp [Io.replies, head])
      have member : (job, reply) ∈ s.returning t job.complete.conn :=
        (State.returning_pop head home _).symm.subset (by simp)
      refine .inr ⟨(job, reply), ⟨alive, member, ?_⟩, ?_⟩
      · by_contra bad
        exact good (.inl (by simpa using bad))
      · refine h.pop base head (fun v => v.retract.absorb job reply) (fun _ => rfl) (fun _ => rfl)
          (fun other => absurd rfl other) fun _ _ _ _ _ next old => ?_
        exact Pipelined.absorb (v := s.view t job.complete.conn) old (orderly _).outbox alive next
    · left
      refine h.pop base head (fun v => v.retract.absorb job reply) (fun _ => rfl) (fun _ => rfl)
        (fun _ => rfl) fun same => ?_
      exact absurd same own
  | @expire i id _ _ =>
    exact .inl (h.congr rfl rfl rfl rfl (State.replies_setIo rfl))
  | accept _ =>
    left
    unfold State.accept
    split
    · exact h
    · refine h.congr rfl rfl rfl rfl (State.replies_setIo ?_)
      simp [Io.replies, Reactor.post]
  | take taken =>
    obtain ⟨upcoming, returning⟩ := State.upcoming_take base.queue.counted taken d
    exact .inl (h.of_perm rfl rfl upcoming returning)
  | handle called =>
    obtain ⟨upcoming, returning⟩ := State.upcoming_handle base.queue called
      (s.handled ++ _) d
    left
    rw [Tracks, State.answered, List.filter_append]
    exact Pipelined.handle h upcoming returning
  | complete completed =>
    obtain ⟨upcoming, returning⟩ := State.upcoming_complete completed d
    exact .inl (h.of_perm rfl rfl upcoming returning)
  | closing => exact .inl (h.congr rfl rfl rfl rfl fun _ => rfl)
  | join _ _ =>
    refine .inl (h.congr rfl rfl rfl rfl fun i => ?_)
    dsimp only
    split
    · simp [Io.replies, Reactor.post]
    · rfl
  | closeAll head =>
    exact .inl (h.setTasks head (by simp))
  | stop => exact .inl (h.congr rfl rfl rfl rfl (State.replies_setIo rfl))

end Tracks

/-- Octets are received one after another. -/
theorem Turn.received {conn conn' : Connection} {flights : List (Job Completion)}
    (turn : Turn t c conn flights conn') : conn.received <+: conn'.received := by
  cases turn with
  | rest => exact List.prefix_rfl
  | move own _ m =>
    subst own
    exact m.grows.received
  | wire _ _ _ => exact List.prefix_rfl
  | @refuse v own _ _ _ =>
    subst own
    exact (View.grows_close v.retract _).received
  | absorb own _ _ _ _ _ =>
    subst own
    exact List.prefix_rfl

theorem Act.received (base : Base t s) (act : Act t s s') (c : Nat) :
    (s.conns c).received <+: (s'.conns c).received := (act.turn base c).received

/-- The books of every connection are in order. -/
theorem State.Runs.orderly {trace : List (State × Event)} (run : State.Runs t trace s) (c : Nat) :
    Orderly t (s.conns c) ∧ ∃ sent, Tracks t s c sent := by
  obtain ⟨-, -, -, orderly, tracks⟩ := run.invariant
    (fun s => (∀ c, Orderly t (s.conns c)) ∧ ∃ sent, Tracks t s c sent)
    ⟨fun _ => .initial, [], .initial t c⟩ fun base served ⟨orderly, sent, tracks⟩ act => by
      refine ⟨Orderly.act orderly base served act, ?_⟩
      obtain same | ⟨p, -, longer⟩ := tracks.act base orderly act
      · exact ⟨sent, same⟩
      · exact ⟨_, longer⟩
  exact ⟨orderly c, tracks⟩

/-- **Replies of a pipelined connection.** With a frame sizer and any number of jobs per
connection, on every connection of every run: the handler has been called with every received
frame at most once, and the octets delivered are a prefix of whole replies, each reply of the
handler at most once. While the connection is open nothing is lost: every submitted frame has
been handled or waits to be, and every reply is delivered, in the output or on its way. -/
theorem replies_whole_and_once {ε : Type} {sizer : Sizer ε} (lawful : Lawful sizer)
    (t : TcpServer ε) (installed : t.sizer = some sizer) {trace : List (State × Event)} {s : State}
    (run : State.Runs t trace s) (c : Nat) {frames : List Bytes} {rest : Bytes}
    (parsed : Parse sizer (s.conns c).received frames rest) :
    (s.answered c).map (fun p => p.1.input) <+~ frames ∧
    ∃ sent, sent ++ s.returning t c <+~ s.answered c ∧
      (s.conns c).delivered <+: (sent.map fun p => p.2.bytes).flatten ∧
      ((s.conns c).peer.closed = false →
        (s.answered c).map (fun p => p.1.input) ++ (s.upcoming c).map Job.input ~
          (s.conns c).submitted ∧
        sent ++ s.returning t c ~ s.answered c ∧
        (s.conns c).delivered ++ (s.conns c).unsent =
          (sent.map fun p => p.2.bytes).flatten) := by
  obtain ⟨-, framed⟩ := Framed.of_run lawful installed run
  obtain ⟨-, sent, tracks⟩ := run.orderly c
  have inputs : ((s.answered c).map Prod.fst ++ s.upcoming c).map Job.input =
      (s.answered c).map (fun p => p.1.input) ++ (s.upcoming c).map Job.input := by
    rw [List.map_append, List.map_map]
    rfl
  have cut : (s.conns c).submitted <+: frames :=
    frames_prefix lawful List.prefix_rfl (framed c).split (framed c).frames parsed
  refine ⟨?_, sent, tracks.replies, tracks.delivered, fun alive => ⟨?_, tracks.returned alive,
    tracks.stream alive⟩⟩
  · have handled := tracks.requests
    rw [inputs] at handled
    exact ((List.sublist_append_left _ _).subperm.trans handled).trans cut.sublist.subperm
  · rw [← inputs]
    exact tracks.all alive

/-- A request frame without a payload. -/
def bareRequest (id : UInt8) : Bytes := rpcVersion ++ [0, 0, 0, 0, 0, 0, 0, 0, 0, 0, 0, id]

/-- Two requests arrive in one piece, and the second is answered first. -/
theorem replies_whole_and_once_overtaken :
    ∃ trace s, State.Runs (RpcServer.repeating 1).server trace s ∧
      (s.conns 0).submitted = [bareRequest 1, bareRequest 2] ∧
      (s.conns 0).delivered = [8, 7, 7] ∧
      (s.answered 0).map (fun p => p.1.input) <+~ [bareRequest 1, bareRequest 2] := by
  have run := Run.replays (State.step (RpcServer.repeating 1).server)
    (State.initial (RpcServer.repeating 1).server)
    [.accept, .task 0 {},
      .ready 0 1 false { receives := [.data (bareRequest 1 ++ bareRequest 2)] },
      .take 0, .take 1, .handle 1 (.single [8] 16), .handle 0 (.single [7, 7] 16),
      .complete 1, .task 0 { sends := [.wrote 1] }, .complete 0,
      .task 0 { sends := [.wrote 1, .wrote 1] }] (by decide +kernel)
  obtain ⟨once, -⟩ := replies_whole_and_once rpcFrameSize_lawful (RpcServer.repeating 1).server rfl
    run 0 (parse_spec rpcFrameSize_lawful _)
  refine ⟨_, _, run, by decide +kernel, by decide +kernel, once.trans (List.Perm.of_eq ?_).subperm⟩
  decide +kernel

end KVRPC.Server
