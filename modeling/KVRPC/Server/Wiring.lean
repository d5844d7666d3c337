import KVRPC.Server.Flights

/-!
# Connections and their loops

Watches, timers and tasks of an I/O thread refer to connections that have been attached to
it, an open connection is watched under its token, and a connection not yet attached is
untouched. Tokens are never used again, so the watch of one connection is out of reach of
all others.
-/
namespace KVRPC.Server

open Library Net
open scoped List

variable {ε : Type} {t : TcpServer ε} {s s' : State} {c d : Nat} {v w : View}

structure Base (t : TcpServer ε) (s : State) : Prop where
  queue : JobQueue.Inv t s.queue
  homed : ∀ i, ∀ p ∈ (s.ios i).replies, t.home p.1.complete.conn = i

/-- What a task may refer to. -/
def Task.Refers (t : TcpServer ε) (s : State) (i : Nat) : Task → Prop
  | .attach c => (s.conns c).peer.token = 0 ∧ t.home c = i ∧ c < s.stats.accepted
  | .pump c => (s.conns c).peer.token ≠ 0
  | _ => True

/-- The connections waiting to be attached. -/
def Io.attaching (io : Io) : List Nat :=
  io.loop.tasks.filterMap fun
    | .attach c => some c
    | _ => none

structure Wired (t : TcpServer ε) (s : State) : Prop where
  ids : ∀ i, 0 < (s.ios i).loop.next ∧
    ∀ w ∈ (s.ios i).loop.watches, w.1 < (s.ios i).loop.next
  watched : ∀ c, (s.conns c).peer.token ≠ 0 → (s.conns c).peer.closed = false →
    ∃ interest, (s.ios (t.home c)).loop.watch (s.conns c).peer.token = some (c, interest)
  unborn : ∀ c, (s.conns c).peer.token = 0 → s.conns c = {} ∧ s.flights t c = []
  later : ∀ c, s.stats.accepted ≤ c → (s.conns c).peer.token = 0
  tasks : ∀ i, ∀ task ∈ (s.ios i).loop.tasks, task.Refers t s i
  once : ∀ i, (s.ios i).attaching.Nodup
  watches : ∀ i, ∀ w ∈ (s.ios i).loop.watches, (s.conns w.2.1).peer.token ≠ 0
  timers : ∀ i, ∀ x ∈ (s.ios i).loop.timers, (s.conns x.2).peer.token ≠ 0
  peers : ∀ i, ∀ x ∈ (s.ios i).peers, (s.conns x.2).peer.token ≠ 0

/-- What a function that runs for connection `c` does to its loop. -/
structure Tidy (c : Nat) (v w : View) : Prop where
  token : w.conn.peer.token = v.conn.peer.token
  opened : w.conn.peer.closed = false → v.conn.peer.closed = false
  accepted : w.stats.accepted = v.stats.accepted
  next : v.io.loop.next ≤ w.io.loop.next
  watches : ∀ x ∈ w.io.loop.watches, ∃ y ∈ v.io.loop.watches, y.1 = x.1 ∧ y.2.1 = x.2.1
  others : ∀ token, token ≠ v.conn.peer.token → w.io.loop.watch token = v.io.loop.watch token
  own : w.conn.peer.closed = false → ∀ i, v.io.loop.watch v.conn.peer.token = some (c, i) →
    ∃ j, w.io.loop.watch v.conn.peer.token = some (c, j)
  timers : ∀ x ∈ w.io.loop.timers, x ∈ v.io.loop.timers ∨ x.2 = c
  tasks : w.io.loop.tasks = v.io.loop.tasks ∨ w.io.loop.tasks = v.io.loop.tasks ++ [.pump c]
  peers : ∀ x ∈ w.io.peers, x ∈ v.io.peers

namespace Tidy

theorem of_io (io : w.io = v.io) (token : w.conn.peer.token = v.conn.peer.token)
    (closed : w.conn.peer.closed = v.conn.peer.closed)
    (accepted : w.stats.accepted = v.stats.accepted) : Tidy c v w where
  token := token
  opened alive := closed ▸ alive
  accepted := accepted
  next := by rw [io]
  watches x mem := ⟨x, io ▸ mem, rfl, rfl⟩
  others _ _ := by rw [io]
  own _ i found := ⟨i, io ▸ found⟩
  timers x mem := .inl (io ▸ mem)
  tasks := .inl (by rw [io])
  peers x mem := io ▸ mem

theorem task_mem (h : Tidy c v w) {task : Task} (mem : task ∈ v.io.loop.tasks) :
    task ∈ w.io.loop.tasks := by
  obtain same | more := h.tasks
  · exact same.symm ▸ mem
  · rw [more]
    exact List.mem_append_left _ mem

/-- A change of the peer's other fields may come first. -/
theorem after {u : View} (h : Tidy c u w) (io : u.io = v.io)
    (token : u.conn.peer.token = v.conn.peer.token)
    (closed : u.conn.peer.closed = v.conn.peer.closed)
    (accepted : u.stats.accepted = v.stats.accepted) : Tidy c v w where
  token := h.token.trans token
  opened alive := closed ▸ h.opened alive
  accepted := h.accepted.trans accepted
  next := io ▸ h.next
  watches := io ▸ h.watches
  others := io ▸ token ▸ h.others
  own := io ▸ token ▸ h.own
  timers := io ▸ h.timers
  tasks := io ▸ h.tasks
  peers := io ▸ h.peers

theorem deadline (c : Nat) (v : View) : Tidy c v (v.deadline c) where
  token := rfl
  opened := id
  accepted := rfl
  next := Nat.le_succ _
  watches x mem := ⟨x, mem, rfl, rfl⟩
  others _ _ := rfl
  own _ i found := ⟨i, found⟩
  timers := by
    intro x mem
    simp only [View.deadline, Reactor.timerAt, Reactor.cancel, List.mem_append, List.mem_filter,
      List.mem_singleton] at mem
    obtain old | rfl := mem
    · exact .inl old.1
    · exact .inr rfl
  tasks := .inl rfl
  peers x mem := mem

theorem schedule (c : Nat) (v : View) : Tidy c v (v.schedule c) := by
  unfold View.schedule
  split
  · exact of_io rfl rfl rfl rfl
  · exact ⟨rfl, id, rfl, le_rfl, fun x mem => ⟨x, mem, rfl, rfl⟩, fun _ _ => rfl,
      fun _ i found => ⟨i, found⟩, fun x mem => .inl mem, .inr rfl, fun x mem => mem⟩

theorem close (c : Nat) (v : View) (reason : CloseReason) : Tidy c v (v.close reason) := by
  unfold View.close
  split
  · exact of_io rfl rfl rfl rfl
  · refine ⟨rfl, fun alive => by simp at alive, rfl, le_rfl, ?_, ?_, fun alive => by simp at alive,
      ?_, .inl rfl, ?_⟩
    · intro x mem
      exact ⟨x, (List.mem_filter.mp mem).1, rfl, rfl⟩
    · intro token different
      exact Reactor.watch_remove different
    · intro x mem
      exact .inl (List.mem_filter.mp mem).1
    · intro x mem
      exact (List.mem_filter.mp mem).1

theorem modify (c : Nat) (v : View) (interest : Interest) : Tidy c v (v.modify interest) where
  token := rfl
  opened := id
  accepted := rfl
  next := le_rfl
  watches := by
    intro x mem
    obtain ⟨y, old, rfl⟩ := List.mem_map.mp mem
    refine ⟨y, old, ?_⟩
    split <;> exact ⟨rfl, rfl⟩
  others token different := by
    simp only [View.modify, Reactor.watch_modify]
    rw [if_neg different]
  own _ i found := by
    refine ⟨interest, ?_⟩
    simp [View.modify, Reactor.watch_modify, found]
  timers x mem := .inl mem
  tasks := .inl rfl
  peers x mem := mem

theorem move (m : View.Move t c v w) : Tidy c v w := by
  cases m with
  | wrote _ _ _ =>
    unfold View.wrote
    split
    · exact (deadline c _).after rfl rfl rfl rfl
    · exact of_io rfl rfl rfl rfl
  | received _ _ _ _ _ => exact of_io rfl rfl rfl rfl
  | ended _ _ => exact of_io rfl rfl rfl rfl
  | accepted _ _ => exact of_io rfl rfl rfl rfl
  | rejected _ _ => exact (close c _ _).after rfl rfl rfl rfl
  | closed _ => exact close c v _
  | scheduled => exact schedule c v
  | interest i => exact modify c v i

end Tidy

namespace Wired

theorem initial (t : TcpServer ε) : Wired t (State.initial t) where
  ids _ := ⟨Nat.one_pos, by simp [State.initial]⟩
  watched c attached := absurd rfl attached
  unborn c _ := ⟨rfl, State.flights_initial⟩
  later _ _ := rfl
  tasks i task mem := by simp [State.initial] at mem
  once _ := List.nodup_nil
  watches i w mem := by simp [State.initial] at mem
  timers i x mem := by simp [State.initial] at mem
  peers i x mem := by simp [State.initial] at mem

/-- Two connections on one loop have different tokens. -/
theorem token_ne (wired : Wired t s) (attached : (s.conns c).peer.token ≠ 0)
    (alive : (s.conns c).peer.closed = false) (attached' : (s.conns d).peer.token ≠ 0)
    (alive' : (s.conns d).peer.closed = false) (home : t.home d = t.home c) (different : d ≠ c) :
    (s.conns d).peer.token ≠ (s.conns c).peer.token := by
  intro same
  obtain ⟨i, found⟩ := wired.watched c attached alive
  obtain ⟨j, found'⟩ := wired.watched d attached' alive'
  rw [home, same, found] at found'
  cases found'
  exact different rfl

/-- A function runs for an open connection, or leaves all watches alone. -/
theorem put (wired : Wired t s) (attached : (s.conns c).peer.token ≠ 0)
    (alive : (s.conns c).peer.closed = false ∨ w.io.loop.watches = (s.ios (t.home c)).loop.watches)
    (tidy : Tidy c (s.view t c) w)
    (flights : ∀ d, d ≠ c → s.flights t d = [] → (s.put t c w).flights t d = []) :
    Wired t (s.put t c w) := by
  have tokens : ∀ d, ((s.put t c w).conns d).peer.token = (s.conns d).peer.token := by
    intro d
    rw [State.conns_put]
    split_ifs with same
    · rw [same]
      exact tidy.token
    · rfl
  have ios : ∀ i, (s.put t c w).ios i = if i = t.home c then w.io else s.ios i := by
    intro i
    simp [State.put, Function.update_apply]
  have accepted : (s.put t c w).stats.accepted = s.stats.accepted := tidy.accepted
  refine ⟨?_, ?_, ?_, ?_, ?_, ?_, ?_, ?_, ?_⟩
  · intro i
    rw [ios]
    split_ifs with home
    · have old := wired.ids (t.home c)
      have next := tidy.next
      refine ⟨lt_of_lt_of_le old.1 next, fun x mem => ?_⟩
      obtain ⟨y, mem', key, -⟩ := tidy.watches x mem
      rw [← key]
      exact lt_of_lt_of_le (old.2 y mem') next
    · exact wired.ids i
  · intro d attached' alive'
    rw [tokens] at attached'
    rw [tokens, ios]
    rw [State.conns_put] at alive'
    split_ifs at alive' with same
    · subst same
      obtain ⟨i, found⟩ := wired.watched d attached (tidy.opened alive')
      rw [if_pos rfl]
      exact tidy.own alive' i found
    · obtain ⟨i, found⟩ := wired.watched d attached' alive'
      refine ⟨i, ?_⟩
      split_ifs with home
      · rw [home] at found
        obtain alive | unchanged := alive
        · have different := wired.token_ne attached alive attached' alive' home same
          rw [tidy.others _ different]
          exact found
        · rw [Reactor.watch, unchanged]
          exact found
      · exact found
  · intro d unattached
    rw [tokens] at unattached
    have other : d ≠ c := by
      rintro rfl
      exact attached unattached
    obtain ⟨fresh, none⟩ := wired.unborn d unattached
    refine ⟨?_, flights d other none⟩
    rw [State.conns_put, if_neg other]
    exact fresh
  · intro d late
    rw [tokens]
    exact wired.later d (accepted ▸ late)
  · intro i task mem
    have refers : task.Refers t s i := by
      rw [ios] at mem
      split_ifs at mem with home
      · obtain same | longer := tidy.tasks
        · exact wired.tasks i task (home ▸ same ▸ mem)
        · rw [longer, List.mem_append, List.mem_singleton] at mem
          obtain old | rfl := mem
          · exact wired.tasks i task (home ▸ old)
          · exact attached
      · exact wired.tasks i task mem
    cases task with
    | attach d => simpa only [Task.Refers, tokens, accepted] using refers
    | pump d => simpa only [Task.Refers, tokens] using refers
    | _ => trivial
  · intro i
    rw [ios]
    split_ifs with home
    · have old := wired.once (t.home c)
      have same : w.io.attaching = (s.ios (t.home c)).attaching := by
        unfold Io.attaching
        obtain same | longer := tidy.tasks
        · rw [same]
          rfl
        · rw [longer]
          simp [State.view]
      rw [same]
      exact old
    · exact wired.once i
  · intro i x mem
    rw [tokens]
    rw [ios] at mem
    split_ifs at mem with home
    · obtain ⟨y, mem', -, same⟩ := tidy.watches x mem
      rw [← same]
      exact wired.watches (t.home c) y mem'
    · exact wired.watches i x mem
  · intro i x mem
    rw [tokens]
    rw [ios] at mem
    split_ifs at mem with home
    · obtain old | own := tidy.timers x mem
      · exact wired.timers (t.home c) x old
      · rw [own]
        exact attached
    · exact wired.timers i x mem
  · intro i x mem
    rw [tokens]
    rw [ios] at mem
    split_ifs at mem with home
    · exact wired.peers (t.home c) x (tidy.peers x mem)
    · exact wired.peers i x mem

/-- What happens to a loop while no connection runs on it. -/
structure IoStep (old new : Io) : Prop where
  next : new.loop.next = old.loop.next
  watches : new.loop.watches = old.loop.watches
  peers : new.peers = old.peers
  timers : ∀ x ∈ new.loop.timers, x ∈ old.loop.timers
  tasks : ∀ task ∈ new.loop.tasks,
    task ∈ old.loop.tasks ∨ ∀ (t : TcpServer ε) s i, task.Refers t s i
  attaching : new.attaching.Sublist old.attaching

theorem of_ios (wired : Wired t s) (conns : s'.conns = s.conns)
    (accepted : s'.stats.accepted = s.stats.accepted)
    (flights : ∀ d, s.flights t d = [] → s'.flights t d = [])
    (ios : ∀ i, IoStep (ε := ε) (s.ios i) (s'.ios i)) : Wired t s' where
  ids i := by
    rw [(ios i).next, (ios i).watches]
    exact wired.ids i
  watched c attached alive := by
    rw [conns] at attached alive ⊢
    rw [Reactor.watch, (ios _).watches]
    exact wired.watched c attached alive
  unborn c unattached := by
    rw [conns] at unattached ⊢
    obtain ⟨fresh, none⟩ := wired.unborn c unattached
    exact ⟨fresh, flights c none⟩
  later c late := by
    rw [conns]
    exact wired.later c (accepted ▸ late)
  tasks i task mem := by
    obtain old | always := (ios i).tasks task mem
    · have refers := wired.tasks i task old
      cases task with
      | attach c => simpa only [Task.Refers, conns, accepted] using refers
      | pump c => simpa only [Task.Refers, conns] using refers
      | _ => trivial
    · exact always t s' i
  once i := (ios i).attaching.nodup (wired.once i)
  watches i w mem := by
    rw [conns]
    exact wired.watches i w ((ios i).watches ▸ mem)
  timers i x mem := by
    rw [conns]
    exact wired.timers i x ((ios i).timers x mem)
  peers i x mem := by
    rw [conns]
    exact wired.peers i x ((ios i).peers ▸ mem)

theorem IoStep.refl (io : Io) : IoStep (ε := ε) io io :=
  ⟨rfl, rfl, rfl, fun _ mem => mem, fun _ mem => .inl mem, List.Sublist.refl _⟩

/-- Replies and the order to close all peers may be posted at any time. -/
theorem IoStep.post (io : Io) {task : Task} (always : ∀ (t : TcpServer ε) s i, task.Refers t s i)
    (other : ∀ c, task ≠ .attach c) :
    IoStep (ε := ε) io { io with loop := io.loop.post task } := by
  refine ⟨rfl, rfl, rfl, fun _ mem => mem, fun task' mem => ?_, ?_⟩
  · refine (List.mem_append.mp mem).imp id fun new => ?_
    rw [List.mem_singleton.mp new]
    exact always
  · have same : ({ io with loop := io.loop.post task } : Io).attaching = io.attaching := by
      unfold Io.attaching
      cases task with
      | attach c => exact absurd rfl (other c)
      | _ => simp [Reactor.post]
    rw [same]

/-- One loop changes. -/
theorem setIo (wired : Wired t s) {i : Nat} {io : Io} (step : IoStep (ε := ε) (s.ios i) io)
    (flights : ∀ d, s.flights t d = [] → (s.setIo i io).flights t d = []) :
    Wired t (s.setIo i io) := by
  refine wired.of_ios rfl rfl flights fun j => ?_
  by_cases same : j = i
  · subst same
    simpa [State.setIo] using step
  · simpa [State.setIo, Function.update_of_ne same] using IoStep.refl _

theorem setTasks (wired : Wired t s) {i : Nat} {task : Task} {rest : List Task}
    (head : (s.ios i).loop.tasks = task :: rest) : Wired t (s.setTasks i rest) := by
  refine wired.setIo ⟨rfl, rfl, rfl, fun _ mem => mem, fun task' mem => .inl ?_, ?_⟩
    fun d none => State.flights_setTasks_nil head none
  · rw [head]
    exact List.mem_cons_of_mem _ mem
  · unfold Io.attaching
    rw [head]
    exact (List.sublist_cons_self _ _).filterMap _

/-- A connection is attached to its loop. -/
theorem on_attach (wired : Wired t s) (unattached : (s.conns c).peer.token = 0)
    (early : c < s.stats.accepted) (last : ∀ i, .attach c ∉ (s.ios i).loop.tasks) :
    Wired t (s.on t c (View.attach c)) := by
  obtain ⟨positive, below⟩ := wired.ids (t.home c)
  have tokens : ∀ d, ((s.on t c (View.attach c)).conns d).peer.token =
      if d = c then (s.ios (t.home c)).loop.next else (s.conns d).peer.token := by
    intro d
    rw [State.on, State.conns_put]
    split_ifs <;> rfl
  have kept : ∀ d, (s.conns d).peer.token ≠ 0 →
      ((s.on t c (View.attach c)).conns d).peer.token ≠ 0 := by
    intro d attached
    rw [tokens]
    split_ifs
    · omega
    · exact attached
  have own : ((s.on t c (View.attach c)).conns c).peer.token ≠ 0 := by
    rw [tokens, if_pos rfl]
    omega
  have ios : ∀ i, (s.on t c (View.attach c)).ios i =
      if i = t.home c then (View.attach c (s.view t c)).io else s.ios i := by
    intro i
    simp [State.on, State.put, Function.update_apply]
  have watch : ∀ token, (View.attach c (s.view t c)).io.loop.watch token =
      if token = (s.ios (t.home c)).loop.next then some (c, ⟨true, false⟩)
      else (s.ios (t.home c)).loop.watch token := fun token => Reactor.watch_add below _
  refine ⟨?_, ?_, ?_, ?_, ?_, ?_, ?_, ?_, ?_⟩
  · intro i
    rw [ios]
    split_ifs with home
    · refine ⟨Nat.succ_pos _, fun w mem => ?_⟩
      obtain old | new := List.mem_append.mp mem
      · exact (below w old).trans (Nat.lt_add_of_pos_right (Nat.two_pos))
      · rw [List.mem_singleton.mp new]
        exact Nat.lt_add_of_pos_right Nat.two_pos
    · exact wired.ids i
  · intro d attached alive
    rw [ios]
    by_cases same : d = c
    · subst same
      refine ⟨⟨true, false⟩, ?_⟩
      rw [tokens, if_pos rfl, if_pos rfl, watch, if_pos rfl]
    · rw [tokens, if_neg same] at attached ⊢
      rw [State.on, State.conns_put, if_neg same] at alive
      obtain ⟨interest, found⟩ := wired.watched d attached alive
      refine ⟨interest, ?_⟩
      split_ifs with home
      · rw [home] at found
        have used := below _ (Reactor.mem_of_watch found)
        rw [watch, if_neg (ne_of_lt used)]
        exact found
      · exact found
  · intro d without
    have other : d ≠ c := by
      rintro rfl
      exact own without
    rw [tokens, if_neg other] at without
    obtain ⟨fresh, none⟩ := wired.unborn d without
    rw [State.flights_on rfl rfl, State.on, State.conns_put, if_neg other]
    exact ⟨fresh, none⟩
  · intro d late
    have other : d ≠ c := by
      rintro rfl
      exact absurd early (Nat.not_lt.mpr late)
    rw [tokens, if_neg other]
    exact wired.later d late
  · intro i task mem
    have old : task ∈ (s.ios i).loop.tasks := by
      rw [ios] at mem
      split_ifs at mem with home
      · exact home ▸ mem
      · exact mem
    have refers := wired.tasks i task old
    cases task with
    | attach d =>
      have other : d ≠ c := by
        rintro rfl
        exact last i old
      simp only [Task.Refers, tokens, if_neg other]
      exact refers
    | pump d => exact kept d refers
    | _ => trivial
  · intro i
    rw [ios]
    split_ifs with home
    · exact wired.once (t.home c)
    · exact wired.once i
  · intro i w mem
    rw [ios] at mem
    split_ifs at mem
    · obtain old | new := List.mem_append.mp mem
      · exact kept _ (wired.watches _ w old)
      · rw [List.mem_singleton.mp new]
        exact own
    · exact kept _ (wired.watches i w mem)
  · intro i x mem
    rw [ios] at mem
    split_ifs at mem
    · obtain old | new := List.mem_append.mp mem
      · exact kept _ (wired.timers _ x (List.mem_filter.mp old).1)
      · rw [List.mem_singleton.mp new]
        exact own
    · exact kept _ (wired.timers i x mem)
  · intro i x mem
    rw [ios] at mem
    split_ifs at mem
    · obtain old | new := List.mem_append.mp mem
      · exact kept _ (wired.peers _ x old)
      · rw [List.mem_singleton.mp new]
        exact own
    · exact kept _ (wired.peers i x mem)

theorem attach (wired : Wired t s) {i : Nat} {rest : List Task}
    (head : (s.ios i).loop.tasks = .attach c :: rest) :
    Wired t ((s.setTasks i rest).on t c (View.attach c)) := by
  obtain ⟨unattached, rfl, early⟩ := wired.tasks i (.attach c) (by simp [head])
  have popped := wired.setTasks head
  refine popped.on_attach unattached early fun j mem => ?_
  -- a connection is attached once
  obtain ⟨-, home, -⟩ := popped.tasks j _ mem
  subst home
  have distinct := wired.once (t.home c)
  simp only [Io.attaching, head, List.filterMap_cons, List.nodup_cons] at distinct
  apply distinct.1
  refine List.mem_filterMap.mpr ⟨.attach c, ?_, rfl⟩
  simpa [State.setTasks, State.setIo] using mem

theorem attaching_lt (wired : Wired t s) {i d : Nat} (mem : d ∈ (s.ios i).attaching) :
    d < s.stats.accepted := by
  obtain ⟨task, mem', same⟩ := List.mem_filterMap.mp mem
  have refers := wired.tasks i task mem'
  cases task with
  | attach e =>
    cases same
    exact refers.2.2
  | _ => cases same

/-- A new connection is on its way to its loop. -/
theorem accept (wired : Wired t s) : Wired t (s.accept t) := by
  by_cases full : s.stats.active ≥ t.maxConnections
  · rw [State.accept, if_pos full]
    exact ⟨wired.ids, wired.watched, wired.unborn, wired.later, wired.tasks, wired.once,
      wired.watches, wired.timers, wired.peers⟩
  have conns : (s.accept t).conns = s.conns := by
    rw [State.accept, if_neg full]
    rfl
  have accepted : (s.accept t).stats.accepted = s.stats.accepted + 1 := by
    rw [State.accept, if_neg full]
    rfl
  have ios : ∀ i, (s.accept t).ios i = if i = t.home s.stats.accepted then
      { s.ios i with loop := (s.ios i).loop.post (.attach s.stats.accepted) } else s.ios i := by
    intro i
    rw [State.accept, if_neg full]
    simp only [State.post, State.setIo, Function.update_apply]
    split_ifs with home
    · rw [home]
    · rfl
  have loops : ∀ i, ((s.accept t).ios i).loop.next = (s.ios i).loop.next ∧
      ((s.accept t).ios i).loop.watches = (s.ios i).loop.watches ∧
      ((s.accept t).ios i).loop.timers = (s.ios i).loop.timers ∧
      ((s.accept t).ios i).peers = (s.ios i).peers := by
    intro i
    rw [ios]
    split_ifs <;> exact ⟨rfl, rfl, rfl, rfl⟩
  refine ⟨?_, ?_, ?_, ?_, ?_, ?_, ?_, ?_, ?_⟩
  · intro i
    rw [(loops i).1, (loops i).2.1]
    exact wired.ids i
  · intro d attached alive
    rw [conns] at attached alive ⊢
    rw [Reactor.watch, (loops _).2.1]
    exact wired.watched d attached alive
  · intro d unattached
    rw [conns] at unattached ⊢
    obtain ⟨fresh, none⟩ := wired.unborn d unattached
    refine ⟨fresh, ?_⟩
    rw [← none]
    refine State.flights_congr ?_ ?_ ?_
    · rw [State.accept, if_neg full]
      rfl
    · rw [State.accept, if_neg full]
      rfl
    · rw [ios]
      split_ifs
      · simp [Io.replies, Reactor.post]
      · rfl
  · intro d late
    rw [conns]
    exact wired.later d (by omega)
  · intro i task mem
    have cases : task ∈ (s.ios i).loop.tasks ∨
        (i = t.home s.stats.accepted ∧ task = .attach s.stats.accepted) := by
      rw [ios] at mem
      split_ifs at mem with home
      · exact (List.mem_append.mp mem).imp id fun new => ⟨home, List.mem_singleton.mp new⟩
      · exact .inl mem
    obtain old | ⟨rfl, rfl⟩ := cases
    · have refers := wired.tasks i task old
      cases task with
      | attach d =>
        obtain ⟨unattached, home, early⟩ := refers
        exact ⟨conns ▸ unattached, home, by omega⟩
      | pump d => simpa only [Task.Refers, conns] using refers
      | _ => trivial
    · exact ⟨conns ▸ wired.later _ le_rfl, rfl, by omega⟩
  · intro i
    rw [ios]
    split_ifs with home
    · have longer : ({ s.ios i with loop := (s.ios i).loop.post (.attach s.stats.accepted) } :
          Io).attaching = (s.ios i).attaching ++ [s.stats.accepted] := by
        simp [Io.attaching, Reactor.post]
      rw [longer, List.nodup_append]
      refine ⟨wired.once i, List.nodup_singleton _, ?_⟩
      intro d mem e mem' same
      have := wired.attaching_lt mem
      rw [List.mem_singleton] at mem'
      omega
    · exact wired.once i
  · intro i w mem
    rw [conns]
    exact wired.watches i w ((loops i).2.1 ▸ mem)
  · intro i x mem
    rw [conns]
    exact wired.timers i x ((loops i).2.2.1 ▸ mem)
  · intro i x mem
    rw [conns]
    exact wired.peers i x ((loops i).2.2.2 ▸ mem)

theorem move (wired : Wired t s) (attached : (s.conns c).peer.token ≠ 0)
    (alive : (s.conns c).peer.closed = false) (m : View.Move t c (s.view t c) w) :
    Wired t (s.put t c w) := by
  obtain ⟨new, jobs, workers, own⟩ := m.jobs
  refine wired.put attached (.inl alive) (.move m) fun d different none => ?_
  have flights := State.flights_put m.replies_eq workers jobs own d
  rw [if_neg different, none] at flights
  exact List.perm_nil.mp flights

end Wired
end KVRPC.Server
