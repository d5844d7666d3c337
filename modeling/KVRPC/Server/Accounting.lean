import KVRPC.Library.Registry
import KVRPC.Server.Invariant

/-!
# Connections, timers and watches

What the server keeps of its connections. Each I/O thread has three tables: the peers, the watches
of its loop and the timers of its loop. An open connection that has been attached owns one entry in
each, and a closed one owns none (`Registered`). `active_` counts the connections that are
open, attached or not (`Counted`).
-/
namespace KVRPC.Server

open Library Net

variable {ε : Type} {t : TcpServer ε} {s s' : State} {c d i : Nat} {v w : View}

/-- The connection is open and in the tables of I/O thread `i`. -/
def State.Attached (t : TcpServer ε) (s : State) (i c : Nat) : Prop :=
  t.home c = i ∧ (s.conns c).peer.token ≠ 0 ∧ (s.conns c).peer.closed = false

instance (t : TcpServer ε) (s : State) (i c : Nat) : Decidable (s.Attached t i c) := by
  unfold State.Attached; infer_instance

/-- What the connection has in a table of I/O thread `i`. -/
def State.keyOn (t : TcpServer ε) (s : State) (f : Peer → Nat) (i c : Nat) : Option Nat :=
  if s.Attached t i c then some (f (s.conns c).peer) else none

/-- The watches of a loop as a table of connections. -/
def Io.watchers (io : Io) : List (Nat × Nat) := io.loop.watches.map fun w => (w.1, w.2.1)

structure Registered (t : TcpServer ε) (s : State) : Prop where
  peers : ∀ i, Registry (s.ios i).peers (s.keyOn t Peer.token i)
  watchers : ∀ i, Registry (s.ios i).watchers (s.keyOn t Peer.token i)
  timers : ∀ i, Registry (s.ios i).loop.timers (s.keyOn t Peer.timer i)
  ids : ∀ i, ∀ x ∈ (s.ios i).loop.timers, 0 < x.1 ∧ x.1 < (s.ios i).loop.next
  reasons : ∀ c, (s.conns c).closedBy.isSome = (s.conns c).peer.closed

/-- The connections that are accepted and not closed. -/
def State.openConns (s : State) : Finset Nat :=
  (Finset.range s.stats.accepted).filter fun c => (s.conns c).peer.closed = false

structure Counted (t : TcpServer ε) (s : State) : Prop where
  waiting : ∀ c < s.stats.accepted, (s.conns c).peer.token = 0 →
    .attach c ∈ (s.ios (t.home c)).loop.tasks
  active : s.stats.active = s.openConns.card
  capacity : s.stats.active ≤ t.maxConnections

structure Accounted (t : TcpServer ε) (s : State) : Prop extends Registered t s, Counted t s

/-! ## Steps that leave the tables alone -/

/-- What the tables depend on is the same. -/
structure Quiet (s s' : State) : Prop where
  token : ∀ c, (s'.conns c).peer.token = (s.conns c).peer.token
  timer : ∀ c, (s'.conns c).peer.timer = (s.conns c).peer.timer
  closed : ∀ c, (s'.conns c).peer.closed = (s.conns c).peer.closed
  closedBy : ∀ c, (s'.conns c).closedBy = (s.conns c).closedBy
  peers : ∀ i, (s'.ios i).peers = (s.ios i).peers
  watches : ∀ i, (s'.ios i).loop.watches = (s.ios i).loop.watches
  timers : ∀ i, (s'.ios i).loop.timers = (s.ios i).loop.timers
  next : ∀ i, (s'.ios i).loop.next = (s.ios i).loop.next

/-- Nor is a connection counted or forgotten. -/
structure Still (s s' : State) : Prop extends Quiet s s' where
  attaching : ∀ i c, .attach c ∈ (s.ios i).loop.tasks → .attach c ∈ (s'.ios i).loop.tasks
  active : s'.stats.active = s.stats.active
  accepted : s'.stats.accepted = s.stats.accepted

namespace Quiet

/-- Only tasks and counters change. -/
theorem of_tasks (conns : s'.conns = s.conns)
    (ios : ∀ i, (s'.ios i).peers = (s.ios i).peers ∧
      (s'.ios i).loop.watches = (s.ios i).loop.watches ∧
      (s'.ios i).loop.timers = (s.ios i).loop.timers ∧
      (s'.ios i).loop.next = (s.ios i).loop.next) : Quiet s s' where
  token c := by rw [conns]
  timer c := by rw [conns]
  closed c := by rw [conns]
  closedBy c := by rw [conns]
  peers i := (ios i).1
  watches i := (ios i).2.1
  timers i := (ios i).2.2.1
  next i := (ios i).2.2.2

theorem setIo {io : Io} (peers : io.peers = (s.ios i).peers)
    (watches : io.loop.watches = (s.ios i).loop.watches)
    (timers : io.loop.timers = (s.ios i).loop.timers) (next : io.loop.next = (s.ios i).loop.next) :
    Quiet s (s.setIo i io) := by
  refine of_tasks rfl fun j => ?_
  simp only [State.setIo, Function.update_apply]
  split_ifs with same
  · subst same
    exact ⟨peers, watches, timers, next⟩
  · exact ⟨rfl, rfl, rfl, rfl⟩

theorem keyOn (h : Quiet s s') {f : Peer → Nat}
    (same : ∀ c, f (s'.conns c).peer = f (s.conns c).peer) (i : Nat) :
    s'.keyOn t f i = s.keyOn t f i := by
  funext c
  have iff : s'.Attached t i c ↔ s.Attached t i c := by
    unfold State.Attached
    rw [h.token, h.closed]
  simp only [State.keyOn, iff, same]

end Quiet

theorem Registered.quiet (h : Registered t s) (same : Quiet s s') : Registered t s' where
  peers i := by
    rw [same.peers, same.keyOn same.token]
    exact h.peers i
  watchers i := by
    rw [Io.watchers, same.watches, same.keyOn same.token]
    exact h.watchers i
  timers i := by
    rw [same.timers, same.keyOn same.timer]
    exact h.timers i
  ids i := by
    rw [same.timers, same.next]
    exact h.ids i
  reasons c := by
    rw [same.closedBy, same.closed]
    exact h.reasons c

namespace Still

theorem trans {s'' : State} (h : Still s s') (h' : Still s' s'') : Still s s'' where
  token c := (h'.token c).trans (h.token c)
  timer c := (h'.timer c).trans (h.timer c)
  closed c := (h'.closed c).trans (h.closed c)
  closedBy c := (h'.closedBy c).trans (h.closedBy c)
  peers i := (h'.peers i).trans (h.peers i)
  watches i := (h'.watches i).trans (h.watches i)
  timers i := (h'.timers i).trans (h.timers i)
  next i := (h'.next i).trans (h.next i)
  attaching i c mem := h'.attaching i c (h.attaching i c mem)
  active := h'.active.trans h.active
  accepted := h'.accepted.trans h.accepted

/-- Nothing that is counted changes. -/
theorem of_eq (conns : s'.conns = s.conns) (ios : s'.ios = s.ios)
    (active : s'.stats.active = s.stats.active)
    (accepted : s'.stats.accepted = s.stats.accepted) : Still s s' where
  toQuiet := .of_tasks conns fun i => by simp [ios]
  attaching i c mem := ios ▸ mem
  active := active
  accepted := accepted

/-- The tasks of one loop change. -/
theorem setIo {io : Io} (peers : io.peers = (s.ios i).peers)
    (watches : io.loop.watches = (s.ios i).loop.watches)
    (timers : io.loop.timers = (s.ios i).loop.timers) (next : io.loop.next = (s.ios i).loop.next)
    (tasks : ∀ c, .attach c ∈ (s.ios i).loop.tasks → .attach c ∈ io.loop.tasks) :
    Still s (s.setIo i io) where
  toQuiet := .setIo peers watches timers next
  attaching j c mem := by
    simp only [State.setIo, Function.update_apply]
    split_ifs with same
    · exact tasks c (same ▸ mem)
    · exact mem
  active := rfl
  accepted := rfl

/-- The task at the front of a loop is taken. -/
theorem setTasks {task : Task} {rest : List Task} (head : (s.ios i).loop.tasks = task :: rest)
    (other : ∀ c, task ≠ .attach c) : Still s (s.setTasks i rest) := by
  refine .setIo rfl rfl rfl rfl fun c mem => ?_
  rw [head] at mem
  exact (List.mem_cons.mp mem).resolve_left fun here => other c here.symm

theorem post (i : Nat) (task : Task) : Still s (s.post i task) :=
  .setIo rfl rfl rfl rfl fun _ mem => List.mem_append_left _ mem

/-- A connection changes where no table looks. -/
theorem put (io : w.io = s.ios (t.home c)) (token : w.conn.peer.token = (s.conns c).peer.token)
    (timer : w.conn.peer.timer = (s.conns c).peer.timer)
    (closed : w.conn.peer.closed = (s.conns c).peer.closed)
    (closedBy : w.conn.closedBy = (s.conns c).closedBy)
    (active : w.stats.active = s.stats.active)
    (accepted : w.stats.accepted = s.stats.accepted) : Still s (s.put t c w) := by
  have ios : (s.put t c w).ios = s.ios := by
    rw [State.put, io, Function.update_eq_self]
  have conns : ∀ {β : Type} (f : Connection → β), f w.conn = f (s.conns c) → ∀ d,
      f ((s.put t c w).conns d) = f (s.conns d) := by
    intro β f own d
    rw [State.conns_put]
    split_ifs with same
    · rw [same, own]
    · rfl
  exact ⟨⟨conns (fun x => x.peer.token) token, conns (fun x => x.peer.timer) timer,
    conns (fun x => x.peer.closed) closed, conns Connection.closedBy closedBy, by simp [ios],
    by simp [ios], by simp [ios], by simp [ios]⟩, by simp [ios], active, accepted⟩

end Still

theorem Counted.still (h : Counted t s) (same : Still s s') : Counted t s' where
  waiting c early unattached :=
    same.attaching _ c (h.waiting c (same.accepted ▸ early) (same.token c ▸ unattached))
  active := by
    rw [same.active, h.active, State.openConns, State.openConns, same.accepted]
    simp only [same.closed]
  capacity := same.active ▸ h.capacity

theorem Accounted.still (h : Accounted t s) (same : Still s s') : Accounted t s' :=
  ⟨h.toRegistered.quiet same.toQuiet, h.toCounted.still same⟩

/-! ## Steps of one connection -/

/-- What a function that runs for the open connection `c` does to the tables of its loop. -/
inductive Rewire (c : Nat) (v w : View) : Prop where
  | same (timer : w.conn.peer.timer = v.conn.peer.timer)
      (closed : w.conn.peer.closed = v.conn.peer.closed)
      (closedBy : w.conn.closedBy = v.conn.closedBy) (peers : w.io.peers = v.io.peers)
      (watchers : w.io.watchers = v.io.watchers) (timers : w.io.loop.timers = v.io.loop.timers)
      (active : w.stats.active = v.stats.active)
  | armed (timer : w.conn.peer.timer = v.io.loop.next)
      (closed : w.conn.peer.closed = v.conn.peer.closed)
      (closedBy : w.conn.closedBy = v.conn.closedBy) (peers : w.io.peers = v.io.peers)
      (watchers : w.io.watchers = v.io.watchers)
      (timers : w.io.loop.timers =
        (v.io.loop.timers.filter fun x => x.1 ≠ v.conn.peer.timer) ++ [(v.io.loop.next, c)])
      (next : v.io.loop.next < w.io.loop.next) (active : w.stats.active = v.stats.active)
  | closed (closed : w.conn.peer.closed = true) (closedBy : w.conn.closedBy.isSome = true)
      (peers : w.io.peers = v.io.peers.filter fun x => x.1 ≠ v.conn.peer.token)
      (watchers : w.io.watchers = v.io.watchers.filter fun x => x.1 ≠ v.conn.peer.token)
      (timers : w.io.loop.timers = v.io.loop.timers.filter fun x => x.1 ≠ v.conn.peer.timer)
      (active : w.stats.active = usub v.stats.active 1)

namespace Rewire

/-- Fields that no table depends on may change first. -/
theorem close {u : View} {reason : CloseReason} (alive : v.conn.peer.closed = false)
    (peer : u.conn.peer.closed = v.conn.peer.closed)
    (token : u.conn.peer.token = v.conn.peer.token) (timer : u.conn.peer.timer = v.conn.peer.timer)
    (io : u.io = v.io) (active : u.stats.active = v.stats.active) :
    Rewire c v (u.close reason) := by
  rw [View.close, if_neg (by simp [peer, alive])]
  refine .closed rfl rfl (by simp [io, token]) ?_ ?_ (by simp [active])
  · simp [Io.watchers, Reactor.remove, Reactor.cancel, List.filter_map, Function.comp_def, io,
      token]
  · simp [Reactor.remove, Reactor.cancel, io, timer]

theorem move (alive : v.conn.peer.closed = false) (m : View.Move t c v w) : Rewire c v w := by
  cases m with
  | wrote _ _ _ =>
    unfold View.wrote
    split
    · exact .armed rfl rfl rfl rfl rfl rfl (Nat.lt_succ_self _) rfl
    · exact .same rfl rfl rfl rfl rfl rfl rfl
  | received _ _ _ _ _ => exact .same rfl rfl rfl rfl rfl rfl rfl
  | ended _ _ => exact .same rfl rfl rfl rfl rfl rfl rfl
  | accepted _ _ => exact .same rfl rfl rfl rfl rfl rfl rfl
  | rejected _ _ => exact close alive rfl rfl rfl rfl rfl
  | closed _ => exact close alive rfl rfl rfl rfl rfl
  | scheduled =>
    unfold View.schedule
    split
    · exact .same rfl rfl rfl rfl rfl rfl rfl
    · exact .same rfl rfl rfl rfl rfl rfl rfl
  | interest i =>
    refine .same rfl rfl rfl rfl ?_ rfl rfl
    simp only [View.modify, Reactor.modify, Io.watchers, List.map_map]
    refine List.map_congr_left fun x _ => ?_
    simp only [Function.comp_apply]
    split <;> rfl

end Rewire

theorem State.keyOn_of_attached {f : Peer → Nat} (h : s.Attached t i c) :
    s.keyOn t f i c = some (f (s.conns c).peer) := if_pos h

theorem State.keyOn_put (f : Peer → Nat) (i : Nat) :
    (s.put t c w).keyOn t f i = Function.update (s.keyOn t f i) c
      (if t.home c = i ∧ w.conn.peer.token ≠ 0 ∧ w.conn.peer.closed = false then
        some (f w.conn.peer) else none) := by
  funext d
  by_cases same : d = c
  · subst same
    simp [State.keyOn, State.Attached, State.conns_put]
  · simp [State.keyOn, State.Attached, State.conns_put, same]

/-- The other loops do not notice. -/
theorem State.keyOn_put_of_ne {f : Peer → Nat} (away : t.home c ≠ i) :
    (s.put t c w).keyOn t f i = s.keyOn t f i := by
  have none : s.keyOn t f i c = none := if_neg fun h => away h.1
  rw [State.keyOn_put, if_neg fun h => away h.1, ← none, Function.update_eq_self]

theorem State.ios_put (i : Nat) :
    (s.put t c w).ios i = if i = t.home c then w.io else s.ios i := by
  simp [State.put, Function.update_apply]

/-- A registry of each loop survives if that of the connection's own loop does. -/
theorem Registry.put (table : Io → List (Nat × Nat)) {f : Peer → Nat}
    (h : ∀ i, Registry (table (s.ios i)) (s.keyOn t f i))
    (own : Registry (table w.io) ((s.put t c w).keyOn t f (t.home c))) (i : Nat) :
    Registry (table ((s.put t c w).ios i)) ((s.put t c w).keyOn t f i) := by
  rw [State.ios_put]
  split_ifs with home
  · subst home
    exact own
  · rw [State.keyOn_put_of_ne (Ne.symm home)]
    exact h i

/-- The connection stays open and keeps its entry. -/
theorem Registry.keep (table : Io → List (Nat × Nat)) {f : Peer → Nat}
    (h : ∀ i, Registry (table (s.ios i)) (s.keyOn t f i)) (attached : s.Attached t (t.home c) c)
    (token : w.conn.peer.token = (s.conns c).peer.token)
    (closed : w.conn.peer.closed = (s.conns c).peer.closed)
    (entry : f w.conn.peer = f (s.conns c).peer)
    (entries : table w.io = table (s.ios (t.home c))) (i : Nat) :
    Registry (table ((s.put t c w).ios i)) ((s.put t c w).keyOn t f i) := by
  refine Registry.put table h ?_ i
  have same : (s.put t c w).keyOn t f (t.home c) = s.keyOn t f (t.home c) := by
    rw [State.keyOn_put, token, closed, if_pos ⟨rfl, attached.2⟩, entry,
      ← State.keyOn_of_attached attached, Function.update_eq_self]
  rw [entries, same]
  exact h (t.home c)

/-- The connection is closed and loses its entry. -/
theorem Registry.close (table : Io → List (Nat × Nat)) {f : Peer → Nat}
    (h : ∀ i, Registry (table (s.ios i)) (s.keyOn t f i)) (attached : s.Attached t (t.home c) c)
    (closed : w.conn.peer.closed = true)
    (entries : table w.io =
      (table (s.ios (t.home c))).filter fun x => x.1 ≠ f (s.conns c).peer) (i : Nat) :
    Registry (table ((s.put t c w).ios i)) ((s.put t c w).keyOn t f i) := by
  refine Registry.put table h ?_ i
  rw [entries, State.keyOn_put, if_neg (by simp [closed])]
  exact (h (t.home c)).remove (State.keyOn_of_attached attached)

/-- The connection's timer is set anew. -/
theorem Registry.rearm {f : Peer → Nat} (h : ∀ i, Registry (s.ios i).loop.timers (s.keyOn t f i))
    (attached : s.Attached t (t.home c) c)
    (below : ∀ x ∈ (s.ios (t.home c)).loop.timers, x.1 < (s.ios (t.home c)).loop.next)
    (token : w.conn.peer.token = (s.conns c).peer.token)
    (closed : w.conn.peer.closed = (s.conns c).peer.closed)
    (entry : f w.conn.peer = (s.ios (t.home c)).loop.next)
    (entries : w.io.loop.timers = ((s.ios (t.home c)).loop.timers.filter fun x =>
      x.1 ≠ f (s.conns c).peer) ++ [((s.ios (t.home c)).loop.next, c)]) (i : Nat) :
    Registry ((s.put t c w).ios i).loop.timers ((s.put t c w).keyOn t f i) := by
  refine Registry.put (fun io => io.loop.timers) h ?_ i
  have removed := (h (t.home c)).remove (State.keyOn_of_attached attached)
  have added := removed.add (k := (s.ios (t.home c)).loop.next) (Function.update_self ..)
    fun x mem => (below x (List.mem_filter.mp mem).1).ne
  rw [Function.update_idem] at added
  rw [entries, State.keyOn_put, token, closed, if_pos ⟨rfl, attached.2⟩, entry]
  exact added

theorem Registered.ids_put (h : Registered t s)
    (own : ∀ x ∈ w.io.loop.timers, 0 < x.1 ∧ x.1 < w.io.loop.next) (i : Nat) :
    ∀ x ∈ ((s.put t c w).ios i).loop.timers, 0 < x.1 ∧ x.1 < ((s.put t c w).ios i).loop.next := by
  rw [State.ios_put]
  split_ifs
  · exact own
  · exact h.ids i

theorem Registered.reasons_put (h : Registered t s)
    (own : w.conn.closedBy.isSome = w.conn.peer.closed) (d : Nat) :
    ((s.put t c w).conns d).closedBy.isSome = ((s.put t c w).conns d).peer.closed := by
  rw [State.conns_put]
  split_ifs
  · exact own
  · exact h.reasons d

theorem Registered.put (h : Registered t s) (wired : Wired t s)
    (attached : s.Attached t (t.home c) c)
    (tidy : Tidy c (s.view t c) w) (rewire : Rewire c (s.view t c) w) :
    Registered t (s.put t c w) := by
  have token : w.conn.peer.token = (s.conns c).peer.token := tidy.token
  have next : (s.ios (t.home c)).loop.next ≤ w.io.loop.next := tidy.next
  have ids := h.ids (t.home c)
  cases rewire with
  | same timer closed closedBy peers watchers timers _ =>
    refine ⟨Registry.keep Io.peers h.peers attached token closed token peers,
      Registry.keep Io.watchers h.watchers attached token closed token watchers,
      Registry.keep (fun io => io.loop.timers) h.timers attached token closed timer timers,
      h.ids_put fun x mem => ?_, h.reasons_put (by rw [closedBy, closed]; exact h.reasons c)⟩
    rw [timers] at mem
    exact ⟨(ids x mem).1, lt_of_lt_of_le (ids x mem).2 next⟩
  | armed timer closed closedBy peers watchers timers later _ =>
    refine ⟨Registry.keep Io.peers h.peers attached token closed token peers,
      Registry.keep Io.watchers h.watchers attached token closed token watchers,
      Registry.rearm h.timers attached (fun x mem => (ids x mem).2) token closed timer timers,
      h.ids_put fun x mem => ?_, h.reasons_put (by rw [closedBy, closed]; exact h.reasons c)⟩
    rw [timers] at mem
    obtain old | new := List.mem_append.mp mem
    · have before := ids x (List.mem_filter.mp old).1
      exact ⟨before.1, lt_of_lt_of_le before.2 next⟩
    · rw [List.mem_singleton.mp new]
      exact ⟨(wired.ids (t.home c)).1, later⟩
  | closed closed closedBy peers watchers timers _ =>
    refine ⟨Registry.close Io.peers h.peers attached closed peers,
      Registry.close Io.watchers h.watchers attached closed watchers,
      Registry.close (fun io => io.loop.timers) h.timers attached closed timers,
      h.ids_put fun x mem => ?_, h.reasons_put (closedBy.trans closed.symm)⟩
    rw [timers] at mem
    have before := ids x (List.mem_filter.mp mem).1
    exact ⟨before.1, lt_of_lt_of_le before.2 next⟩

theorem State.mem_openConns :
    c ∈ s.openConns ↔ c < s.stats.accepted ∧ (s.conns c).peer.closed = false := by
  simp [State.openConns]

theorem State.openConns_put (accepted : w.stats.accepted = s.stats.accepted)
    (closed : w.conn.peer.closed = (s.conns c).peer.closed) :
    (s.put t c w).openConns = s.openConns := by
  ext d
  rw [State.mem_openConns, State.mem_openConns, State.conns_put]
  split_ifs with same
  · rw [same, closed]
    exact and_congr_left' (by rw [← accepted]; rfl)
  · exact and_congr_left' (by rw [← accepted]; rfl)

theorem State.openConns_close (accepted : w.stats.accepted = s.stats.accepted)
    (closed : w.conn.peer.closed = true) : (s.put t c w).openConns = s.openConns.erase c := by
  ext d
  rw [State.mem_openConns, Finset.mem_erase, State.mem_openConns, State.conns_put, ← accepted]
  split_ifs with same
  · simp [same, closed]
  · simp [same, State.put]

theorem Counted.put (h : Counted t s) (wired : Wired t s) (attached : s.Attached t (t.home c) c)
    (tidy : Tidy c (s.view t c) w) (rewire : Rewire c (s.view t c) w) :
    Counted t (s.put t c w) := by
  have accepted : w.stats.accepted = s.stats.accepted := tidy.accepted
  have member : c ∈ s.openConns := by
    refine State.mem_openConns.mpr ⟨?_, attached.2.2⟩
    by_contra late
    exact attached.2.1 (wired.later c (by omega))
  have waiting : ∀ d < (s.put t c w).stats.accepted, ((s.put t c w).conns d).peer.token = 0 →
      .attach d ∈ ((s.put t c w).ios (t.home d)).loop.tasks := by
    intro d early unattached
    rw [State.conns_put] at unattached
    split_ifs at unattached with same
    · exact absurd (tidy.token.symm.trans unattached) attached.2.1
    · have posted := h.waiting d (accepted ▸ early) unattached
      rw [State.ios_put]
      split_ifs with home
      · rw [home] at posted
        exact tidy.task_mem posted
      · exact posted
  have kept : w.conn.peer.closed = (s.conns c).peer.closed → w.stats.active = s.stats.active →
      Counted t (s.put t c w) := by
    intro closed active
    refine ⟨waiting, ?_, active.trans_le h.capacity⟩
    rw [State.openConns_put accepted closed, ← h.active]
    exact active
  cases rewire with
  | same _ closed _ _ _ _ active => exact kept closed active
  | armed _ closed _ _ _ _ _ active => exact kept closed active
  | closed closed _ _ _ _ active =>
    -- the connection is among those that are counted
    have positive : 0 < s.openConns.card := Finset.card_pos.mpr ⟨c, member⟩
    have less : w.stats.active = s.openConns.card - 1 := by
      rw [← h.active]
      exact active.trans (usub_of_le (by rw [State.view, h.active]; exact positive))
    refine ⟨waiting, ?_, ?_⟩
    · rw [State.openConns_close accepted closed, Finset.card_erase_of_mem member]
      exact less
    · have bound := h.capacity
      rw [h.active] at bound
      exact less.trans_le (by omega)

theorem Accounted.put (h : Accounted t s) (wired : Wired t s)
    (attached : s.Attached t (t.home c) c) (tidy : Tidy c (s.view t c) w)
    (rewire : Rewire c (s.view t c) w) : Accounted t (s.put t c w) :=
  ⟨h.toRegistered.put wired attached tidy rewire, h.toCounted.put wired attached tidy rewire⟩

/-! ## Connections come in -/

/-- A connection enters a table. -/
theorem Registry.enter (table : Io → List (Nat × Nat)) {f : Peer → Nat}
    (h : ∀ i, Registry (table (s.ios i)) (s.keyOn t f i)) (unattached : (s.conns c).peer.token = 0)
    (token : w.conn.peer.token ≠ 0) (alive : w.conn.peer.closed = false)
    (unused : ∀ x ∈ table (s.ios (t.home c)), x.1 ≠ f w.conn.peer)
    (entries : table w.io = table (s.ios (t.home c)) ++ [(f w.conn.peer, c)]) (i : Nat) :
    Registry (table ((s.put t c w).ios i)) ((s.put t c w).keyOn t f i) := by
  refine Registry.put table h ?_ i
  rw [entries, State.keyOn_put, if_pos ⟨rfl, token, alive⟩]
  exact (h (t.home c)).add (if_neg fun attached => attached.2.1 unattached) unused

theorem Registered.attach (h : Registered t s) (wired : Wired t s)
    (unattached : (s.conns c).peer.token = 0) : Registered t (s.on t c (View.attach c)) := by
  obtain ⟨fresh, -⟩ := wired.unborn c unattached
  obtain ⟨positive, below⟩ := wired.ids (t.home c)
  have ids := h.ids (t.home c)
  have watched : ∀ x ∈ (s.ios (t.home c)).watchers, x.1 ≠ (s.ios (t.home c)).loop.next := by
    intro x mem
    obtain ⟨y, mem', rfl⟩ := List.mem_map.mp mem
    exact (below y mem').ne
  have peers : ∀ x ∈ (s.ios (t.home c)).peers, x.1 ≠ (s.ios (t.home c)).loop.next := fun x mem =>
    watched x (((h.watchers _).mem x).mpr (((h.peers _).mem x).mp mem))
  have alive : (View.attach c (s.view t c)).conn.peer.closed = false := by
    simp [View.attach, View.deadline, fresh]
  -- no timer has been set, so none is cancelled
  have timers : (View.attach c (s.view t c)).io.loop.timers =
      (s.ios (t.home c)).loop.timers ++ [((s.ios (t.home c)).loop.next + 1, c)] := by
    have unset : (s.view t c).conn.peer.timer = 0 := by simp [fresh]
    have kept := Registry.filter_unused (k := 0) fun x mem => (ids x mem).1.ne'
    simp only [View.attach, View.deadline, Reactor.timerAt, Reactor.cancel, Reactor.add]
    rw [unset]
    exact congrArg (· ++ _) kept
  refine ⟨Registry.enter Io.peers h.peers unattached positive.ne' alive peers rfl,
    Registry.enter Io.watchers h.watchers unattached positive.ne' alive watched ?_,
    Registry.enter (fun io => io.loop.timers) h.timers unattached positive.ne' alive
      (fun x mem => ((ids x mem).2.trans (Nat.lt_succ_self _)).ne) timers,
    h.ids_put fun x mem => ?_, h.reasons_put ?_⟩
  · simp [View.attach, View.deadline, Io.watchers, Reactor.timerAt, Reactor.cancel, Reactor.add,
      State.view]
  · rw [timers] at mem
    have next : (View.attach c (s.view t c)).io.loop.next = (s.ios (t.home c)).loop.next + 2 := rfl
    obtain old | new := List.mem_append.mp mem
    · have := ids x old
      omega
    · rw [List.mem_singleton.mp new]
      omega
  · simp [View.attach, View.deadline, fresh]

theorem Accounted.attach (h : Accounted t s) (wired : Wired t s) {rest : List Task}
    (head : (s.ios i).loop.tasks = .attach c :: rest) :
    Accounted t ((s.setTasks i rest).on t c (View.attach c)) := by
  obtain ⟨unattached, -, -⟩ := wired.tasks i (.attach c) (by simp [head])
  have popped : Quiet s (s.setTasks i rest) := .setIo rfl rfl rfl rfl
  refine ⟨(h.toRegistered.quiet popped).attach (wired.setTasks head) unattached, ?_, ?_, h.capacity⟩
  · intro d early unattached'
    have positive := ((wired.setTasks head).ids (t.home c)).1
    rw [State.on, State.conns_put] at unattached'
    split_ifs at unattached' with same
    · exact absurd unattached' positive.ne'
    · have posted := h.waiting d early unattached'
      have left : .attach d ∈ ((s.setTasks i rest).ios (t.home d)).loop.tasks := by
        simp only [State.setTasks, State.setIo, Function.update_apply]
        split_ifs with home
        · rw [home, head] at posted
          exact (List.mem_cons.mp posted).resolve_left (by simp [same])
        · exact posted
      rw [State.on, State.ios_put]
      split_ifs with home
      · rw [home] at left
        exact left
      · exact left
  · rw [State.on, State.openConns_put]
    · exact h.active
    · rfl
    · rfl

theorem Accounted.accept (h : Accounted t s) (wired : Wired t s) : Accounted t (s.accept t) := by
  unfold State.accept
  split
  case isTrue => exact h.still (.of_eq rfl rfl rfl rfl)
  case isFalse room =>
    refine ⟨h.toRegistered.quiet (.of_tasks rfl fun i => ?_), ?_, ?_, ?_⟩
    · simp only [State.post, State.setIo, Function.update_apply]
      split_ifs with home
      · rw [home]
        exact ⟨rfl, rfl, rfl, rfl⟩
      · exact ⟨rfl, rfl, rfl, rfl⟩
    · intro c early unattached
      have posted := Still.post (s := { s with
        stats.active := s.stats.active + 1, stats.accepted := s.stats.accepted + 1 })
        (t.home s.stats.accepted) (.attach s.stats.accepted)
      obtain old | rfl := Nat.lt_succ_iff_lt_or_eq.mp early
      · exact posted.attaching _ c (h.waiting c old unattached)
      · simp [State.post, State.setIo, Reactor.post]
    · -- the new connection is the last of those accepted, and it is open
      have fresh := (wired.unborn _ (wired.later s.stats.accepted le_rfl)).1
      have grown : ({ s with
          stats.active := s.stats.active + 1
          stats.accepted := s.stats.accepted + 1 } : State).openConns =
            insert s.stats.accepted s.openConns := by
        simp [State.openConns, Finset.range_add_one, Finset.filter_insert, fresh]
      refine Eq.trans ?_ (congrArg Finset.card grown).symm
      rw [Finset.card_insert_of_notMem (by simp [State.openConns]), ← h.active]
      rfl
    · exact Nat.succ_le_of_lt (Nat.lt_of_not_le room)

/-! ## Acts -/

theorem Accounted.calm (h : Accounted t s) (wired : Wired t s) (calm : Calm t s s') :
    Accounted t s' := by
  obtain ⟨act, timeouts, -⟩ := calm
  cases act with
  | move attached alive m => exact h.put wired ⟨rfl, attached, alive⟩ (.move m) (.move alive m)
  | attach head => exact h.attach wired head
  | resume head =>
    exact h.still ((Still.setTasks head (by simp)).trans (.put rfl rfl rfl rfl rfl rfl rfl))
  | drop head _ => exact h.still (.setTasks head (by simp))
  | refuse head attached alive _ =>
    have popped := h.still (.setTasks head (by simp))
    exact popped.put (wired.setTasks head) ⟨rfl, attached, alive⟩
      ((Tidy.close _ _ _).after rfl rfl rfl rfl) (.close alive rfl rfl rfl rfl rfl)
  | absorb head _ _ _ =>
    exact h.still ((Still.setTasks head (by simp)).trans (.put rfl rfl rfl rfl rfl rfl rfl))
  | expire _ => exact absurd timeouts (Nat.succ_ne_self _)
  | accept _ => exact h.accept wired
  | take _ => exact h.still (.of_eq rfl rfl rfl rfl)
  | handle _ => exact h.still (.of_eq rfl rfl rfl rfl)
  | @complete _ job reply queue _ =>
    have moved : Still s { s with queue := queue } := .of_eq rfl rfl rfl rfl
    exact h.still (moved.trans (.post _ _))
  | closing => exact h.still (.of_eq rfl rfl rfl rfl)
  | join _ _ =>
    refine h.still ⟨.of_tasks rfl fun i => ?_, fun i c mem => ?_, rfl, rfl⟩
    · dsimp only
      split <;> exact ⟨rfl, rfl, rfl, rfl⟩
    · dsimp only
      split
      · exact List.mem_append_left _ mem
      · exact mem
  | closeAll head => exact h.still (.setTasks head (by simp))
  | stop => exact h.still (.setIo rfl rfl rfl rfl fun _ mem => mem)

theorem Accounted.calms (h : Accounted t s) (base : Base t s) (wired : Wired t s)
    (calms : Calms t s s') : Accounted t s' := by
  induction calms with
  | refl => exact h
  | tail before last ih =>
    have reached := Wired.acts base wired (Calms.acts before)
    exact ih.calm reached.2 last

/-- A timer that fires belongs to an open connection, and is cancelled once more on the way. -/
theorem Registered.timer_eq (h : Registered t s) {id : Nat}
    (live : (s.ios i).loop.timers.lookup id = some c) :
    s.Attached t (t.home c) c ∧
      (s.setIo i { s.ios i with loop := (s.ios i).loop.cancel id }).on t c View.onTimeout =
        s.on t c View.onTimeout := by
  have mem : (id, c) ∈ (s.ios i).loop.timers := Assoc.mem_of_lookup live
  have owner : s.keyOn t Peer.timer i c = some id := ((h.timers i).mem (id, c)).mp mem
  obtain ⟨attached, own⟩ := Option.ite_none_right_eq_some.mp owner
  obtain rfl := attached.1
  obtain rfl : (s.conns c).peer.timer = id := Option.some.inj own
  have alive := attached.2.2
  refine ⟨attached, ?_⟩
  simp only [State.on, State.put, State.setIo, Function.update_idem, State.view,
    Function.update_self, View.onTimeout, View.close, alive, Bool.false_eq_true, if_false,
    Reactor.cancel_cancel]
  rfl

theorem Accounted.timeout (h : Accounted t s) (wired : Wired t s)
    (attached : s.Attached t (t.home c) c) : Accounted t (s.on t c View.onTimeout) :=
  h.put wired attached ((Tidy.close c _ _).after rfl rfl rfl rfl)
    (.close attached.2.2 rfl rfl rfl rfl rfl)

end KVRPC.Server
