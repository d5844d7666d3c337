import KVRPC.Client.Transport
import KVRPC.Library.Runs

/-!
# The connection pool

`ConnectionPool` of `connection_pool.h`, the pool of synchronous clients. A connection is a number
below the size of the pool. Threads acquire, wait and connect; a lease ends in any thread; the
pool may be closed, and its wrapper destroyed, at any point in between. What happens while the
mutex is held is one step.

The invariant is an inventory: the free list, the leases and the connections that were destroyed
are together the connections the constructor made (`Effect.places`).
-/
namespace KVRPC.Client.ConnectionPool

open Library

/-- Where a thread is in a method of the pool. -/
inductive Caller where
  | idle
  /-- In `Acquire`, before its first look at the free list. -/
  | entering
  | asleep
  | notified
  | connecting (conn : Nat)
  /-- The connect failed and the lease has still to end. -/
  | unwinding (conn : Nat) (error : Error)
  | threw (error : Error)
  /-- In `Close`, before it wakes the waiting threads. -/
  | notifying
  deriving DecidableEq

/-- The connection of the lease that the thread's own `Acquire` holds. -/
def Caller.conn : Caller → Option Nat
  | .connecting conn | .unwinding conn _ => some conn
  | _ => none

/-- The thread is woken if it sleeps. -/
def Caller.wake : Caller → Caller
  | .asleep => .notified
  | caller => caller

structure Pool where
  free : List Nat
  closed : Bool := false
  /-- The wrapper has not been destroyed. -/
  alive : Bool := true
  callers : List Caller := []
  /-- The connections of the leases that `Acquire` has returned. -/
  leases : List Nat := []
  /-- Those of the leases without an owner, before their deleter has the mutex. -/
  ending : List Nat := []
  /-- What has been destroyed so far. -/
  destroyed : List Nat := []
  deriving DecidableEq

/-- The result of `IsConnected` or else `Connect`. -/
inductive Connected where
  | ready
  | timedOut
  | failed
  deriving DecidableEq

/-- `woken` is the thread that `notify_one` wakes. -/
inductive Event where
  | spawn
  | acquire (thread : Nat)
  | attempt (thread : Nat)
  | rouse (thread : Nat)
  | expire (thread : Nat)
  | connect (thread : Nat) (result : Connected)
  | unwind (thread : Nat) (woken : Option Nat)
  | handle (thread : Nat)
  | drop (conn : Nat)
  | restore (conn : Nat) (woken : Option Nat)
  | close (thread : Nat)
  | destruct (thread : Nat)
  | notify (thread : Nat)
  deriving DecidableEq

/-- `parses` is the verdict of `inet_pton`; the timeout is in milliseconds. -/
def Invalid (size port : Nat) (parses : Bool) (acquireTimeout : Int) : Prop :=
  size = 0 ∨ 4096 < size ∨ port = 0 ∨ parses = false ∨ acquireTimeout ≤ 0 ∨
    24 * 60 * 60 * 1000 < acquireTimeout

instance (size port : Nat) (parses : Bool) (acquireTimeout : Int) :
    Decidable (Invalid size port parses acquireTimeout) := by
  unfold Invalid; infer_instance

/-- The check of the constructor of `TcpConnection`. -/
def InvalidTimeouts (options : TransportOptions) : Prop :=
  options.connectTimeout ≤ 0 ∨ options.ioTimeout ≤ 0 ∨ 2 ^ 31 - 1 < options.connectTimeout ∨
    2 ^ 31 - 1 < options.ioTimeout

instance (options : TransportOptions) : Decidable (InvalidTimeouts options) := by
  unfold InvalidTimeouts; infer_instance

def create (size port : Nat) (parses : Bool) (options : TransportOptions)
    (acquireTimeout : Int := 5000) : Except Error Pool :=
  if Invalid size port parses acquireTimeout then
    .error ⟨.invalidArgument, "Invalid pool size, IPv4 address, port, or acquire timeout"⟩
  else if InvalidTimeouts options then
    .error ⟨.invalidArgument, "Transport timeouts must be in [1, INT_MAX] milliseconds"⟩
  else .ok { free := List.range size }

def timedOut : Error := ⟨.timeout, "Connection pool acquisition timed out"⟩

def poolClosed : Error := ⟨.closed, "Connection pool is closed"⟩

namespace Pool

def set (p : Pool) (thread : Nat) (caller : Caller) : Pool :=
  { p with callers := p.callers.set thread caller }

/-- `Acquire` looks at the pool: what it does when the pool is open and has no connection to
spare is left to the place in `wait_for` from which it looks. -/
def look (p : Pool) (thread : Nat) (otherwise : Caller) : Pool :=
  if p.closed then p.set thread (.threw poolClosed)
  else
    match p.free.getLast? with
    | none => p.set thread otherwise
    | some conn => { p.set thread (.connecting conn) with free := p.free.dropLast }

/-- The deleter of a lease. -/
def giveBack (p : Pool) (conn : Nat) : Pool :=
  if p.closed then { p with destroyed := p.destroyed ++ [conn] }
  else { p with free := p.free ++ [conn] }

/-- Some sleeping thread is woken if there is one. -/
def notifyOne (p : Pool) : Option Nat → Option Pool
  | none => if .asleep ∈ p.callers then none else some p
  | some thread =>
    if p.callers[thread]? = some .asleep then some (p.set thread .notified) else none

/-- The part of `Close` that holds the mutex. -/
def shut (p : Pool) (thread : Nat) : Pool :=
  { p.set thread .notifying with closed := true, free := [], destroyed := p.destroyed ++ p.free }

/-- A method of the wrapper is called only while it exists. -/
def step (p : Pool) : Event → Option Pool
  | .spawn => some { p with callers := p.callers ++ [.idle] }
  | .acquire thread =>
    if p.alive ∧ p.callers[thread]? = some .idle then some (p.set thread .entering) else none
  | .attempt thread =>
    if p.callers[thread]? = some .entering ∨ p.callers[thread]? = some .notified then
      some (p.look thread .asleep)
    else none
  | .rouse thread =>
    if p.callers[thread]? = some .asleep then some (p.set thread .notified) else none
  | .expire thread =>
    if p.callers[thread]? = some .asleep ∨ p.callers[thread]? = some .notified then
      some (p.look thread (.threw timedOut))
    else none
  | .connect thread result =>
    match p.callers[thread]?, result with
    | some (.connecting conn), .ready =>
      some { p.set thread .idle with leases := p.leases ++ [conn] }
    | some (.connecting conn), .timedOut =>
      some (p.set thread (.unwinding conn ⟨.timeout, "Unable to connect to server"⟩))
    | some (.connecting conn), .failed =>
      some (p.set thread (.unwinding conn ⟨.connection, "Unable to connect to server"⟩))
    | _, _ => none
  | .unwind thread woken =>
    match p.callers[thread]? with
    | some (.unwinding conn error) => ((p.set thread (.threw error)).giveBack conn).notifyOne woken
    | _ => none
  | .handle thread =>
    match p.callers[thread]? with
    | some (.threw _) => some (p.set thread .idle)
    | _ => none
  | .drop conn =>
    if conn ∈ p.leases then
      some { p with leases := p.leases.erase conn, ending := p.ending ++ [conn] }
    else none
  | .restore conn woken =>
    if conn ∈ p.ending then
      ({ p with ending := p.ending.erase conn }.giveBack conn).notifyOne woken
    else none
  | .close thread =>
    if p.alive ∧ p.callers[thread]? = some .idle then some (p.shut thread) else none
  | .destruct thread =>
    if p.alive ∧ p.callers[thread]? = some .idle then
      some { p.shut thread with alive := false }
    else none
  | .notify thread =>
    if p.callers[thread]? = some .notifying then
      some { p with callers := (p.callers.set thread .idle).map Caller.wake }
    else none

abbrev Runs (init : Pool) (trace : List (Pool × Event)) (p : Pool) : Prop :=
  Run (fun p e p' => step p e = some p') (fun _ => False) init trace p

/-! ## The inventory -/

/-- The connections of all leases: of the threads in `Acquire`, of those that were handed out and
of those that are ending. -/
def held (p : Pool) : List Nat := p.callers.filterMap Caller.conn ++ p.leases ++ p.ending

def places (p : Pool) : List Nat := p.free ++ p.held ++ p.destroyed

theorem filterMap_set {callers : List Caller} {thread : Nat} {old : Caller} (new : Caller)
    (h : callers[thread]? = some old) :
    (old.conn.toList ++ (callers.set thread new).filterMap Caller.conn).Perm
      (new.conn.toList ++ callers.filterMap Caller.conn) := by
  induction callers generalizing thread with
  | nil => simp at h
  | cons caller callers ih =>
    cases thread with
    | zero =>
      obtain rfl : caller = old := by simpa using h
      simp only [List.set_cons_zero, List.filterMap_cons]
      cases caller.conn <;> cases new.conn <;> simp [List.Perm.swap]
    | succ thread =>
      have rest := ih (by simpa using h)
      simp only [List.set_cons_succ, List.filterMap_cons]
      cases caller.conn with
      | none => exact rest
      | some conn =>
        exact List.perm_middle.trans ((rest.cons conn).trans List.perm_middle.symm)

variable {p p' : Pool} {thread : Nat} {old new : Caller} {conn : Nat}

theorem held_set (new : Caller) (h : p.callers[thread]? = some old) :
    (old.conn.toList ++ (p.set thread new).held).Perm (new.conn.toList ++ p.held) := by
  have moved := (filterMap_set new h).append_right (p.leases ++ p.ending)
  simpa [held, set] using moved

/-- The lease of the connection ends. -/
structure Ended (conn : Nat) (p p' : Pool) : Prop where
  closed : p'.closed = p.closed
  held : p.held.Perm (conn :: p'.held)
  returned : p.closed = false → p'.free = p.free ++ [conn] ∧ p'.destroyed = p.destroyed
  destroyed : p.closed = true → p'.free = p.free ∧ p'.destroyed = p.destroyed ++ [conn]

/-- What a step does to the connections. -/
inductive Effect (p p' : Pool) : Prop where
  | quiet (closed : p'.closed = p.closed) (free : p'.free = p.free) (held : p'.held.Perm p.held)
      (destroyed : p'.destroyed = p.destroyed)
  | leased (conn : Nat) (opened : p.closed = false) (closed : p'.closed = p.closed)
      (free : p.free = p'.free ++ [conn]) (held : p'.held.Perm (conn :: p.held))
      (destroyed : p'.destroyed = p.destroyed)
  | ended (conn : Nat) (lease : Ended conn p p')
  | shut (closed : p'.closed = true) (free : p'.free = []) (held : p'.held.Perm p.held)
      (destroyed : p'.destroyed = p.destroyed ++ p.free)

theorem Effect.of_set (h : p.callers[thread]? = some old) (same : new.conn = old.conn) :
    Effect p (p.set thread new) := by
  have held := held_set new h
  rw [same] at held
  exact .quiet rfl rfl ((List.perm_append_left_iff _).mp held) rfl

theorem Effect.of_look (h : p.callers[thread]? = some old) (before : old.conn = none)
    (after : new.conn = none) : Effect p (p.look thread new) := by
  unfold look
  split
  case isTrue => exact .of_set h before.symm
  case isFalse opened =>
    split
    case h_1 => exact .of_set h (after.trans before.symm)
    case h_2 conn last =>
      have held := held_set (.connecting conn) h
      rw [before] at held
      exact .leased conn (by simpa using opened) rfl
        (List.dropLast_append_getLast? conn last).symm held rfl

theorem notifyOne_frame {woken : Option Nat} (h : p.notifyOne woken = some p') :
    p'.closed = p.closed ∧ p'.free = p.free ∧ p'.held.Perm p.held ∧ p'.destroyed = p.destroyed := by
  cases woken with
  | none =>
    obtain ⟨-, ⟨⟩⟩ := Option.ite_none_left_eq_some.mp h
    exact ⟨rfl, rfl, .rfl, rfl⟩
  | some thread =>
    obtain ⟨asleep, ⟨⟩⟩ := Option.ite_none_right_eq_some.mp h
    exact ⟨rfl, rfl, held_set .notified asleep, rfl⟩

/-- The deleter of a lease, whose connection is no longer held in `out`. -/
theorem Ended.of_giveBack (out : Pool) {woken : Option Nat} (closed : out.closed = p.closed)
    (free : out.free = p.free) (held : p.held.Perm (conn :: out.held))
    (destroyed : out.destroyed = p.destroyed)
    (h : (out.giveBack conn).notifyOne woken = some p') : Ended conn p p' := by
  obtain ⟨closed', free', held', destroyed'⟩ := notifyOne_frame h
  unfold giveBack at closed' free' held' destroyed'
  rw [closed] at closed' free' held' destroyed'
  cases here : p.closed with
  | true =>
    simp only [here, if_true] at closed' free' held' destroyed'
    exact ⟨closed'.trans here.symm, held.trans (held'.symm.cons conn), by simp [here],
      fun _ => ⟨free'.trans free, by rw [destroyed', destroyed]⟩⟩
  | false =>
    simp only [here, Bool.false_eq_true, if_false] at closed' free' held' destroyed'
    exact ⟨closed'.trans here.symm, held.trans (held'.symm.cons conn),
      fun _ => ⟨by rw [free', free], destroyed'.trans destroyed⟩, by simp [here]⟩

/-- The connection whose lease the event ends. -/
def ends (p : Pool) : Event → Option Nat
  | .restore conn _ => some conn
  | .unwind thread _ => p.callers[thread]?.bind Caller.conn
  | _ => none

theorem step_ended {e : Event} (h : step p e = some p') (ending : p.ends e = some conn) :
    Ended conn p p' := by
  cases e with
  | unwind thread woken =>
    simp only [step] at h
    split at h
    case h_1 held error here =>
      obtain rfl : held = conn := by simpa [ends, here, Caller.conn] using ending
      exact .of_giveBack (p.set thread (.threw error)) rfl rfl
        (held_set (.threw error) here).symm rfl h
    case h_2 => cases h
  | restore held woken =>
    cases ending
    obtain ⟨ends, later⟩ := Option.ite_none_right_eq_some.mp h
    refine .of_giveBack { p with ending := p.ending.erase conn } rfl rfl
      (List.perm_iff_count.mpr fun other => ?_) rfl later
    have moved := (List.perm_cons_erase ends).count_eq other
    simp only [held, List.count_append, List.count_cons] at moved ⊢
    omega
  | _ => cases ending

theorem conn_wake (caller : Caller) : caller.wake.conn = caller.conn := by
  cases caller <;> rfl

theorem step_effect {e : Event} (h : step p e = some p') : Effect p p' := by
  cases e with
  | spawn =>
    cases h
    exact .quiet rfl rfl (by simp [held, Caller.conn, List.filterMap_cons]) rfl
  | acquire thread =>
    obtain ⟨⟨-, here⟩, ⟨⟩⟩ := Option.ite_none_right_eq_some.mp h
    exact .of_set here rfl
  | attempt thread =>
    obtain ⟨here | here, ⟨⟩⟩ := Option.ite_none_right_eq_some.mp h
    · exact .of_look here rfl rfl
    · exact .of_look here rfl rfl
  | rouse thread =>
    obtain ⟨here, ⟨⟩⟩ := Option.ite_none_right_eq_some.mp h
    exact .of_set here rfl
  | expire thread =>
    obtain ⟨here | here, ⟨⟩⟩ := Option.ite_none_right_eq_some.mp h
    · exact .of_look here rfl rfl
    · exact .of_look here rfl rfl
  | connect thread result =>
    simp only [step] at h
    split at h
    case h_1 conn here =>
      cases h
      have lent : (conn :: (p.set thread .idle).held).Perm p.held := held_set .idle here
      refine .quiet rfl rfl (List.Perm.trans ?_ lent) rfl
      refine List.perm_iff_count.mpr fun other => ?_
      simp only [held, set, List.count_append, List.count_cons, List.count_nil]
      omega
    case h_2 conn here =>
      cases h
      exact .of_set here rfl
    case h_3 conn here =>
      cases h
      exact .of_set here rfl
    case h_4 => cases h
  | unwind thread woken =>
    have ending := h
    simp only [step] at ending
    split at ending
    case h_1 conn error here =>
      exact .ended conn (step_ended h (by simp [ends, here, Caller.conn]))
    case h_2 => cases ending
  | handle thread =>
    simp only [step] at h
    split at h
    case h_1 error here =>
      cases h
      exact .of_set here rfl
    case h_2 => cases h
  | drop conn =>
    obtain ⟨lent, ⟨⟩⟩ := Option.ite_none_right_eq_some.mp h
    refine .quiet rfl rfl (List.perm_iff_count.mpr fun other => ?_) rfl
    have moved := (List.perm_cons_erase lent).count_eq other
    simp only [held, List.count_append, List.count_cons, List.count_nil] at moved ⊢
    omega
  | restore conn woken => exact .ended conn (step_ended h rfl)
  | close thread =>
    obtain ⟨⟨-, here⟩, ⟨⟩⟩ := Option.ite_none_right_eq_some.mp h
    exact .shut rfl rfl (held_set .notifying here) rfl
  | destruct thread =>
    obtain ⟨⟨-, here⟩, ⟨⟩⟩ := Option.ite_none_right_eq_some.mp h
    exact .shut rfl rfl (held_set .notifying here) rfl
  | notify thread =>
    obtain ⟨here, ⟨⟩⟩ := Option.ite_none_right_eq_some.mp h
    refine .quiet rfl rfl ?_ rfl
    have same : ((p.callers.set thread .idle).map Caller.wake).filterMap Caller.conn =
        (p.callers.set thread .idle).filterMap Caller.conn := by
      rw [List.filterMap_map]
      exact List.filterMap_congr fun caller _ => conn_wake caller
    have woken : (p.set thread .idle).held.Perm p.held := held_set .idle here
    unfold held at *
    rw [same]
    exact woken

/-! ## The invariant -/

structure Inv (size : Nat) (p : Pool) : Prop where
  places : p.places.Perm (List.range size)
  kept : p.closed = false → p.destroyed = []
  emptied : p.closed = true → p.free = []

theorem Effect.places (h : Effect p p') : p'.places.Perm p.places := by
  refine List.perm_iff_count.mpr fun other => ?_
  simp only [Pool.places, List.count_append]
  cases h with
  | quiet _ free held destroyed => rw [free, held.count_eq, destroyed]
  | leased conn _ _ free held destroyed =>
    rw [free, held.count_eq, destroyed, List.count_append, List.count_cons, List.count_cons,
      List.count_nil]
    omega
  | ended conn lease =>
    have held := lease.held.count_eq other
    cases closed : p.closed with
    | false =>
      obtain ⟨free, destroyed⟩ := lease.returned closed
      rw [free, destroyed, List.count_append, held]
      grind
    | true =>
      obtain ⟨free, destroyed⟩ := lease.destroyed closed
      rw [free, destroyed, List.count_append, held]
      grind
  | shut _ free held destroyed =>
    rw [free, held.count_eq, destroyed, List.count_append, List.count_nil]
    omega

theorem Effect.inv {size : Nat} (h : Effect p p') (inv : p.Inv size) : p'.Inv size := by
  refine ⟨h.places.trans inv.places, fun opened => ?_, fun closed => ?_⟩
  · cases h with
    | ended conn lease => grind [Inv, Ended]
    | _ => grind [Inv]
  · cases h with
    | ended conn lease => grind [Inv, Ended]
    | _ => grind [Inv]

theorem Effect.closed (h : Effect p p') (closed : p.closed = true) : p'.closed = true := by
  cases h with
  | ended conn lease => exact lease.closed.trans closed
  | _ => simp_all

/-! ## Closing -/

/-- Once the pool is closed, a thread sleeps only as long as the others have to be woken. -/
def Heard (p : Pool) : Prop := p.closed = true → .asleep ∈ p.callers → .notifying ∈ p.callers

theorem Heard.set (heard : p.Heard) (h : p.callers[thread]? = some old)
    (before : old ≠ .notifying) (after : new ≠ .asleep) : (p.set thread new).Heard := by
  intro closed asleep
  have slept : .asleep ∈ p.callers :=
    (List.mem_or_eq_of_mem_set asleep).resolve_right fun same => after same.symm
  obtain ⟨i, there⟩ := List.mem_iff_getElem?.mp (heard closed slept)
  have other : thread ≠ i := by
    rintro rfl
    exact before (Option.some.inj (h.symm.trans there))
  exact List.mem_iff_getElem?.mpr ⟨i, by rw [Pool.set, List.getElem?_set_ne other, there]⟩

theorem Heard.look (heard : p.Heard) (h : p.callers[thread]? = some old)
    (before : old ≠ .notifying) : (p.look thread new).Heard := by
  unfold Pool.look
  split
  case isTrue => exact heard.set h before (by simp)
  case isFalse opened =>
    -- an open pool may let its callers sleep
    split
    · exact fun closed => absurd closed opened
    · exact fun closed => absurd closed opened

theorem Heard.notifyOne {woken : Option Nat} (heard : p.Heard)
    (h : p.notifyOne woken = some p') : p'.Heard := by
  cases woken with
  | none =>
    obtain ⟨-, ⟨⟩⟩ := Option.ite_none_left_eq_some.mp h
    exact heard
  | some thread =>
    obtain ⟨asleep, ⟨⟩⟩ := Option.ite_none_right_eq_some.mp h
    exact heard.set asleep (by simp) (by simp)

theorem Heard.giveBack (heard : p.Heard) : (p.giveBack conn).Heard := by
  unfold Pool.giveBack
  split
  · exact heard
  · exact heard

theorem heard_shut (h : p.callers[thread]? = some old) : (p.shut thread).Heard := by
  obtain ⟨inside, -⟩ := List.getElem?_eq_some_iff.mp h
  exact fun _ _ => List.mem_set inside .notifying

theorem Heard.step {e : Event} (heard : p.Heard) (h : step p e = some p') : p'.Heard := by
  cases e with
  | spawn =>
    cases h
    intro closed asleep
    have slept : .asleep ∈ p.callers := by simpa using asleep
    exact List.mem_append_left _ (heard closed slept)
  | acquire thread =>
    obtain ⟨⟨-, here⟩, ⟨⟩⟩ := Option.ite_none_right_eq_some.mp h
    exact heard.set here (by simp) (by simp)
  | attempt thread =>
    obtain ⟨here | here, ⟨⟩⟩ := Option.ite_none_right_eq_some.mp h
    · exact heard.look here (by simp)
    · exact heard.look here (by simp)
  | rouse thread =>
    obtain ⟨here, ⟨⟩⟩ := Option.ite_none_right_eq_some.mp h
    exact heard.set here (by simp) (by simp)
  | expire thread =>
    obtain ⟨here | here, ⟨⟩⟩ := Option.ite_none_right_eq_some.mp h
    · exact heard.look here (by simp)
    · exact heard.look here (by simp)
  | connect thread result =>
    simp only [Pool.step] at h
    split at h
    case h_4 => cases h
    all_goals
      rename_i conn here
      cases h
      exact heard.set here (by simp) (by simp)
  | unwind thread woken =>
    simp only [Pool.step] at h
    split at h
    case h_1 conn error here =>
      have threw : (p.set thread (.threw error)).Heard := heard.set here (by simp) (by simp)
      exact threw.giveBack.notifyOne h
    case h_2 => cases h
  | handle thread =>
    simp only [Pool.step] at h
    split at h
    case h_1 error here =>
      cases h
      exact heard.set here (by simp) (by simp)
    case h_2 => cases h
  | drop conn =>
    obtain ⟨-, ⟨⟩⟩ := Option.ite_none_right_eq_some.mp h
    exact heard
  | restore conn woken =>
    obtain ⟨-, later⟩ := Option.ite_none_right_eq_some.mp h
    have out : Heard { p with ending := p.ending.erase conn } := heard
    exact out.giveBack.notifyOne later
  | close thread =>
    obtain ⟨⟨-, here⟩, ⟨⟩⟩ := Option.ite_none_right_eq_some.mp h
    exact heard_shut here
  | destruct thread =>
    obtain ⟨⟨-, here⟩, ⟨⟩⟩ := Option.ite_none_right_eq_some.mp h
    exact heard_shut here
  | notify thread =>
    obtain ⟨-, ⟨⟩⟩ := Option.ite_none_right_eq_some.mp h
    intro _ asleep
    obtain ⟨caller, -, woken⟩ := List.mem_map.mp asleep
    cases caller <;> cases woken

/-- Everyone in `Acquire` is turned away from a closed pool. -/
theorem look_closed (closed : p.closed = true) :
    p.look thread new = p.set thread (.threw poolClosed) := by
  rw [look, if_pos closed]

theorem notifyOne_enabled (p : Pool) : ∃ woken p', p.notifyOne woken = some p' := by
  by_cases asleep : .asleep ∈ p.callers
  · obtain ⟨thread, here⟩ := List.mem_iff_getElem?.mp asleep
    exact ⟨some thread, _, if_pos here⟩
  · exact ⟨none, p, if_neg asleep⟩

/-- The deleter of the connection's lease has been called. -/
def Ending (p : Pool) (conn : Nat) : Prop :=
  conn ∈ p.ending ∨
    ∃ (thread : Nat) (error : Error), p.callers[thread]? = some (Caller.unwinding conn error)

theorem Ending.enabled (h : p.Ending conn) :
    ∃ e p', p.ends e = some conn ∧ step p e = some p' := by
  obtain inside | ⟨thread, error, here⟩ := h
  · obtain ⟨woken, p', woke⟩ :=
      notifyOne_enabled ({ p with ending := p.ending.erase conn }.giveBack conn)
    exact ⟨.restore conn woken, p', rfl, by rw [step, if_pos inside, woke]⟩
  · obtain ⟨woken, p', woke⟩ := notifyOne_enabled ((p.set thread (.threw error)).giveBack conn)
    exact ⟨.unwind thread woken, p', by simp [ends, here, Caller.conn],
      by simp only [step, here, woke]⟩

/-- A connect that fails ends the lease. -/
theorem Ending.of_connect {result : Connected} (h : p.callers[thread]? = some (.connecting conn))
    (failed : result ≠ .ready) :
    ∃ p', step p (.connect thread result) = some p' ∧ p'.Ending conn := by
  obtain ⟨inside, -⟩ := List.getElem?_eq_some_iff.mp h
  cases result with
  | ready => exact absurd rfl failed
  | timedOut =>
    refine ⟨p.set thread (.unwinding conn ⟨.timeout, "Unable to connect to server"⟩), ?_, ?_⟩
    · simp only [step, h]
    · exact Or.inr ⟨thread, _, List.getElem?_set_self inside⟩
  | failed =>
    refine ⟨p.set thread (.unwinding conn ⟨.connection, "Unable to connect to server"⟩), ?_, ?_⟩
    · simp only [step, h]
    · exact Or.inr ⟨thread, _, List.getElem?_set_self inside⟩

theorem create_ok {size port : Nat} {parses : Bool} {options : TransportOptions} {timeout : Int}
    (made : create size port parses options timeout = .ok p) : p = { free := List.range size } := by
  unfold create at made
  split at made
  · cases made
  · split at made
    · cases made
    · exact (Except.ok.inj made).symm

theorem Runs.inv {size : Nat} {trace : List (Pool × Event)}
    (run : Runs { free := List.range size } trace p) : p.Inv size ∧ p.Heard :=
  run.invariant (fun _ p => p.Inv size ∧ p.Heard) (fun _ _ => True)
    ⟨⟨by simp [Pool.places, held], fun _ => rfl, by simp⟩, by simp [Heard]⟩
    (fun inv _ taken => ⟨(step_effect taken).inv inv.1, inv.2.step taken⟩) (by simp)

/-- The leases of a pool. Until the pool is closed every connection is in the free list or held by
one lease. From then on the free list is empty, `Acquire` fails with `closed` for whoever has not
taken a connection yet, nobody sleeps for longer than `Close` takes to wake the sleepers, and what
is not held by a lease has been destroyed. A failed connect ends its lease, and the end of a lease
returns the connection, or destroys it if the pool is closed. -/
theorem leases_exclusive {size port : Nat} {parses : Bool} {options : TransportOptions}
    {timeout : Int} {init p : Pool} {trace : List (Pool × Event)}
    (made : create size port parses options timeout = .ok init) (run : Runs init trace p) :
    (p.closed = false →
      (p.free ++ p.held).Perm (List.range size) ∧ p.held.Nodup ∧ p.free.length ≤ size) ∧
    (p.closed = true →
      p.free = [] ∧ (p.held ++ p.destroyed).Perm (List.range size) ∧
      (∀ thread e p', e = .attempt thread ∨ e = .expire thread → step p e = some p' →
        p' = p.set thread (.threw poolClosed)) ∧
      (.asleep ∈ p.callers → .notifying ∈ p.callers) ∧
      ∀ e p', step p e = some p' → p'.closed = true) ∧
    (∀ thread conn result, p.callers[thread]? = some (.connecting conn) → result ≠ .ready →
      ∃ p', step p (.connect thread result) = some p' ∧ p'.Ending conn) ∧
    (∀ conn, p.Ending conn → ∃ e p', p.ends e = some conn ∧ step p e = some p') ∧
    ∀ e p' conn, p.ends e = some conn → step p e = some p' → Ended conn p p' := by
  obtain rfl := create_ok made
  obtain ⟨inv, heard⟩ := run.inv
  refine ⟨fun opened => ?_, fun closed => ⟨inv.emptied closed, ?_, ?_, heard closed, ?_⟩,
    fun _ _ _ here failed => Ending.of_connect here failed, fun _ h => h.enabled,
    fun _ _ _ ending taken => step_ended taken ending⟩
  · have inventory : (p.free ++ p.held).Perm (List.range size) := by
      simpa [places, inv.kept opened] using inv.places
    have nodup : (p.free ++ p.held).Nodup := inventory.nodup_iff.mpr List.nodup_range
    refine ⟨inventory, (List.nodup_append.mp nodup).2.1, ?_⟩
    have total := inventory.length_eq
    rw [List.length_append, List.length_range] at total
    omega
  · simpa [places, inv.emptied closed] using inv.places
  · rintro thread e p' (rfl | rfl) taken
    · obtain ⟨-, ⟨⟩⟩ := Option.ite_none_right_eq_some.mp taken
      exact look_closed closed
    · obtain ⟨-, ⟨⟩⟩ := Option.ite_none_right_eq_some.mp taken
      exact look_closed closed
  · exact fun e p' taken => (step_effect taken).closed closed

/-- A pool of two: one thread gets a lease, the connect of another one fails, a third sleeps, and
the wrapper is destroyed before the failed lease has ended. -/
def interrupted : List Event :=
  [.spawn, .spawn, .spawn, .acquire 0, .acquire 1, .attempt 1, .attempt 0, .connect 1 .timedOut,
    .connect 0 .ready, .acquire 2, .attempt 2, .destruct 0, .unwind 1 (some 2)]

theorem leases_exclusive_interrupted :
    ∃ init trace p, create 2 8080 true {} = .ok init ∧ Runs init trace p ∧
      p.closed = true ∧ p.leases = [0] ∧ p.destroyed = [1] ∧
      p.callers[2]? = some .notified ∧
      step p (.attempt 2) = some (p.set 2 (.threw poolClosed)) ∧
      (p.held ++ p.destroyed).Perm (List.range 2) := by
  have made : create 2 8080 true {} = .ok { free := List.range 2 } := by decide +kernel
  have run := Run.replays Pool.step { free := List.range 2 } interrupted (by decide +kernel)
  have facts := (leases_exclusive made run).2.1 (by decide +kernel)
  exact ⟨_, _, _, made, run, by decide +kernel, by decide +kernel, by decide +kernel,
    by decide +kernel, by rfl, facts.2.1⟩

end Pool
end KVRPC.Client.ConnectionPool
