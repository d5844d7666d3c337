import KVRPC.Client.Callbacks

/-!
# Deadlines

Every request in the map has a timer of its own, which is armed until it fires or the request
is finished. What may go wrong is a timer cancelled under an identifier that is not, or no
longer, the one meant; identifiers are never used again, so it does not.
-/
namespace KVRPC.Client

open Library Net State

variable {ε : Type} {t : AsyncTransport ε} {x x' : Phase} {s s' : State} {i ref id timer : Nat}

/-- The deadlines of the requests and the timers of the connections. -/
structure Timed (x : Phase) (s : State) : Prop where
  fresh : ∀ e ∈ s.loop.timers, e.1 < s.loop.next
  known : ∀ p ∈ s.requests, (s.heap p.2).timer < s.loop.next
  armed : ∀ p ∈ s.requests, s.loop.timers.lookup (s.heap p.2).timer = some (.deadline p.1) ∨
    x.firing = some p.1 ∧ s.loop.timers.lookup (s.heap p.2).timer = none
  connectKnown : ∀ i, (s.sockets i).connectTimer < s.loop.next
  /-- The timer a connection cancels is not a deadline. -/
  connect : ∀ i id, s.loop.timers.lookup (s.sockets i).connectTimer ≠ some (.deadline id)

namespace Timed

/-- A step that touches no timer. -/
theorem of_eq (h : Timed x s) (timers : s'.loop.timers = s.loop.timers)
    (next : s.loop.next ≤ s'.loop.next) (requests : ∀ p ∈ s'.requests, p ∈ s.requests)
    (timer : ∀ p ∈ s'.requests, (s'.heap p.2).timer = (s.heap p.2).timer)
    (connect : ∀ i, (s'.sockets i).connectTimer = (s.sockets i).connectTimer) : Timed x s' where
  fresh e mem := (h.fresh e (timers ▸ mem)).trans_le next
  known p mem := by
    rw [timer p mem]
    exact (h.known p (requests p mem)).trans_le next
  armed p mem := by
    rw [timers, timer p mem]
    exact h.armed p (requests p mem)
  connectKnown i := by
    rw [connect i]
    exact (h.connectKnown i).trans_le next
  connect i id := by
    rw [timers, connect i]
    exact h.connect i id

/-- A timer is cancelled that is not the deadline of a request still in the map. -/
theorem cancel (h : Timed x s) (k : Nat) (timers : s'.loop.timers = (s.loop.cancel k).timers)
    (next : s'.loop.next = s.loop.next) (requests : ∀ p ∈ s'.requests, p ∈ s.requests)
    (others : ∀ p ∈ s'.requests, s.loop.timers.lookup k ≠ some (.deadline p.1))
    (timer : ∀ p ∈ s'.requests, (s'.heap p.2).timer = (s.heap p.2).timer)
    (connect : ∀ i, (s'.sockets i).connectTimer = (s.sockets i).connectTimer) : Timed x s' where
  fresh e mem := by
    rw [timers] at mem
    rw [next]
    exact h.fresh e (List.mem_of_mem_filter mem)
  known p mem := by
    rw [timer p mem, next]
    exact h.known p (requests p mem)
  armed p mem := by
    rw [timers, timer p mem, Reactor.lookup_cancel]
    split_ifs with same
    · obtain live | gone := h.armed p (requests p mem)
      · exact absurd (same ▸ live) (others p mem)
      · exact .inr ⟨gone.1, rfl⟩
    · exact h.armed p (requests p mem)
  connectKnown i := by
    rw [connect i, next]
    exact h.connectKnown i
  connect i id := by
    rw [timers, connect i, Reactor.lookup_cancel]
    split_ifs
    · exact nofun
    · exact h.connect i id

/-- A finished request takes its own deadline with it. -/
theorem release (h : Timed x s) (found : s.requests.lookup id = some ref) (outcome : Outcome) :
    Timed x ((s.release id ref).record ref outcome) := by
  have entry := Assoc.mem_of_lookup found
  refine h.cancel (s.heap ref).timer rfl rfl (fun p mem => List.mem_of_mem_filter mem) ?_
    (fun _ _ => rfl) (release_field Connection.connectTimer (fun _ _ => rfl) s id ref)
  intro p mem live
  have other : p.1 ≠ id := of_decide_eq_true (List.mem_filter.mp mem).2
  obtain own | gone := h.armed _ entry
  · rw [own, Option.some.injEq, Timer.deadline.injEq] at live
    exact other live.symm
  · rw [gone.2] at live
    cases live

/-- The deadline of a request is set. -/
theorem enroll (h : Timed x s) (sound : s.ledger.Sound) (coming : ref ∈ s.coming)
    {rest : List Task} : Timed x ((s.setTasks rest).enroll ref) := by
  obtain ⟨-, -, apart⟩ := sound.coming ref coming
  have lookup := fun k => Reactor.lookup_timerAt h.fresh (.deadline (s.heap ref).id) k
  have other : ∀ p ∈ s.requests,
      (((s.setTasks rest).enroll ref).heap p.2).timer = (s.heap p.2).timer := fun p mem =>
    congrArg Request.timer (Function.update_of_ne (apart p mem) _ _)
  have own : (((s.setTasks rest).enroll ref).heap ref).timer = s.loop.next := by
    simp [State.enroll, setTasks, Reactor.timerAt]
  have entry : ∀ p ∈ ((s.setTasks rest).enroll ref).requests,
      p ∈ s.requests ∨ p = ((s.heap ref).id, ref) := fun p mem => mem_enroll mem
  refine ⟨?_, ?_, ?_, ?_, ?_⟩
  · intro e mem
    obtain old | new := List.mem_append.mp mem
    · exact (h.fresh e old).trans (Nat.lt_succ_self _)
    · rw [List.mem_singleton.mp new]
      exact Nat.lt_succ_self _
  · intro p mem
    obtain old | rfl := entry p mem
    · rw [other p old]
      exact (h.known p old).trans (Nat.lt_succ_self _)
    · rw [own]
      exact Nat.lt_succ_self _
  · intro p mem
    obtain old | rfl := entry p mem
    · have keeps := (lookup (s.heap p.2).timer).trans (if_neg (h.known p old).ne)
      rw [other p old]
      exact (h.armed p old).imp keeps.trans (And.imp_right keeps.trans)
    · left
      rw [own]
      exact (lookup s.loop.next).trans (if_pos rfl)
  · intro i
    exact (h.connectKnown i).trans (Nat.lt_succ_self _)
  · intro i id live
    exact h.connect i id (((lookup _).trans (if_neg (h.connectKnown i).ne)).symm.trans live)

/-- The deadline of a connection in progress is set. -/
theorem armConnect (h : Timed x s) (i : Nat) : Timed x (s.armConnect i) := by
  have lookup := fun k => Reactor.lookup_timerAt h.fresh (.connect i) k
  refine ⟨?_, ?_, ?_, ?_, ?_⟩
  · intro e mem
    obtain old | new := List.mem_append.mp mem
    · exact (h.fresh e old).trans (Nat.lt_succ_self _)
    · rw [List.mem_singleton.mp new]
      exact Nat.lt_succ_self _
  · intro p mem
    exact (h.known p mem).trans (Nat.lt_succ_self _)
  · intro p mem
    have keeps := (lookup (s.heap p.2).timer).trans (if_neg (h.known p mem).ne)
    exact (h.armed p mem).imp keeps.trans (And.imp_right keeps.trans)
  · intro j
    by_cases same : j = i
    · simp [State.armConnect, same, Reactor.timerAt]
    · simpa [State.armConnect, same, Reactor.timerAt] using
        (h.connectKnown j).trans (Nat.lt_succ_self _)
  · intro j id
    refine Eq.trans_ne (lookup _) ?_
    by_cases same : j = i
    · simp [State.armConnect, same, Reactor.timerAt]
    · simpa [State.armConnect, same, (h.connectKnown j).ne] using h.connect j id

theorem register (h : Timed x s) (i : Nat) (connecting : Bool) :
    Timed x (s.register i connecting) :=
  h.of_eq rfl (Nat.le_succ _) (fun _ mem => mem) (fun _ _ => rfl)
    (update_field Connection.connectTimer (by rfl))

theorem opened (h : Timed x s) (i : Nat) (connecting : Bool) : Timed x (s.opened i connecting) := by
  cases connecting with
  | false => exact h.register i false
  | true => exact (h.register i true).armConnect i

theorem clear (h : Timed x s) (i : Nat) : Timed x (s.clear i) := by
  refine h.cancel (s.sockets i).connectTimer ?_ ?_ (fun _ mem => mem)
    (fun p _ => h.connect i p.1) (fun _ _ => rfl) (update_field Connection.connectTimer (by rfl))
  all_goals
    unfold State.clear
    dsimp only
    split <;> rfl

theorem assign (h : Timed x s) (i ref : Nat) (rest : List Nat) :
    Timed x (s.assign t i ref rest) := by
  exact h.of_eq rfl le_rfl (fun _ mem => mem) (fun p _ => update_field Request.timer (by rfl) p.2)
    (update_field Connection.connectTimer (by rfl))

/-- A deadline fires. -/
theorem fire (h : Timed x s) (idle : x.firing = none)
    (live : s.loop.timers.lookup timer = some (.deadline id)) :
    Timed { x with firing := some id } { s with loop := s.loop.cancel timer } := by
  refine ⟨fun e mem => h.fresh e (List.mem_of_mem_filter mem), h.known, fun p mem => ?_,
    h.connectKnown, fun i id' => ?_⟩
  · have own := (h.armed p mem).resolve_right (by simp [idle])
    rw [Reactor.lookup_cancel]
    split_ifs with same
    · rw [same, live, Option.some.injEq, Timer.deadline.injEq] at own
      exact .inr ⟨congrArg some own, rfl⟩
    · exact .inl own
  · refine Eq.trans_ne (Reactor.lookup_cancel _ _ _) ?_
    split_ifs
    · exact nofun
    · exact h.connect i id'

theorem fired (h : Timed x s) (firing : x.firing = some id)
    (gone : s.requests.lookup id = none) : Timed { x with firing := none } s := by
  refine ⟨h.fresh, h.known, fun p mem => .inl ?_, h.connectKnown, h.connect⟩
  refine (h.armed p mem).resolve_right fun fires => ?_
  rw [firing, Option.some.injEq] at fires
  exact Assoc.lookup_eq_none.mp gone p mem fires.1.symm

theorem phase (h : Timed x s) (same : x'.firing = x.firing) : Timed x' s :=
  ⟨h.fresh, h.known, fun p mem => same ▸ h.armed p mem, h.connectKnown, h.connect⟩

/-- A new object is not one of those in the map. -/
theorem submit (h : Timed x s) (sound : s.ledger.Sound) {r : Request}
    (loop : s'.loop = s.loop) (requests : s'.requests = s.requests)
    (heap : s'.heap = Function.update s.heap s.submitted r) (sockets : s'.sockets = s.sockets) :
    Timed x s' := by
  refine h.of_eq (by rw [loop]) (by rw [loop]) (fun p mem => requests ▸ mem) (fun p mem => ?_)
    fun i => by rw [sockets]
  have entry : p ∈ s.requests := requests ▸ mem
  have old : p.2 ≠ s.submitted := (sound.ref_lt entry).ne
  rw [heap, Function.update_of_ne old]

theorem setSocket (h : Timed x s) {c : Connection}
    (sockets : s'.sockets = Function.update s.sockets i c)
    (same : c.connectTimer = (s.sockets i).connectTimer)
    (timers : s'.loop.timers = s.loop.timers) (next : s'.loop.next = s.loop.next)
    (requests : s'.requests = s.requests) (heap : s'.heap = s.heap) : Timed x s' := by
  refine h.of_eq timers next.ge (fun p mem => requests ▸ mem) (fun p _ => by rw [heap]) fun j => ?_
  rw [sockets]
  exact update_field Connection.connectTimer same j

theorem step (sound : s.ledger.Sound) (h : Timed x s) (step : Step t (x, s) (x', s')) :
    Timed x' s' := by
  cases step with
  | reject _ => exact h.submit sound rfl rfl rfl rfl
  | accept _ => exact h.submit sound rfl rfl rfl rfl
  | enroll head => exact h.enroll sound (head_coming head)
  | resume _ => exact h.setSocket rfl rfl rfl rfl rfl rfl
  | fire idle live => exact h.fire idle live
  | fired gone firing => exact h.fired firing gone
  | @fireConnect _ _ timer i live =>
    refine h.cancel timer rfl rfl (fun _ mem => mem) (fun p _ => ?_) (fun _ _ => rfl) fun _ => rfl
    simp [live]
  | expire found _ => exact h.release found _
  | @retire _ _ id ref i found _ _ _ =>
    have retired : Timed x (s.retire i id) := h.setSocket rfl rfl rfl rfl rfl rfl
    exact retired.release found _
  | fail found _ _ => exact h.release found _
  | @deliver _ _ i size id ref response _ _ _ found _ =>
    have taken : Timed x (s.take t i size ref response) := h.setSocket rfl rfl rfl rfl rfl rfl
    exact taken.release found _
  | drop _ _ _ _ => exact h.setSocket rfl rfl rfl rfl rfl rfl
  | refuse _ refuses =>
    cases refuses with
    | framing _ _ => exact h.of_eq rfl le_rfl (fun _ mem => mem) (fun _ _ => rfl) fun _ => rfl
    | tooLarge _ _ _ => exact h.of_eq rfl le_rfl (fun _ mem => mem) (fun _ _ => rfl) fun _ => rfl
    | noId _ _ _ _ => exact h.setSocket rfl rfl rfl rfl rfl rfl
    | unknown _ _ _ => exact h.setSocket rfl rfl rfl rfl rfl rfl
  | clear i => exact (h.clear i).phase rfl
  | closed _ _ => exact h.phase rfl
  | assign _ _ _ _ _ => exact h.assign _ _ _
  | connect _ _ _ _ _ _ => exact (h.assign _ _ _).opened _ _
  | @refused _ _ i ref rest made _ _ _ _ _ =>
    have assigned : Timed x (s.assign t i ref rest) := h.assign i ref rest
    refine Timed.phase (x := x) (Timed.clear ?_ i) rfl
    split
    · exact assigned.setSocket rfl rfl rfl rfl rfl rfl
    · exact assigned
  | established i =>
    exact h.cancel (s.sockets i).connectTimer rfl rfl (fun _ mem => mem)
      (fun p _ => h.connect i p.1) (fun _ _ => rfl) (update_field Connection.connectTimer (by rfl))
  | @wrote _ _ i ref n rest _ _ _ _ =>
    unfold State.wrote
    split
    · exact h.of_eq rfl le_rfl (fun _ mem => mem)
        (fun p _ => update_field Request.timer (by rfl) p.2)
        (update_field Connection.connectTimer (by rfl))
    · exact h.setSocket rfl rfl rfl rfl rfl rfl
  | received _ _ => exact h.setSocket rfl rfl rfl rfl rfl rfl
  | schedule i =>
    unfold State.schedule
    split
    · exact h
    · exact h.setSocket rfl rfl rfl rfl rfl rfl
  | _ => exact h.of_eq rfl le_rfl (fun _ mem => mem) (fun _ _ => rfl) fun _ => rfl

theorem init : Timed {} {} :=
  ⟨nofun, nofun, nofun, fun _ => Nat.zero_lt_one, fun _ _ => nofun⟩

end Timed
end KVRPC.Client
