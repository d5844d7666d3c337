import KVRPC.Client.Deadlines

/-!
# Where the requests are

A request in the map that is assigned to a connection is on that connection only, which is open
or being opened, and either still in its output or sent. Inside a callback this fails for the
connections being given up and for nothing else. At destruction the task that drains the
transport comes after every admitted request, so the loop stops only when all are completed.
-/
namespace KVRPC.Client

open Library Net State

variable {ε : Type} {t : AsyncTransport ε} {x x' : Phase} {s s' : State} {i ref id : Nat}

/-- The connection carries the request. -/
def Carries (s : State) (i ref : Nat) : Prop :=
  (s.sockets i).fd = true ∧ (ref ∈ (s.sockets i).output ∨ (s.heap ref).sent = true)

theorem Carries.of_eq (h : Carries s i ref) (fd : (s'.sockets i).fd = (s.sockets i).fd)
    (output : (s'.sockets i).output = (s.sockets i).output)
    (sent : (s'.heap ref).sent = (s.heap ref).sent) : Carries s' i ref := by
  simpa only [Carries, fd, output, sent] using h

structure Placed (t : AsyncTransport ε) (x : Phase) (s : State) : Prop where
  placed : ∀ p ∈ s.requests, ∀ i, (s.heap p.2).slot = some i →
    i < t.connections ∧ (i ∈ x.closing ∨ Carries s i p.2)
  output : ∀ i, ∀ r ∈ (s.sockets i).output, r < s.submitted ∧ (s.heap r).slot = some i

namespace Placed

/-- A step that opens, closes and writes nothing. -/
theorem of_eq (h : Placed t x s) (sound : s.ledger.Sound)
    (requests : ∀ p ∈ s'.requests, p ∈ s.requests) (submitted : s.submitted ≤ s'.submitted)
    (slot : ∀ r < s.submitted, (s'.heap r).slot = (s.heap r).slot)
    (sent : ∀ r < s.submitted, (s'.heap r).sent = (s.heap r).sent)
    (fd : ∀ i, (s'.sockets i).fd = (s.sockets i).fd)
    (output : ∀ i, (s'.sockets i).output = (s.sockets i).output) : Placed t x s' where
  placed p mem i assigned := by
    have old : p.2 < s.submitted := sound.ref_lt (requests p mem)
    rw [slot p.2 old] at assigned
    obtain ⟨valid, place⟩ := h.placed p (requests p mem) i assigned
    exact ⟨valid, place.imp_right fun carries => carries.of_eq (fd i) (output i) (sent p.2 old)⟩
  output i r mem := by
    rw [output] at mem
    obtain ⟨old, assigned⟩ := h.output i r mem
    exact ⟨old.trans_le submitted, (slot r old).trans assigned⟩

theorem setSocket (h : Placed t x s) (sound : s.ledger.Sound) {c : Connection}
    (sockets : s'.sockets = Function.update s.sockets i c) (fd : c.fd = (s.sockets i).fd)
    (output : c.output = (s.sockets i).output) (requests : s'.requests = s.requests)
    (heap : s'.heap = s.heap) (submitted : s'.submitted = s.submitted) : Placed t x s' := by
  refine h.of_eq sound (fun p mem => requests ▸ mem) submitted.ge (fun r _ => by rw [heap])
    (fun r _ => by rw [heap]) (fun j => ?_) fun j => ?_
  · rw [sockets]
    exact update_field Connection.fd fd j
  · rw [sockets]
    exact update_field Connection.output output j

theorem submit (h : Placed t x s) (sound : s.ledger.Sound) {r : Request}
    (requests : s'.requests = s.requests) (submitted : s'.submitted = s.submitted + 1)
    (heap : s'.heap = Function.update s.heap s.submitted r) (sockets : s'.sockets = s.sockets) :
    Placed t x s' := by
  refine h.of_eq sound (fun p mem => requests ▸ mem) (by omega) (fun r old => ?_) (fun r old => ?_)
    (fun i => by rw [sockets]) fun i => by rw [sockets]
  all_goals rw [heap, Function.update_of_ne old.ne]

theorem release (h : Placed t x s) (sound : s.ledger.Sound) (id ref : Nat) (outcome : Outcome) :
    Placed t x ((s.release id ref).record ref outcome) :=
  h.of_eq sound (fun _ mem => List.mem_of_mem_filter mem) le_rfl (fun _ _ => rfl) (fun _ _ => rfl)
    (release_field Connection.fd (fun _ _ => rfl) s id ref)
    (release_field Connection.output (fun _ _ => rfl) s id ref)

theorem enroll (h : Placed t x s) (sound : s.ledger.Sound) (coming : ref ∈ s.coming)
    {rest : List Task} : Placed t x ((s.setTasks rest).enroll ref) := by
  have unassigned : (s.heap ref).slot = none := (sound.coming ref coming).2.1
  have slot : ∀ r, (((s.setTasks rest).enroll ref).heap r).slot = (s.heap r).slot :=
    update_field Request.slot (by rfl)
  have sent : ∀ r, (((s.setTasks rest).enroll ref).heap r).sent = (s.heap r).sent :=
    update_field Request.sent (by rfl)
  refine ⟨fun p mem i assigned => ?_, fun i r mem => ?_⟩
  · rw [slot] at assigned
    obtain old | rfl := mem_enroll mem
    · obtain ⟨valid, place⟩ := h.placed p old i assigned
      exact ⟨valid, place.imp_right fun carries => carries.of_eq rfl rfl (sent p.2)⟩
    · simp [unassigned] at assigned
  · rw [slot]
    exact h.output i r mem

/-- The connection is given up. -/
theorem clear (h : Placed t x s) (i : Nat) :
    Placed t { x with closing := i :: x.closing } (s.clear i) := by
  have others : ∀ j, j ≠ i → (s.clear i).sockets j = s.sockets j := fun j other =>
    Function.update_of_ne other _ _
  refine ⟨fun p mem j assigned => ?_, fun j r mem => ?_⟩
  · obtain ⟨valid, place⟩ := h.placed p mem j assigned
    refine ⟨valid, ?_⟩
    by_cases same : j = i
    · exact .inl (same ▸ List.mem_cons_self)
    · have kept := others j same
      exact place.imp (List.mem_cons_of_mem i) fun carries =>
        carries.of_eq (by rw [kept]) (by rw [kept]) rfl
  · by_cases same : j = i
    · simp [State.clear, same] at mem
    · rw [others j same] at mem
      exact h.output j r mem

theorem closed (h : Placed t x s) {rest : List Nat} (closing : x.closing = i :: rest)
    (none : ∀ p ∈ s.requests, (s.heap p.2).slot ≠ some i) :
    Placed t { x with closing := rest } s := by
  refine ⟨fun p mem j assigned => ?_, h.output⟩
  obtain ⟨valid, place⟩ := h.placed p mem j assigned
  refine ⟨valid, place.imp_left fun still => ?_⟩
  rw [closing, List.mem_cons] at still
  refine still.resolve_left ?_
  rintro rfl
  exact none p mem assigned

/-- A request is assigned to a connection that is open afterwards. -/
theorem assigned (h : Placed t x s) (sound : s.ledger.Sound) {rest : List Nat}
    (valid : i < t.connections) (head : s.waiting = ref :: rest)
    (requests : s'.requests = s.requests) (submitted : s'.submitted = s.submitted)
    (heap : s'.heap = Function.update s.heap ref { s.heap ref with slot := some i })
    (others : ∀ j, j ≠ i → s'.sockets j = s.sockets j) (fd : (s'.sockets i).fd = true)
    (output : (s'.sockets i).output = (s.sockets i).output ++ [ref]) : Placed t x s' := by
  obtain ⟨out, free⟩ := sound.waiting ref (by simp [ledger, head])
  have old : ref < s.submitted := sound.below ref (.inl (Ledger.mem_outstanding.mp out).1)
  have own : (s'.heap ref).slot = some i := by simp [heap]
  have other : ∀ r, r ≠ ref → s'.heap r = s.heap r := fun r ne => by
    rw [heap, Function.update_of_ne ne]
  refine ⟨fun p mem j assigned => ?_, fun j r mem => ?_⟩
  · by_cases same : p.2 = ref
    · rw [same, own, Option.some.injEq] at assigned
      subst assigned
      exact ⟨valid, .inr ⟨fd, .inl (by simp [output, same])⟩⟩
    · rw [other p.2 same] at assigned
      obtain ⟨valid', place⟩ := h.placed p (requests ▸ mem) j assigned
      refine ⟨valid', place.imp_right fun carries => ?_⟩
      by_cases here : j = i
      · subst here
        exact ⟨fd, carries.2.imp (by simp [output, ·]) (by rw [other p.2 same]; exact id)⟩
      · exact carries.of_eq (by rw [others j here]) (by rw [others j here]) (by rw [other p.2 same])
  · have split : (r < s.submitted ∧ (s.heap r).slot = some j) ∨ j = i ∧ r = ref := by
      by_cases here : j = i
      · subst here
        rw [output, List.mem_append, List.mem_singleton] at mem
        exact mem.imp (h.output j r) fun same => ⟨rfl, same⟩
      · rw [others j here] at mem
        exact .inl (h.output j r mem)
    obtain ⟨below, slot⟩ | ⟨rfl, rfl⟩ := split
    · have ne : r ≠ ref := by
        rintro rfl
        exact Option.some_ne_none _ (slot.symm.trans free)
      rw [other r ne, submitted]
      exact ⟨below, slot⟩
    · exact ⟨submitted ▸ old, own⟩

/-- The last octet of a request is sent. -/
theorem wrote (h : Placed t x s) (sound : s.ledger.Sound) {rest : List Nat} {n : Nat}
    (front : (s.sockets i).output = ref :: rest) : Placed t x (s.wrote i ref rest n) := by
  unfold State.wrote
  split
  case isFalse => exact h.setSocket sound rfl rfl rfl rfl rfl rfl
  case isTrue =>
    have slot : ∀ r, (Function.update s.heap ref { s.heap ref with sent := true } r).slot =
        (s.heap r).slot := update_field Request.slot (by rfl)
    have rests : ∀ j r,
        r ∈ (Function.update s.sockets i { s.sockets i with output := rest, sent := 0 } j).output →
        r ∈ (s.sockets j).output := by
      intro j r mem
      by_cases here : j = i
      · subst here
        rw [Function.update_self] at mem
        rw [front]
        exact List.mem_cons_of_mem _ mem
      · rwa [Function.update_of_ne here] at mem
    refine ⟨fun p mem j assigned => ?_, fun j r mem => ?_⟩
    · rw [slot] at assigned
      obtain ⟨valid, place⟩ := h.placed p mem j assigned
      refine ⟨valid, place.imp_right fun carries => ?_⟩
      refine ⟨Eq.trans (update_field Connection.fd (by rfl) j) carries.1, ?_⟩
      by_cases same : p.2 = ref
      · simp [same]
      · refine carries.2.imp (fun queued => ?_) fun sent => by simp [same, sent]
        by_cases here : j = i
        · subst here
          rw [front] at queued
          simpa using (List.mem_cons.mp queued).resolve_left same
        · simpa [here] using queued
    · obtain ⟨below, assigned⟩ := h.output j r (rests j r mem)
      exact ⟨below, (slot r).trans assigned⟩

theorem phase (h : Placed t x s) (same : x'.closing = x.closing) : Placed t x' s :=
  ⟨fun p mem i assigned => same ▸ h.placed p mem i assigned, h.output⟩

theorem step (sound : s.ledger.Sound) (h : Placed t x s) (step : Step t (x, s) (x', s')) :
    Placed t x' s' := by
  have same : ∀ {s' : State}, s'.requests = s.requests → s'.submitted = s.submitted →
      s'.heap = s.heap → s'.sockets = s.sockets → Placed t x s' := by
    intro s' requests submitted heap sockets
    exact h.of_eq sound (fun p mem => requests ▸ mem) submitted.ge (fun r _ => by rw [heap])
      (fun r _ => by rw [heap]) (fun i => by rw [sockets]) fun i => by rw [sockets]
  cases step with
  | reject _ => exact h.submit sound rfl rfl rfl rfl
  | accept _ => exact h.submit sound rfl rfl rfl rfl
  | enroll head => exact h.enroll sound (head_coming head)
  | resume _ => exact h.setSocket sound rfl rfl rfl rfl rfl rfl
  | @fire _ _ timer _ _ _ =>
    have cancelled : Placed t x { s with loop := s.loop.cancel timer } := same rfl rfl rfl rfl
    exact cancelled.phase rfl
  | fired _ _ => exact h.phase rfl
  | expire _ _ => exact h.release sound _ _ _
  | @retire _ _ id ref i _ _ _ _ =>
    have retired : Placed t x (s.retire i id) := h.setSocket sound rfl rfl rfl rfl rfl rfl
    exact retired.release sound _ _ _
  | fail _ _ _ => exact h.release sound _ _ _
  | @deliver _ _ i size id ref response _ _ _ _ _ =>
    have taken : Placed t x (s.take t i size ref response) :=
      h.setSocket sound rfl rfl rfl rfl rfl rfl
    exact taken.release sound _ _ _
  | drop _ _ _ _ => exact h.setSocket sound rfl rfl rfl rfl rfl rfl
  | refuse _ refuses =>
    cases refuses with
    | framing _ _ => exact same rfl rfl rfl rfl
    | tooLarge _ _ _ => exact same rfl rfl rfl rfl
    | noId _ _ _ _ => exact h.setSocket sound rfl rfl rfl rfl rfl rfl
    | unknown _ _ _ => exact h.setSocket sound rfl rfl rfl rfl rfl rfl
  | clear i => exact h.clear i
  | closed closing none => exact h.closed closing none
  | skip _ _ => exact same rfl rfl rfl rfl
  | @assign _ _ i ref rest valid head _ _ open_ =>
    refine h.assigned sound valid head rfl rfl rfl (fun j other => Function.update_of_ne other _ _)
      ?_ ?_
    · simpa [State.assign] using open_
    · simp [State.assign]
  | @connect _ _ i ref rest connecting _ valid head _ _ _ =>
    cases connecting with
    | false =>
      refine h.assigned sound valid head rfl rfl rfl (fun j other => ?_) ?_ ?_
      all_goals simp [State.assign, State.opened, State.register, *]
    | true =>
      refine h.assigned sound valid head rfl rfl rfl (fun j other => ?_) ?_ ?_
      all_goals simp [State.assign, State.opened, State.register, State.armConnect, *]
  | @refused _ _ i ref rest made valid head _ _ _ =>
    have opened : Placed t x ((s.assign t i ref rest).socketMade i) := by
      refine h.assigned sound valid head rfl rfl rfl (fun j other => ?_) ?_ ?_
      all_goals simp [State.assign, socketMade, State.setSocket, *]
    have cleared := opened.clear i
    cases made with
    | true => exact cleared
    | false =>
      -- the descriptor that was never made is the only difference
      have like : ∀ j, ((s.assign t i ref rest).clear i).sockets j =
          (((s.assign t i ref rest).socketMade i).clear i).sockets j := by
        intro j
        by_cases here : j = i
        · simp [State.clear, socketMade, State.setSocket, here]
        · simp [State.clear, socketMade, State.setSocket, here]
      exact ⟨fun p mem j assigned => (cleared.placed p mem j assigned).imp_right
          (Or.imp_right fun carries => carries.of_eq (congrArg Connection.fd (like j))
            (congrArg Connection.output (like j)) rfl),
        fun j r mem => cleared.output j r (like j ▸ mem)⟩
  | established i => exact h.setSocket sound rfl rfl rfl rfl rfl rfl
  | wrote _ front _ _ => exact h.wrote sound front
  | received _ _ => exact h.setSocket sound rfl rfl rfl rfl rfl rfl
  | schedule i =>
    unfold State.schedule
    split
    · exact h
    · exact h.setSocket sound rfl rfl rfl rfl rfl rfl
  | _ => exact same rfl rfl rfl rfl

theorem init : Placed t {} {} := ⟨nofun, fun _ => nofun⟩

end Placed

/-- The way to the end: after the destructor has begun nothing is posted, the task that drains
comes behind all requests, and the loop is stopped when the map is empty. -/
structure Halting (s : State) : Prop where
  closing : s.closing = true → s.posting = []
  drain : .drain ∈ s.loop.tasks → s.closing = true
  order : s.loop.tasks.Pairwise fun a b => a = .drain → ∀ r, b ≠ .accept r
  draining : s.draining = true → s.closing = true ∧ s.coming = []
  stopping : s.loop.stopping = true → s.draining = true ∧ s.requests = []

namespace Halting

theorem of_eq (h : Halting s) (closing : s'.closing = s.closing) (posting : s'.posting = s.posting)
    (tasks : s'.loop.tasks = s.loop.tasks) (draining : s'.draining = s.draining)
    (stopping : s'.loop.stopping = s.loop.stopping)
    (requests : s.requests = [] → s'.requests = []) : Halting s' where
  closing := by
    rw [closing, posting]
    exact h.closing
  drain := by
    rw [tasks, closing]
    exact h.drain
  order := by
    rw [tasks]
    exact h.order
  draining := by
    rw [draining, closing, coming, admits, posting, tasks]
    exact h.draining
  stopping := by
    rw [stopping, draining]
    exact fun stops => (h.stopping stops).imp_right requests

theorem admits_eq_nil (none : ∀ task ∈ s.loop.tasks, ∀ r, task ≠ .accept r) : s.admits = [] :=
  List.eq_nil_iff_forall_not_mem.mpr fun r mem => none _ (mem_admits.mp mem) r rfl

/-- A task is taken off the queue. -/
theorem pop (h : Halting s) {task : Task} {rest : List Task} (head : s.loop.tasks = task :: rest) :
    Halting (s.setTasks rest) := by
  have order := h.order
  rw [head] at order
  refine ⟨h.closing, fun mem => h.drain (head ▸ List.mem_cons_of_mem _ mem),
    (List.pairwise_cons.mp order).2, fun drains => ?_, h.stopping⟩
  obtain ⟨closed, none⟩ := h.draining drains
  refine ⟨closed, ?_⟩
  simp only [coming, admits, head, List.append_eq_nil_iff, List.filterMap_cons] at none ⊢
  refine ⟨none.1, ?_⟩
  have later := none.2
  split at later
  · exact later
  · cases later

/-- A task other than a request is posted. -/
theorem post (h : Halting s) (task : Task) (other : ∀ r, task ≠ .accept r)
    (closed : task = .drain → s'.closing = true) (closing : s.closing = true → s'.closing = true)
    (posting : s'.posting = s.posting) (idle : s'.closing = true → s.posting = [])
    (loop : s'.loop = s.loop.post task) (draining : s'.draining = s.draining)
    (requests : s'.requests = s.requests) : Halting s' := by
  have same : s'.coming = s.coming := by
    rw [coming, coming, posting, admits, admits, loop]
    cases task with
    | accept ref => exact absurd rfl (other ref)
    | pump i => simp [Reactor.post]
    | drain => simp [Reactor.post]
  refine ⟨fun closes => posting.trans (idle closes), fun mem => ?_, ?_, fun drains => ?_,
    fun stops => ?_⟩
  · rw [loop] at mem
    obtain old | new := List.mem_append.mp mem
    · exact closing (h.drain old)
    · exact closed (List.mem_singleton.mp new).symm
  · rw [loop]
    refine List.pairwise_append.mpr ⟨h.order, List.pairwise_singleton _ _, ?_⟩
    intro a _ b mem _ r
    rw [List.mem_singleton.mp mem]
    exact other r
  · rw [draining] at drains
    exact (h.draining drains).imp closing same.trans
  · rw [loop] at stops
    rw [draining, requests]
    exact h.stopping stops

theorem clear (h : Halting s) (i : Nat) : Halting (s.clear i) := by
  unfold State.clear
  split <;> exact h.of_eq rfl rfl rfl rfl rfl id

/-- Before the destructor nothing drains. -/
theorem of_open (h : Halting s) (open_ : ¬ s.closing = true) (closing : s'.closing = s.closing)
    (tasks : ∀ task ∈ s'.loop.tasks, task ∈ s.loop.tasks ∨ ∃ r, task = .accept r)
    (draining : s'.draining = s.draining) (stopping : s'.loop.stopping = s.loop.stopping) :
    Halting s' := by
  have undrained : .drain ∉ s'.loop.tasks := by
    intro mem
    obtain old | ⟨r, new⟩ := tasks _ mem
    · exact open_ (h.drain old)
    · cases new
  refine ⟨fun closes => absurd (closing ▸ closes) open_, fun mem => absurd mem undrained, ?_,
    fun drains => ?_, fun stops => ?_⟩
  · refine List.pairwise_iff_forall_sublist.mpr fun {a b} sub drains => ?_
    subst drains
    exact absurd (sub.subset List.mem_cons_self) undrained
  · exact absurd (h.draining (draining ▸ drains)).1 open_
  · exact absurd (h.draining (h.stopping (stopping ▸ stops)).1).1 open_

theorem step (h : Halting s) (step : Step t (x, s) (x', s')) : Halting s' := by
  have filtered : ∀ {f : Nat × Nat → Bool}, s.requests = [] → s.requests.filter f = [] := by
    intro f empty
    rw [empty, List.filter_nil]
  cases step with
  | accept room =>
    have open_ : ¬ s.closing = true := fun closes => room (.inl closes)
    exact h.of_open open_ rfl (fun _ mem => .inl mem) rfl rfl
  | @post _ _ ref mem =>
    have open_ : ¬ s.closing = true := by
      intro closes
      rw [h.closing closes] at mem
      cases mem
    refine h.of_open open_ rfl (fun task mem => ?_) rfl rfl
    exact (List.mem_append.mp mem).imp_right fun new => ⟨ref, List.mem_singleton.mp new⟩
  | destroy once idle =>
    exact h.post .drain nofun (fun _ => rfl) (fun _ => rfl) rfl (fun _ => idle) rfl rfl rfl
  | @enroll _ _ ref rest head =>
    have early : ¬ s.draining = true := by
      intro drains
      have none := (h.draining drains).2
      rw [← List.length_eq_zero_iff] at none
      have one := List.length_pos_of_mem (head_coming head)
      omega
    have popped := h.pop head
    exact ⟨popped.closing, popped.drain, popped.order, popped.draining,
      fun stops => absurd (h.stopping stops).1 early⟩
  | resume head => exact (h.pop head).of_eq rfl rfl rfl rfl rfl id
  | @drain _ _ rest head =>
    have popped := h.pop head
    have closed := h.drain (head ▸ List.mem_cons_self)
    have order := h.order
    rw [head, List.pairwise_cons] at order
    have none : (s.setTasks rest).admits = [] :=
      admits_eq_nil fun task mem => order.1 task mem rfl
    refine ⟨popped.closing, popped.drain, popped.order, fun _ => ⟨closed, ?_⟩, fun stops => ?_⟩
    · change s.posting ++ (s.setTasks rest).admits = []
      rw [none, h.closing closed]
      rfl
    · exact ⟨rfl, (h.stopping stops).2⟩
  | stop draining empty =>
    exact ⟨h.closing, h.drain, h.order, h.draining, fun _ => ⟨draining, empty⟩⟩
  | expire _ _ => exact h.of_eq rfl rfl rfl rfl rfl filtered
  | retire _ _ _ _ => exact h.of_eq rfl rfl rfl rfl rfl filtered
  | fail _ _ _ => exact h.of_eq rfl rfl rfl rfl rfl filtered
  | deliver _ _ _ _ _ => exact h.of_eq rfl rfl rfl rfl rfl filtered
  | refuse _ refuses =>
    cases refuses with
    | _ => exact h.of_eq rfl rfl rfl rfl rfl id
  | clear i => exact h.clear i
  | @connect _ _ i ref rest connecting _ _ _ _ _ _ =>
    cases connecting <;> exact h.of_eq rfl rfl rfl rfl rfl id
  | @refused _ _ i ref rest made _ _ _ _ _ =>
    refine Halting.clear ?_ i
    split <;> exact h.of_eq rfl rfl rfl rfl rfl id
  | wrote _ _ _ _ =>
    unfold State.wrote
    split <;> exact h.of_eq rfl rfl rfl rfl rfl id
  | schedule i =>
    unfold State.schedule
    split
    · exact h
    · exact h.post (.pump i) nofun nofun id rfl h.closing rfl rfl rfl
  | _ => exact h.of_eq rfl rfl rfl rfl rfl id

theorem init : Halting {} := ⟨nofun, nofun, List.Pairwise.nil, nofun, nofun⟩

end Halting

/-- The calls of `Submit` of a run have distinct identifiers, so every open request is on its
way or in the map. -/
theorem complete_of_distinct {trace : List (State × Event)} (run : Runs t trace s)
    (distinct : s.ledger.Distinct) : s.ledger.Complete := by
  refine runs_invariant run (fun _ s => s.ledger.Distinct → s.ledger.Complete) ?_ ?_ distinct
  · intro _ r mem
    simp [ledger, Ledger.outstanding] at mem
  · intro x s x' s' sound before step distinct
    obtain same | taken := step.ledger
    · rw [same] at distinct ⊢
      exact before distinct
    · exact .step sound distinct (before (distinct.before sound taken)) taken

/-- The request is known to the loop: its deadline is armed, and it waits or is on one
connection, which is open or being opened. -/
structure Kept (t : AsyncTransport ε) (s : State) (r : Nat) : Prop where
  entry : ((s.heap r).id, r) ∈ s.requests
  deadline : s.loop.timers.lookup (s.heap r).timer = some (.deadline (s.heap r).id)
  place : (s.heap r).slot = none ∧ r ∈ s.waiting ∨
    ∃ i < t.connections, (s.heap r).slot = some i ∧ (s.sockets i).fd = true ∧
      (r ∈ (s.sockets i).output ∨ (s.heap r).sent = true) ∧
      ∀ j, r ∈ (s.sockets j).output → j = i

/-- **No request is lost.** No completion is invoked twice. Between two callbacks every open
request has still to be posted, has its task in the queue of the loop, or is kept by the loop;
and a loop that is told to stop leaves none open. -/
theorem no_request_lost {trace : List (State × Event)} (run : Runs t trace s)
    (distinct : s.ledger.Distinct) :
    (s.completed.map Prod.fst).Nodup ∧
    (∀ r ∈ s.accepted, r ∉ s.completed.map Prod.fst →
      r ∈ s.posting ∨ .accept r ∈ s.loop.tasks ∨ Kept t s r) ∧
    (s.loop.stopping = true → ∀ r ∈ s.accepted, r ∈ s.completed.map Prod.fst) := by
  have sound : s.ledger.Sound := Steps.sound (runs_steps run) sound_init
  have placed : Placed t {} s := runs_invariant run (Placed t) Placed.init Placed.step
  have timed : Timed {} s := runs_invariant run Timed Timed.init Timed.step
  have halting : Halting s :=
    runs_invariant run (fun _ s => Halting s) Halting.init fun _ h => h.step
  have complete := complete_of_distinct run distinct
  refine ⟨sound.completedOnce, fun r accepted open_ => ?_, fun stops r accepted => ?_⟩
  · obtain coming | entry := complete r (Ledger.mem_outstanding.mpr ⟨accepted, open_⟩)
    · exact (List.mem_append.mp coming).imp_right fun queued => .inl (mem_admits.mp queued)
    · refine .inr (.inr ⟨entry, (timed.armed _ entry).resolve_right nofun, ?_⟩)
      cases slot : (s.heap r).slot with
      | none => exact .inl ⟨rfl, sound.queued _ entry slot⟩
      | some i =>
        obtain ⟨valid, place⟩ := placed.placed _ entry i slot
        obtain ⟨fd, carried⟩ := place.resolve_left List.not_mem_nil
        refine .inr ⟨i, valid, rfl, fd, carried, fun j mem => ?_⟩
        have other := (placed.output j r mem).2
        rw [slot, Option.some.injEq] at other
        exact other.symm
  · obtain ⟨drains, empty⟩ := halting.stopping stops
    obtain ⟨-, none⟩ := halting.draining drains
    by_contra open_
    obtain coming | entry := complete r (Ledger.mem_outstanding.mpr ⟨accepted, open_⟩)
    · have none' : s.ledger.coming = [] := none
      rw [none'] at coming
      cases coming
    · have empty' : s.ledger.requests = [] := empty
      rw [empty'] at entry
      cases entry

/-- One request is sent and one waits for its answer. -/
theorem no_request_lost_waiting :
    ∃ trace s, Runs kvClient trace s ∧ s.ledger.Distinct ∧
      s.accepted = [0, 1] ∧ s.completed = [] ∧ s.coming = [] ∧ s.waiting = [1] ∧
      ∀ r ∈ s.accepted, r ∉ s.completed.map Prod.fst →
        r ∈ s.posting ∨ .accept r ∈ s.loop.tasks ∨ Kept kvClient s r := by
  have run := Run.replays (State.step kvClient) {}
    [.call (.submit 1 [7, 8]), .call (.post 0), .call (.submit 2 [9]), .call (.post 1),
      .task { connects := [.connected], sends := [.wrote 2] }, .task {}] (by decide +kernel)
  have kept := no_request_lost run (by decide +kernel)
  exact ⟨_, _, run, by decide +kernel, by decide +kernel, by decide +kernel, by decide +kernel,
    by decide +kernel, kept.2.1⟩

/-- After `Submit` has returned, before its task has run. -/
theorem submitted_without_deadline :
    ∃ trace s, Runs rpcClient trace s ∧ s.ledger.Distinct ∧
      s.accepted = [0] ∧ s.completed = [] ∧ s.loop.timers = [] ∧ (s.heap 0).slot = none ∧
      s.waiting = [] := by
  have run := Run.replays (State.step rpcClient) {} [.call (.submit 1 [7]), .call (.post 0)]
    (by decide +kernel)
  exact ⟨_, _, run, by decide +kernel, by decide +kernel, by decide +kernel, by decide +kernel,
    by decide +kernel, by decide +kernel⟩

end KVRPC.Client
