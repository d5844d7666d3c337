import KVRPC.Client.Callbacks

/-!
# The counters of the transport

`admitted`, `bytes` and the `inflight` of every connection are what they count in the ledger,
and stay within the configured limits; so no subtraction wraps around.
-/
namespace KVRPC.Client

open Library Net State
open scoped List

variable {ε : Type} {t : AsyncTransport ε} {x x' : Phase} {s s' : State} {i j ref id : Nat}

/-- The counters agree with the ledger. -/
structure Balance (t : AsyncTransport ε) (s : State) : Prop where
  admitted : s.admitted = s.ledger.outstanding.length
  bytes : s.bytes = (s.ledger.outstanding.map s.ledger.size).sum
  capacity : s.admitted ≤ t.options.queueCapacity
  budget : s.bytes ≤ t.options.queueBytes
  inflight : ∀ i, (s.sockets i).inflight = (s.ledger.assigned i).length
  unwrapped : s.wrapped = false

structure Accounts (t : AsyncTransport ε) (s : State) : Prop extends Balance t s where
  room : ∀ i, (s.sockets i).inflight + (s.sockets i).retired.length ≤ t.limit

/-- The connections carry the same requests and no more retired identifiers. -/
def Lighter (s s' : State) : Prop :=
  ∀ i, (s'.sockets i).inflight = (s.sockets i).inflight ∧
    (s'.sockets i).retired.length ≤ (s.sockets i).retired.length

theorem Lighter.update {c : Connection} (sockets : s'.sockets = Function.update s.sockets i c)
    (inflight : c.inflight = (s.sockets i).inflight)
    (retired : c.retired.length ≤ (s.sockets i).retired.length) : Lighter s s' := by
  intro j
  rw [sockets]
  by_cases same : j = i
  · subst same
    rw [Function.update_self]
    exact ⟨inflight, retired⟩
  · rw [Function.update_of_ne same]
    exact ⟨rfl, le_rfl⟩

theorem Lighter.of_eq (sockets : s'.sockets = s.sockets) : Lighter s s' :=
  fun i => by simp [sockets]

/-- What a step must leave alone. -/
theorem Accounts.of_eq (h : Accounts t s)
    (outstanding : s'.ledger.outstanding = s.ledger.outstanding)
    (size : s'.ledger.size = s.ledger.size) (slot : s'.ledger.slot = s.ledger.slot)
    (admitted : s'.admitted = s.admitted) (bytes : s'.bytes = s.bytes)
    (wrapped : s'.wrapped = s.wrapped) (lighter : Lighter s s') : Accounts t s' where
  admitted := by rw [admitted, outstanding, h.admitted]
  bytes := by rw [bytes, outstanding, size, h.bytes]
  capacity := admitted ▸ h.capacity
  budget := bytes ▸ h.budget
  inflight i := by
    rw [(lighter i).1, h.inflight, Ledger.assigned, Ledger.assigned, outstanding, slot]
  unwrapped := wrapped ▸ h.unwrapped
  room i := by
    have := lighter i
    have := h.room i
    omega

theorem Accounts.congr (h : Accounts t s) (ledger : s'.ledger = s.ledger)
    (admitted : s'.admitted = s.admitted) (bytes : s'.bytes = s.bytes)
    (wrapped : s'.wrapped = s.wrapped) (lighter : Lighter s s') : Accounts t s' :=
  h.of_eq (by rw [ledger]) (by rw [ledger]) (by rw [ledger]) admitted bytes wrapped lighter

theorem release_inflight (s : State) (id ref j : Nat) :
    ((s.release id ref).sockets j).inflight =
      if (s.heap ref).slot = some j then usub (s.sockets j).inflight 1
      else (s.sockets j).inflight := by
  unfold State.release
  dsimp only
  cases slot : (s.heap ref).slot with
  | none => simp
  | some i =>
    by_cases same : j = i
    · simp [same]
    · simp [same, Ne.symm same]

/-- `Finish` takes one request off every account it stands on. -/
theorem Balance.release (h : Balance t s) (sound : s.ledger.Sound)
    (found : s.requests.lookup id = some ref) (outcome : Outcome) :
    Balance t ((s.release id ref).record ref outcome) := by
  have less := sound.outstanding_finish found
  have count : s.admitted = (s.ledger.finish id ref).outstanding.length + 1 :=
    h.admitted.trans less.length_eq
  have load : s.bytes = (s.heap ref).bytes.length +
      ((s.ledger.finish id ref).outstanding.map s.ledger.size).sum :=
    h.bytes.trans (less.map s.ledger.size).sum_eq
  have assigned : ∀ i, (s.sockets i).inflight = ((s.ledger.finish id ref).assigned i).length +
      if (s.heap ref).slot = some i then 1 else 0 := by
    intro i
    rw [h.inflight i, Ledger.assigned, (less.filter _).length_eq, List.filter_cons]
    by_cases here : (s.heap ref).slot = some i
    · simp only [ledger, here, decide_true, if_true]
      rfl
    · simp only [ledger, here, decide_false, if_false]
      rfl
  have decrement := usub_of_le (a := s.admitted) (b := 1) (by omega)
  have subtract := usub_of_le (a := s.bytes) (b := (s.heap ref).bytes.length) (by omega)
  have enough := h.capacity
  have within := h.budget
  refine ⟨?_, ?_, ?_, ?_, fun i => ?_, ?_⟩
  · rw [ledger_finish]
    change usub s.admitted 1 = _
    omega
  · rw [ledger_finish]
    change usub s.bytes (s.heap ref).bytes.length = (_ : List Nat).sum
    rw [subtract, load, Nat.add_sub_cancel_left]
    rfl
  · change usub s.admitted 1 ≤ _
    omega
  · change usub s.bytes (s.heap ref).bytes.length ≤ _
    omega
  · rw [ledger_finish]
    refine (release_inflight s id ref i).trans ?_
    have before := assigned i
    split
    case isTrue slot =>
      rw [if_pos slot] at before
      rw [usub_of_le (by omega), before, Nat.add_sub_cancel]
    case isFalse slot => rwa [if_neg slot] at before
  · simp only [State.record, State.release, h.unwrapped, Bool.false_or, decide_eq_false_iff_not,
      not_or, not_exists, not_and]
    refine ⟨by omega, by omega, fun i slot => ?_⟩
    have before := assigned i
    rw [if_pos (Option.mem_def.mp slot)] at before
    omega

/-- A finished request leaves room on its connection. -/
theorem release_room (h : Balance t s) (sound : s.ledger.Sound)
    (found : s.requests.lookup id = some ref) (i : Nat) :
    ((s.release id ref).sockets i).inflight + (if (s.heap ref).slot = some i then 1 else 0) =
      (s.sockets i).inflight := by
  rw [release_inflight]
  split
  case isTrue slot =>
    have one : ref ∈ s.ledger.assigned i :=
      List.mem_filter.mpr ⟨sound.enrolled _ (Assoc.mem_of_lookup found), decide_eq_true slot⟩
    have positive := List.length_pos_of_mem one
    have count := h.inflight i
    rw [usub_of_le (by omega)]
    omega
  case isFalse => rfl

theorem Accounts.release (h : Accounts t s) (sound : s.ledger.Sound)
    (found : s.requests.lookup id = some ref) (outcome : Outcome) :
    Accounts t ((s.release id ref).record ref outcome) := by
  refine ⟨h.toBalance.release sound found outcome, fun i => ?_⟩
  have fewer := release_room h.toBalance sound found i
  have room := h.room i
  have retired := release_field Connection.retired (fun _ _ => rfl) s id ref i
  change ((s.release id ref).sockets i).inflight + ((s.release id ref).sockets i).retired.length ≤ _
  rw [retired]
  omega

/-- The place of a finished request goes to its retired identifier. -/
theorem Accounts.retire (h : Accounts t s) (sound : s.ledger.Sound)
    (found : s.requests.lookup id = some ref) (slot : (s.heap ref).slot = some i)
    (outcome : Outcome) : Accounts t (((s.retire i id).release id ref).record ref outcome) := by
  have retired : Balance t (s.retire i id) := by
    refine ⟨h.admitted, h.bytes, h.capacity, h.budget, fun j => ?_, h.unwrapped⟩
    exact Eq.trans (update_field Connection.inflight (by rfl) j) (h.inflight j)
  have sound' : (s.retire i id).ledger.Sound := sound
  refine ⟨retired.release sound' found outcome, fun j => ?_⟩
  have fewer := release_room retired sound' found j
  have room := h.room j
  have kept := release_field Connection.retired (fun _ _ => rfl) (s.retire i id) id ref j
  change (((s.retire i id).release id ref).sockets j).inflight +
    (((s.retire i id).release id ref).sockets j).retired.length ≤ _
  rw [kept]
  by_cases same : j = i
  · subst same
    have longer : ((s.sockets j).retired.insert id).length ≤ (s.sockets j).retired.length + 1 := by
      rw [List.length_insert]
      split <;> omega
    simp only [State.retire, setSocket, Function.update_self, slot, if_true] at fewer ⊢
    omega
  · have other : ¬ ((s.retire i id).heap ref).slot = some j := by
      rw [show ((s.retire i id).heap ref).slot = some i from slot, Option.some.injEq]
      exact Ne.symm same
    rw [if_neg other] at fewer
    simp only [State.retire, setSocket, Function.update_of_ne same] at fewer ⊢
    omega

theorem Accounts.reject (h : Accounts t s) (sound : s.ledger.Sound) (id : Nat) (bytes : Bytes) :
    Accounts t (s.reject t id bytes) := by
  have known : ∀ r ∈ s.ledger.outstanding, r ≠ s.submitted := fun r mem =>
    (sound.below r (.inl (Ledger.mem_outstanding.mp mem).1)).ne
  have same : (s.reject t id bytes).ledger.outstanding = s.ledger.outstanding := by
    refine List.filter_congr fun r accepted => ?_
    have other : r ≠ s.submitted := (sound.below r (.inl accepted)).ne
    rw [decide_eq_decide]
    simp [State.reject, ledger, other]
  have heap : ∀ r ∈ s.ledger.outstanding, (s.reject t id bytes).heap r = s.heap r :=
    fun r mem => Function.update_of_ne (known r mem) _ _
  refine ⟨⟨?_, ?_, h.capacity, h.budget, fun i => ?_, ?_⟩, h.room⟩
  · rw [same]
    exact h.admitted
  · rw [same]
    refine h.bytes.trans (congrArg List.sum (List.map_congr_left fun r mem => ?_))
    exact congrArg (fun r : Request => r.bytes.length) (heap r mem).symm
  · refine (h.inflight i).trans ?_
    rw [Ledger.assigned, Ledger.assigned, same]
    refine congrArg List.length (List.filter_congr fun r mem => ?_)
    rw [decide_eq_decide]
    simp only [ledger, heap r mem]
  · simp only [State.reject, h.unwrapped, Bool.false_or, decide_eq_false_iff_not]
    exact not_lt.mpr h.budget

theorem Accounts.accept (h : Accounts t s) (sound : s.ledger.Sound) {bytes : Bytes}
    (room : ¬ s.Full t bytes) (id : Nat) : Accounts t (s.accept t id bytes) := by
  obtain ⟨-, place, load⟩ : ¬ s.closing = true ∧ ¬ s.admitted ≥ t.options.queueCapacity ∧
      ¬ bytes.length > usub t.options.queueBytes s.bytes := by
    simpa only [Full, not_or] using room
  have budget := h.budget
  rw [usub_of_le budget] at load
  have fresh : s.submitted ∉ s.ledger.completed := fun mem => (sound.below _ (.inr mem)).ne rfl
  have longer : (s.accept t id bytes).ledger.outstanding =
      s.ledger.outstanding ++ [s.submitted] := by
    have last : [s.submitted].filter (· ∉ s.ledger.completed) = [s.submitted] := by simp [fresh]
    change (s.accepted ++ [s.submitted]).filter (· ∉ s.ledger.completed) = _
    rw [List.filter_append, last]
    rfl
  have heap : ∀ r ∈ s.ledger.outstanding, (s.accept t id bytes).heap r = s.heap r := fun r mem =>
    Function.update_of_ne (sound.below r (.inl (Ledger.mem_outstanding.mp mem).1)).ne _ _
  have new : (s.accept t id bytes).heap s.submitted = { id, bytes } := Function.update_self _ _ _
  refine ⟨⟨?_, ?_, ?_, ?_, fun i => ?_, ?_⟩, h.room⟩
  · rw [longer, List.length_append, ← h.admitted]
    rfl
  · have old : s.ledger.outstanding.map (s.accept t id bytes).ledger.size =
        s.ledger.outstanding.map s.ledger.size := List.map_congr_left fun r mem =>
      congrArg (fun r : Request => r.bytes.length) (heap r mem)
    rw [longer, List.map_append, List.sum_append, old, ← h.bytes]
    simp [ledger, new]
    rfl
  · change s.admitted + 1 ≤ _
    omega
  · change s.bytes + bytes.length ≤ _
    omega
  · refine (h.inflight i).trans ?_
    rw [Ledger.assigned, Ledger.assigned, longer, List.filter_append]
    have unassigned : [s.submitted].filter
        (fun r => (s.accept t id bytes).ledger.slot r = some i) = [] := by
      simp [ledger, new]
    rw [unassigned, List.append_nil]
    refine congrArg List.length (List.filter_congr fun r mem => ?_)
    rw [decide_eq_decide]
    simp only [ledger, heap r mem]
  · simp only [State.accept, h.unwrapped, Bool.false_or, decide_eq_false_iff_not]
    exact not_lt.mpr budget

theorem length_assigned {l : Ledger} (distinct : l.outstanding.Nodup) (out : ref ∈ l.outstanding)
    (free : l.slot ref = none) (rest : List Nat) (i j : Nat) :
    (({ l with waiting := rest, slot := Function.update l.slot ref (some i) } :
      Ledger).assigned j).length = (l.assigned j).length + if i = j then 1 else 0 := by
  have split := List.perm_cons_erase out
  have others : ∀ r ∈ l.outstanding.erase ref,
      Function.update l.slot ref (some i) r = l.slot r := by
    intro r mem
    exact Function.update_of_ne (distinct.mem_erase_iff.mp mem).1 _ _
  have before : (l.assigned j).length =
      ((l.outstanding.erase ref).filter fun r => l.slot r = some j).length := by
    rw [Ledger.assigned, (split.filter _).length_eq, List.filter_cons_of_neg (by simp [free])]
  have after : (l.outstanding.erase ref).filter
      (fun r => Function.update l.slot ref (some i) r = some j) =
        (l.outstanding.erase ref).filter fun r => l.slot r = some j :=
    List.filter_congr fun r mem => by rw [others r mem]
  refine ((split.filter _).length_eq).trans ?_
  rw [before, List.filter_cons, after]
  by_cases here : i = j
  · simp [here]
  · simp [here]

/-- The request goes from the line to the account of the connection. -/
theorem Accounts.assign (h : Accounts t s) (sound : s.ledger.Sound) {rest : List Nat}
    (head : s.waiting = ref :: rest)
    (room : (s.sockets i).inflight + (s.sockets i).retired.length < t.limit) :
    Accounts t (s.assign t i ref rest) := by
  obtain ⟨out, free⟩ := sound.waiting ref (by simp [ledger, head])
  have sizes : (s.assign t i ref rest).ledger.size = s.ledger.size := by
    rw [ledger_assign]
  refine ⟨⟨h.admitted, ?_, h.capacity, h.budget, fun j => ?_, h.unwrapped⟩, fun j => ?_⟩
  · rw [sizes]
    exact h.bytes
  · rw [ledger_assign, length_assigned (sound.once.filter _) out free, ← h.inflight j]
    by_cases same : i = j
    · simp [State.assign, same]
    · simp [State.assign, same, Function.update_of_ne (Ne.symm same)]
  · by_cases same : j = i
    · subst same
      simp only [State.assign, Function.update_self]
      omega
    · simpa [State.assign, Function.update_of_ne same] using h.room j

/-- The steps of `Connect` do not count. -/
theorem Accounts.opened (h : Accounts t s) (i : Nat) (connecting : Bool) :
    Accounts t (s.opened i connecting) := by
  have registered : ∀ connecting, Accounts t (s.register i connecting) := fun connecting =>
    h.of_eq rfl rfl rfl rfl rfl rfl (.update rfl rfl le_rfl)
  cases connecting with
  | false => exact registered false
  | true => exact (registered true).of_eq rfl rfl rfl rfl rfl rfl (.update rfl rfl le_rfl)

theorem Accounts.clear (h : Accounts t s) (i : Nat) : Accounts t (s.clear i) :=
  h.congr (ledger_clear i) rfl rfl rfl (.update rfl rfl (Nat.zero_le _))

theorem Accounts.setSocket (h : Accounts t s) {c : Connection}
    (inflight : c.inflight = (s.sockets i).inflight)
    (retired : c.retired.length ≤ (s.sockets i).retired.length) : Accounts t (s.setSocket i c) :=
  h.of_eq rfl rfl rfl rfl rfl rfl (.update rfl inflight retired)

theorem Accounts.step (sound : s.ledger.Sound) (h : Accounts t s)
    (step : Step t (x, s) (x', s')) : Accounts t s' := by
  cases step with
  | reject _ => exact h.reject sound _ _
  | accept room => exact h.accept sound room _
  | @enroll _ _ ref rest head =>
    exact h.of_eq rfl (funext (update_field (fun r : Request => r.bytes.length) (by rfl)))
      (funext (update_field Request.slot (by rfl))) rfl rfl rfl (.of_eq rfl)
  | expire found _ => exact h.release sound found _
  | retire found slot _ _ => exact h.retire sound found slot _
  | fail found _ _ => exact h.release sound found _
  | @deliver _ _ i size id ref response _ _ _ found _ =>
    have taken : Accounts t (s.take t i size ref response) :=
      h.of_eq rfl rfl rfl rfl rfl rfl (.update rfl rfl le_rfl)
    exact taken.release sound found _
  | @drop _ _ i size id response _ _ _ _ =>
    exact h.of_eq rfl rfl rfl rfl rfl rfl (.update rfl rfl (List.length_filter_le _ _))
  | @refuse _ _ _ i _ refuses =>
    cases refuses with
    | framing _ _ => exact h.of_eq rfl rfl rfl rfl rfl rfl (.of_eq rfl)
    | tooLarge _ _ _ => exact h.of_eq rfl rfl rfl rfl rfl rfl (.of_eq rfl)
    | noId _ _ _ _ => exact h.of_eq rfl rfl rfl rfl rfl rfl (.update rfl rfl le_rfl)
    | unknown _ _ _ => exact h.of_eq rfl rfl rfl rfl rfl rfl (.update rfl rfl le_rfl)
  | clear i => exact h.clear i
  | assign _ head _ room _ => exact h.assign sound head room
  | connect _ _ head _ room _ => exact (h.assign sound head room).opened _ _
  | @refused _ _ i ref rest made _ head _ room _ =>
    refine Accounts.clear ?_ i
    split
    · exact (h.assign sound head room).setSocket rfl le_rfl
    · exact h.assign sound head room
  | established i => exact h.of_eq rfl rfl rfl rfl rfl rfl (.update rfl rfl le_rfl)
  | @wrote _ _ i ref n rest _ _ _ _ =>
    have same : (s.wrote i ref rest n).ledger = s.ledger := ledger_wrote i ref rest n
    unfold State.wrote at same ⊢
    split_ifs at same ⊢
    · exact h.congr same rfl rfl rfl (.update rfl rfl le_rfl)
    · exact h.congr same rfl rfl rfl (.update rfl rfl le_rfl)
  | received _ bytes => exact h.of_eq rfl rfl rfl rfl rfl rfl (.update rfl rfl le_rfl)
  | schedule i =>
    unfold State.schedule
    split
    · exact h
    · exact h.of_eq rfl rfl rfl rfl rfl rfl (.update rfl rfl le_rfl)
  | resume head => exact h.of_eq rfl rfl rfl rfl rfl rfl (.update rfl rfl le_rfl)
  | _ => exact h.of_eq rfl rfl rfl rfl rfl rfl (.of_eq rfl)

theorem accounts_init (t : AsyncTransport ε) : Accounts t {} where
  admitted := rfl
  bytes := rfl
  capacity := Nat.zero_le _
  budget := Nat.zero_le _
  inflight _ := rfl
  unwrapped := rfl
  room _ := Nat.zero_le _

theorem accounts {trace : List (State × Event)} (run : Runs t trace s) : Accounts t s :=
  runs_invariant run (fun _ s => Accounts t s) (accounts_init t) Accounts.step

/-- **Resource accounting.** Whatever the peers answer and whenever other threads call `Submit`,
every counter is the number or the size of the open requests it stands for and within its
limit, and none has ever wrapped around. -/
theorem counters_exact {trace : List (State × Event)} (run : Runs t trace s) :
    (s.admitted = s.ledger.outstanding.length ∧ s.admitted ≤ t.options.queueCapacity) ∧
    (s.bytes = (s.ledger.outstanding.map fun r => (s.heap r).bytes.length).sum ∧
      s.bytes ≤ t.options.queueBytes) ∧
    (∀ i, (s.sockets i).inflight = (s.ledger.assigned i).length ∧
      (s.sockets i).inflight + (s.sockets i).retired.length ≤
        if t.ids.isSome then t.options.maxInflight else 1) ∧
    s.wrapped = false := by
  have kept := accounts run
  exact ⟨⟨kept.admitted, kept.capacity⟩, ⟨kept.bytes, kept.budget⟩,
    fun i => ⟨kept.inflight i, kept.room i⟩, kept.unwrapped⟩

/-- The first of two requests is sent and then misses its deadline. -/
theorem counters_exact_retired :
    ∃ trace s, Runs rpcClient trace s ∧ s.ledger.outstanding = [1] ∧
      (s.sockets 0).retired = [1] ∧ s.admitted = s.ledger.outstanding.length ∧
      s.wrapped = false := by
  have run := Run.replays (State.step rpcClient) {}
    [.call (.submit 1 [7, 8]), .call (.post 0), .call (.submit 2 [9]), .call (.post 1),
      .task { connects := [.connected], sends := [.wrote 2] }, .task {}, .timer 1 {}]
    (by decide +kernel)
  have exact_ := counters_exact run
  exact ⟨_, _, run, by decide +kernel, by decide +kernel, exact_.1.1, exact_.2.2.2⟩

end KVRPC.Client
