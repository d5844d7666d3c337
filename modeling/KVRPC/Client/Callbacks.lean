import KVRPC.Client.Ledger

/-!
# Every event is a sequence of steps

`Finish`, `Disconnect`, `Pump` and `Dispatch` are taken apart into steps. `Finish` and
`Disconnect` call each other; their depth is bounded because every call of `Finish` that finds
its request takes it out of the map, and at the end of `Disconnect` no request of its
connection is left.
-/
namespace KVRPC.Client

open Library Net Relation State

variable {ε : Type} {t : AsyncTransport ε} {x x' : Phase} {s s' : State} {i ref id : Nat}

theorem Steps.sound {p q : Phase × State} (steps : Steps t p q) (sound : p.2.ledger.Sound) :
    q.2.ledger.Sound := by
  induction steps with
  | refl => exact sound
  | @tail b c _ last ih =>
    obtain ⟨x, s⟩ := b
    obtain ⟨x', s'⟩ := c
    obtain same | step := last.ledger
    · exact same ▸ ih
    · exact ih.step step

theorem call_steps (c : Call) : Steps t (x, s) (x, s.call t c) := by
  cases c with
  | submit id bytes =>
    unfold State.call State.submit
    dsimp only
    split
    case isTrue full => exact .single (.reject full)
    case isFalse room => exact .single (.accept room)
  | post ref =>
    unfold State.call
    dsimp only
    split
    case isTrue mem => exact .single (.post mem)
    case isFalse => exact .refl

theorem calls_steps (calls : List Call) : Steps t (x, s) (x, calls.foldl (State.call t) s) := by
  induction calls generalizing s with
  | nil => exact .refl
  | cons c rest ih => exact (call_steps c).trans ih

theorem invoke_steps : Steps t (x, s) (x, (s.invoke t).2) := by
  unfold State.invoke
  split
  · exact .refl
  · exact .head (.env _) (calls_steps _)

theorem stopIfDrained_steps : Steps t (x, s) (x, s.stopIfDrained) := by
  unfold State.stopIfDrained
  split
  case isTrue drained => exact .single (.stop drained.1 drained.2)
  case isFalse => exact .refl

/-- What `Finish` and `Disconnect` leave alone: no request is added to the map and no object
that existed is changed. -/
structure Shrinks (s s' : State) : Prop where
  requests : ∀ p ∈ s'.requests, p ∈ s.requests
  length : s'.requests.length ≤ s.requests.length
  submitted : s.submitted ≤ s'.submitted
  heap : ∀ r, r < s.submitted → s'.heap r = s.heap r

namespace Shrinks

theorem refl (s : State) : Shrinks s s := ⟨fun _ mem => mem, le_rfl, le_rfl, fun _ _ => rfl⟩

theorem trans {s'' : State} (h : Shrinks s s') (h' : Shrinks s' s'') : Shrinks s s'' where
  requests p mem := h.requests p (h'.requests p mem)
  length := h'.length.trans h.length
  submitted := h.submitted.trans h'.submitted
  heap r old := (h'.heap r (old.trans_le h.submitted)).trans (h.heap r old)

theorem of_eq (requests : s'.requests = s.requests) (submitted : s'.submitted = s.submitted)
    (heap : s'.heap = s.heap) : Shrinks s s' :=
  ⟨fun _ mem => requests ▸ mem, by rw [requests], submitted.ge, fun _ _ => by rw [heap]⟩

theorem call (c : Call) : Shrinks s (s.call t c) := by
  cases c with
  | submit id bytes =>
    unfold State.call State.submit
    dsimp only
    split
    all_goals exact ⟨fun _ mem => mem, le_rfl, Nat.le_succ _,
      fun r old => Function.update_of_ne old.ne _ _⟩
  | post ref =>
    unfold State.call
    dsimp only
    split <;> exact of_eq rfl rfl rfl

theorem foldl {α : Type} (f : State → α → State) (step : ∀ s a, Shrinks s (f s a)) (as : List α) :
    Shrinks s (as.foldl f s) := by
  induction as generalizing s with
  | nil => exact refl s
  | cons a rest ih => exact (step s a).trans ih

theorem invoke : Shrinks s (s.invoke t).2 := by
  unfold State.invoke
  split
  · exact refl s
  case h_2 c rest _ =>
    have used : Shrinks s { s with env.completions := rest } := of_eq rfl rfl rfl
    exact used.trans (foldl (State.call t) (fun _ c => call c) c.calls)

theorem failAll {finish : Nat → Outcome → State → State}
    (finishes : ∀ id outcome s, Shrinks s (finish id outcome s)) (i : Nat) (error : Error) :
    Shrinks s (failAll finish i error s) := by
  have used : Shrinks s { s with env.orders := s.env.orders.tail } := of_eq rfl rfl rfl
  exact used.trans (foldl _ (fun s id => finishes id (.error error) s) _)

theorem disconnectWith {finish : Nat → Outcome → State → State}
    (finishes : ∀ id outcome s, Shrinks s (finish id outcome s)) (i : Nat) (error : Error) :
    Shrinks s (disconnectWith finish i error s) := by
  have cleared : Shrinks s (s.clear i) := of_eq rfl rfl rfl
  exact cleared.trans (failAll finishes i error)

theorem settle {finish : Nat → Outcome → State → State}
    (finishes : ∀ id outcome s, Shrinks s (finish id outcome s)) (ref : Nat) :
    Shrinks s (settle t finish ref s) := by
  have stops : ∀ s : State, Shrinks s s.stopIfDrained := by
    intro s
    unfold State.stopIfDrained
    split <;> exact of_eq rfl rfl rfl
  refine trans ?_ (stops _)
  split
  · exact invoke
  · split
    · exact invoke.trans (disconnectWith finishes _ _)
    · exact invoke

theorem release (id ref : Nat) (outcome : Outcome) :
    Shrinks s ((s.release id ref).record ref outcome) :=
  ⟨fun _ mem => List.mem_of_mem_filter mem, List.length_filter_le _ _, le_rfl, fun _ _ => rfl⟩

theorem finishWithin (rounds id : Nat) (outcome : Outcome) (s : State) :
    Shrinks s (finishWithin t rounds id outcome s) := by
  induction rounds generalizing id outcome s with
  | zero => exact refl s
  | succ rounds ih =>
    unfold State.finishWithin
    split
    · exact refl s
    · exact (release _ _ _).trans (settle ih _)

end Shrinks

theorem finishWithin_found {rounds : Nat} {outcome : Outcome}
    (found : s.requests.lookup id = some ref) :
    finishWithin t (rounds + 1) id outcome s =
      settle t (finishWithin t rounds) ref ((s.release id ref).record ref outcome) := by
  simp only [finishWithin, found]

theorem finishWithin_absent {rounds : Nat} {outcome : Outcome}
    (absent : s.requests.lookup id = none) : finishWithin t rounds id outcome s = s := by
  cases rounds with
  | zero => rfl
  | succ rounds => simp only [finishWithin, absent]

/-- `Finish` takes its request out of the map. -/
theorem finishWithin_removes {rounds : Nat} (enough : s.requests.length ≤ rounds) (id : Nat)
    (outcome : Outcome) : ∀ p ∈ (finishWithin t rounds id outcome s).requests, p.1 ≠ id := by
  intro p mem
  cases found : s.requests.lookup id with
  | none =>
    rw [finishWithin_absent found] at mem
    exact Assoc.lookup_eq_none.mp found p mem
  | some ref =>
    cases rounds with
    | zero =>
      have empty := List.length_eq_zero_iff.mp (Nat.le_zero.mp enough)
      simp [empty] at found
    | succ rounds =>
      rw [finishWithin_found found] at mem
      have kept := (Shrinks.settle (Shrinks.finishWithin rounds) ref).requests p mem
      exact of_decide_eq_true (List.mem_filter.mp kept).2

theorem length_release (found : s.requests.lookup id = some ref) (outcome : Outcome) :
    ((s.release id ref).record ref outcome).requests.length < s.requests.length := by
  refine List.length_filter_lt_length_iff_exists.mpr ⟨(id, ref), Assoc.mem_of_lookup found, ?_⟩
  simp

theorem mem_failed :
    id ∈ s.failed i ↔ ∃ ref, (id, ref) ∈ s.requests ∧ (s.heap ref).slot = some i := by
  have arranged : ∀ choice ids : List Nat, id ∈ failed.arrange choice ids ↔ id ∈ ids := by
    intro choice ids
    simp only [failed.arrange, List.mem_append, List.mem_dedup, List.mem_filter,
      decide_eq_true_eq]
    tauto
  rw [failed, arranged]
  simp

theorem foldl_finish_removes {rounds : Nat} {error : Error} (ids : List Nat)
    (enough : s.requests.length ≤ rounds) :
    ∀ p ∈ (ids.foldl (fun s id => finishWithin t rounds id (.error error) s) s).requests,
      p.1 ∉ ids := by
  induction ids generalizing s with
  | nil => exact fun _ _ => List.not_mem_nil
  | cons id ids ih =>
    intro p mem
    have less := Shrinks.finishWithin (t := t) rounds id (.error error) s
    have later := Shrinks.foldl (s := finishWithin t rounds id (.error error) s)
      (fun s id => finishWithin t rounds id (.error error) s)
      (fun s id => Shrinks.finishWithin rounds id _ s) ids
    rw [List.mem_cons, not_or]
    exact ⟨finishWithin_removes enough id _ p (later.requests p mem),
      ih (less.length.trans enough) p mem⟩

/-- The calls of `Finish` in `Disconnect`. -/
theorem foldl_finish_steps {rounds : Nat} {error : Error}
    (finishes : ∀ s : State, s.ledger.Sound → s.requests.length ≤ rounds → ∀ id ref,
      s.requests.lookup id = some ref → (s.heap ref).slot = some i →
        Steps t (x, s) (x, finishWithin t rounds id (.error error) s))
    (ids : List Nat) (sound : s.ledger.Sound) (enough : s.requests.length ≤ rounds)
    (assigned : ∀ id ∈ ids, ∀ ref, (id, ref) ∈ s.requests → (s.heap ref).slot = some i) :
    Steps t (x, s) (x, ids.foldl (fun s id => finishWithin t rounds id (.error error) s) s) := by
  induction ids generalizing s with
  | nil => exact .refl
  | cons id ids ih =>
    have first : Steps t (x, s) (x, finishWithin t rounds id (.error error) s) := by
      cases found : s.requests.lookup id with
      | none => rw [finishWithin_absent found]
      | some ref =>
        exact finishes s sound enough id ref found
          (assigned id List.mem_cons_self ref (Assoc.mem_of_lookup found))
    have less := Shrinks.finishWithin (t := t) rounds id (.error error) s
    -- the requests that are left are the same objects, on the same connection
    refine first.trans (ih (Steps.sound first sound) (less.length.trans enough) ?_)
    intro id' later ref mem
    have old := less.requests _ mem
    rw [less.heap ref (sound.ref_lt old)]
    exact assigned id' (List.mem_cons_of_mem _ later) ref old

/-- The loop of `Disconnect` leaves no request on the connection. -/
theorem failAll_removes {rounds : Nat} {error : Error} (enough : s.requests.length ≤ rounds) :
    ∀ p ∈ (failAll (finishWithin t rounds) i error s).requests, (s.heap p.2).slot ≠ some i := by
  intro p mem slot
  have used : ({ s with env.orders := s.env.orders.tail } : State).requests.length ≤ rounds :=
    enough
  refine foldl_finish_removes (s.failed i) used p mem (mem_failed.mpr ⟨p.2, ?_, slot⟩)
  exact (Shrinks.failAll (Shrinks.finishWithin rounds) i error).requests p mem

theorem failAll_steps {rounds : Nat} {error : Error}
    (finishes : ∀ s : State, s.ledger.Sound → s.requests.length ≤ rounds → ∀ id ref,
      s.requests.lookup id = some ref → (s.heap ref).slot = some i →
        Steps t ({ x with closing := i :: x.closing }, s)
          ({ x with closing := i :: x.closing }, finishWithin t rounds id (.error error) s))
    (sound : s.ledger.Sound) (enough : s.requests.length ≤ rounds) :
    Steps t ({ x with closing := i :: x.closing }, s)
      (x, failAll (finishWithin t rounds) i error s) := by
  have assigned : ∀ id ∈ s.failed i, ∀ ref, (id, ref) ∈ s.requests →
      (s.heap ref).slot = some i := by
    intro id mem ref entry
    obtain ⟨ref', entry', slot⟩ := mem_failed.mp mem
    have same := sound.entry_unique entry entry' rfl
    rw [Prod.mk.injEq] at same
    exact same.2 ▸ slot
  have used : ({ s with env.orders := s.env.orders.tail } : State).ledger.Sound := sound
  have steps := foldl_finish_steps finishes (s.failed i) used enough assigned
  refine .head (.env _) (steps.tail (.closed rfl fun p mem slot => ?_))
  have less := Shrinks.failAll (s := s) (Shrinks.finishWithin (t := t) rounds) i error
  refine failAll_removes enough p mem ?_
  rw [← less.heap p.2 (sound.ref_lt (less.requests p mem))]
  exact slot

/-- `Finish` from the call of the completion on, when the `Disconnect` it may call is a sequence
of steps. -/
theorem settle_steps {rounds : Nat}
    (fails : ∀ {x : Phase} {s : State} {i : Nat} {error : Error}, s.ledger.Sound →
      s.requests.length ≤ rounds → Steps t ({ x with closing := i :: x.closing }, s)
        (x, failAll (finishWithin t rounds) i error s))
    (sound : s.ledger.Sound) (enough : s.requests.length ≤ rounds) (ref : Nat) :
    Steps t (x, s) (x, settle t (finishWithin t rounds) ref s) := by
  have invoked : Steps t (x, s) (x, (s.invoke t).2) := invoke_steps
  have less : Shrinks s (s.invoke t).2 := Shrinks.invoke
  refine ReflTransGen.trans ?_ stopIfDrained_steps
  split
  · exact invoked
  · split
    case h_1 i _ =>
      refine invoked.trans (.head (.clear i) (fails ?_ (less.length.trans enough)))
      rw [ledger_clear]
      exact Steps.sound invoked sound
    case h_2 => exact invoked

theorem failAll_finishWithin_steps (rounds : Nat) {error : Error} (sound : s.ledger.Sound)
    (enough : s.requests.length ≤ rounds) :
    Steps t ({ x with closing := i :: x.closing }, s)
      (x, failAll (finishWithin t rounds) i error s) := by
  -- on the rounds: `Finish` calls `Disconnect` with one round less
  induction rounds generalizing x s i error with
  | zero => exact failAll_steps (fun _ _ _ _ _ _ _ => .refl) sound enough
  | succ rounds ih =>
    refine failAll_steps (fun s sound enough id ref found slot => ?_) sound enough
    rw [finishWithin_found found]
    have first : Step t ({ x with closing := i :: x.closing }, s)
        ({ x with closing := i :: x.closing }, (s.release id ref).record ref (.error error)) :=
      .fail found slot List.mem_cons_self
    have fewer := (length_release found (.error error)).trans_le enough
    exact .head first
      (settle_steps ih (Steps.sound (.single first) sound) (Nat.le_of_lt_succ fewer) ref)

theorem failing_steps {error : Error} (sound : s.ledger.Sound) :
    Steps t ({ x with closing := i :: x.closing }, s)
      (x, failAll (finishWithin t s.requests.length) i error s) :=
  failAll_finishWithin_steps _ sound le_rfl

theorem disconnect_steps (i : Nat) (error : Error) (sound : s.ledger.Sound) :
    Steps t (x, s) (x, s.disconnect t i error) := by
  have cleared : (s.clear i).ledger.Sound := (ledger_clear i).symm ▸ sound
  exact .head (.clear i) (failing_steps cleared)

/-- `Finish` once the first step says why the request is finished. -/
theorem finish_steps {s₀ : State} {outcome : Outcome} (sound : s.ledger.Sound)
    (found : s.requests.lookup id = some ref)
    (first : Step t (x, s₀) (x, (s.release id ref).record ref outcome)) :
    Steps t (x, s₀) (x, s.finish t id outcome) := by
  have fewer := length_release found outcome
  obtain ⟨rounds, length⟩ : ∃ rounds, s.requests.length = rounds + 1 :=
    Nat.exists_eq_succ_of_ne_zero (by omega)
  rw [finish, length, finishWithin_found found]
  refine .head first (settle_steps (failAll_finishWithin_steps rounds) ?_ (by omega) ref)
  rw [ledger_finish]
  exact sound.finish found

theorem disconnect_removes {error : Error} (sound : s.ledger.Sound)
    (found : s.requests.lookup id = some ref) (slot : (s.heap ref).slot = some i) :
    (s.disconnect t i error).requests.lookup id = none := by
  rw [Assoc.lookup_eq_none]
  intro p mem same
  refine failAll_removes (s := s.clear i) le_rfl p mem ?_
  have less := Shrinks.disconnectWith (s := s) (Shrinks.finishWithin (t := t) s.requests.length)
    i error
  have entry := sound.entry_unique (less.requests p mem) (Assoc.mem_of_lookup found) same
  rw [entry]
  exact slot

theorem finish_removes {outcome : Outcome} :
    (s.finish t id outcome).requests.lookup id = none :=
  Assoc.lookup_eq_none.mpr (finishWithin_removes le_rfl id outcome)

theorem andThen_steps {f : State → State}
    (steps : (s.sockets i).fd = true → Steps t (x, s) (x, f s)) :
    Steps t (x, s) (x, s.andThen i f) := by
  unfold State.andThen
  split
  case isTrue open_ => exact steps open_
  case isFalse => exact .refl

theorem sendLoop_steps (outcomes : List SendOutcome) (budget : Nat) (sound : s.ledger.Sound)
    (open_ : (s.sockets i).fd = true) : Steps t (x, s) (x, (sendLoop t i outcomes budget s).2) := by
  induction outcomes generalizing budget s with
  | nil => exact .single (.env _)
  | cons outcome outcomes ih =>
    have given : ∀ error, Steps t (x, s) (x, (s.setSends outcomes).disconnect t i error) :=
      fun error => .head (.env _) (disconnect_steps i error sound)
    unfold sendLoop
    split
    case h_1 => exact .single (.env _)
    case h_2 ref rest front =>
      split
      case isTrue => exact .single (.env _)
      case isFalse =>
        cases outcome with
        | wrote n =>
          dsimp only
          split
          case isTrue => exact given _
          case isFalse some_ =>
            have first : Step t (x, s) (x, s.wrote i ref rest
                (min n (min budget (usub (s.heap ref).bytes.length (s.sockets i).sent)))) :=
              .wrote open_ front (Nat.pos_of_ne_zero some_)
                ((min_le_right _ _).trans (min_le_right _ _))
            refine .head first (ih _ (Steps.sound (.single first) sound) ?_)
            unfold wrote
            split <;> simpa [setSocket] using open_
        | interrupted => exact ih budget sound open_
        | wouldBlock => exact .single (.env _)
        | failed => exact given _

theorem frameLoop_steps (rounds : Nat) (sound : s.ledger.Sound)
    (open_ : (s.sockets i).fd = true) : Steps t (x, s) (x, (frameLoop t i rounds s).2) := by
  induction rounds generalizing s with
  | zero => exact .refl
  | succ rounds ih =>
    unfold frameLoop
    split
    case isTrue => exact .refl
    case isFalse nonempty =>
    split
    case h_1 framing => exact .single (.refuse open_ (.framing nonempty framing))
    case h_2 size framing =>
    split
    case isTrue large => exact .single (.refuse open_ (.tooLarge nonempty framing large))
    case isFalse within =>
    split
    case isTrue => exact .refl
    case isFalse whole =>
    obtain ⟨positive, whole⟩ := not_or.mp whole
    split
    case h_1 error => exact .single (.refuse open_ (.noId framing positive (not_lt.mp whole) error))
    case h_2 id identified =>
    have cuts : s.Cuts t i size id ((s.sockets i).input.copy size) :=
      ⟨nonempty, framing, not_lt.mp within, positive, not_lt.mp whole, rfl, identified⟩
    split
    case isTrue late =>
      have first : Step t (x, s) (x, s.drop i size id ((s.sockets i).input.copy size)) :=
        .drop open_ cuts late.1 late.2
      refine .head first (ih (Steps.sound (.single first) sound) ?_)
      simpa [drop, note] using open_
    case isFalse known =>
    split
    case h_1 absent =>
      exact .single (.refuse open_ (.unknown cuts known fun ref found => by simp [absent] at found))
    case h_2 ref found =>
    split
    case isTrue slot =>
      have done := finish_steps (s := s.take t i size ref ((s.sockets i).input.copy size)) sound
        found (.deliver (x := x) open_ cuts known found slot)
      unfold frameLoop.andThen
      split
      case isTrue still => exact done.trans (ih (Steps.sound done sound) still)
      case isFalse => exact done
    case isFalse other =>
      refine .single (.refuse open_ (.unknown cuts known fun ref' found' slot => other ?_))
      rw [found, Option.some.injEq] at found'
      exact found' ▸ slot

theorem receive_steps (bytes : Bytes) (sound : s.ledger.Sound) (open_ : (s.sockets i).fd = true) :
    Steps t (x, s) (x, (receive t i bytes s).2) := by
  have first : Step t (x, s) (x, s.received i bytes) := .received open_ bytes
  refine .head first (frameLoop_steps _ (Steps.sound (.single first) sound) ?_)
  simpa [received] using open_

theorem receiveLoop_steps (outcomes : List ReceiveOutcome) (budget : Nat)
    (sound : s.ledger.Sound) (open_ : (s.sockets i).fd = true) :
    Steps t (x, s) (x, (receiveLoop t i outcomes budget s).2) := by
  induction outcomes generalizing budget s with
  | nil => exact .single (.env _)
  | cons outcome outcomes ih =>
    have given : ∀ error, Steps t (x, s) (x, (s.setReceives outcomes).disconnect t i error) :=
      fun error => .head (.env _) (disconnect_steps i error sound)
    unfold receiveLoop
    split
    case isTrue => exact .single (.env _)
    case isFalse =>
      cases outcome with
      | data bytes =>
        have taken : Steps t (x, s) (x, (receive t i (bytes.take (min 16384 budget)) s).2) :=
          receive_steps _ sound open_
        dsimp only
        split_ifs with empty thrown still
        · exact given _
        · exact (taken.tail (.env _)).trans (disconnect_steps i _ (Steps.sound taken sound))
        · exact taken.trans (ih _ (Steps.sound taken sound) still)
        · exact taken.tail (.env _)
      | interrupted => exact ih budget sound open_
      | wouldBlock => exact .single (.env _)
      | failed => exact given _

theorem check_steps (sound : s.ledger.Sound) : Steps t (x, s) (x, (check t i s).2) := by
  unfold State.check
  split
  case isTrue =>
    split
    case h_1 => exact .refl
    case h_2 => exact .head (.env _) (disconnect_steps i _ sound)
    case h_3 => exact .single (.env _)
    case h_4 => exact .head (.env _) (.single (.established i))
  case isFalse => exact .refl

theorem sendPhase_steps (sound : s.ledger.Sound) (open_ : (s.sockets i).fd = true) :
    Steps t (x, s) (x, s.sendPhase t i) := by
  have sent := sendLoop_steps (t := t) (x := x) s.env.sends (256 * 1024) sound open_
  unfold State.sendPhase
  split
  · exact sent.tail (.schedule i)
  · exact sent

theorem receivePhase_steps (sound : s.ledger.Sound) (open_ : (s.sockets i).fd = true) :
    Steps t (x, s) (x, s.receivePhase t i) := by
  have taken := receiveLoop_steps (t := t) (x := x) s.env.receives (256 * 1024) sound open_
  refine taken.trans (andThen_steps fun _ => ?_)
  split
  · exact .head (.schedule i) (.single (.modify i))
  · exact .single (.modify i)

theorem check_fd (goes : (check t i s).1 = true) :
    ((check t i s).2.sockets i).fd = (s.sockets i).fd := by
  unfold State.check at goes ⊢
  split at goes
  case isTrue => split at goes <;> simp_all [established, setSocket]
  case isFalse connected => simp [connected]

theorem pump_steps (sound : s.ledger.Sound) : Steps t (x, s) (x, s.pump t i) := by
  refine andThen_steps fun open_ => ?_
  have checked : Steps t (x, s) (x, (check t i s).2) := check_steps sound
  split
  case isTrue goes =>
    have sent := sendPhase_steps (x := x) (t := t) (Steps.sound checked sound)
      ((check_fd goes).trans open_)
    refine checked.trans (sent.trans (andThen_steps fun still => ?_))
    exact receivePhase_steps (Steps.sound sent (Steps.sound checked sound)) still
  case isFalse => exact checked

/-- A request is assigned to a connection that is not open. -/
theorem assign_connect_steps {rest : List Nat} (idle : x.closing = []) (sound : s.ledger.Sound)
    (valid : i < t.connections) (head : s.waiting = ref :: rest)
    (known : (s.requests.lookup (s.heap ref).id).isSome)
    (room : (s.sockets i).inflight + (s.sockets i).retired.length < t.limit)
    (closed : (s.sockets i).fd = false) :
    Steps t (x, s) (x, (s.assign t i ref rest).connect t i) := by
  -- what `connect` returns is taken before the assignment
  refine .head (.env { s.env with connects := s.env.connects.tail }) ?_
  have refused : ∀ (made : Bool) (error : Error), Steps t (x, s.nextConnect)
      (x, (if made then (s.nextConnect.assign t i ref rest).socketMade i
        else s.nextConnect.assign t i ref rest).disconnect t i error) := by
    intro made error
    have first : Step t (x, s.nextConnect) ({ x with closing := i :: x.closing },
        (if made then (s.nextConnect.assign t i ref rest).socketMade i
          else s.nextConnect.assign t i ref rest).clear i) := .refused valid head known room closed
    exact .head first (failing_steps (Steps.sound (.single first) sound))
  unfold State.connect
  split
  · exact refused false _
  · exact refused true _
  · exact .single (.connect idle valid head known room closed)
  · exact .single (.connect idle valid head known room closed)

theorem dispatchTo_steps (rounds : Nat) (idle : x.closing = []) (valid : i < t.connections)
    (sound : s.ledger.Sound) : Steps t (x, s) (x, dispatchTo t i rounds s) := by
  induction rounds generalizing s with
  | zero => exact .refl
  | succ rounds ih =>
    unfold dispatchTo
    split
    case h_1 => exact .refl
    case h_2 ref rest head =>
    split_ifs with room known open_
    · have first : Step t (x, s) (x, s.assign t i ref rest) := .assign valid head known room open_
      have sound' := Steps.sound (.single first) sound
      have pumped : Steps t (x, s.assign t i ref rest) (x, (s.assign t i ref rest).pump t i) :=
        pump_steps sound'
      exact .head first (pumped.trans (ih (Steps.sound pumped sound')))
    · have first := assign_connect_steps (x := x) idle sound valid head known room
        (by simpa using open_)
      have sound' := Steps.sound first sound
      have pumped : Steps t (x, (s.assign t i ref rest).connect t i)
        (x, ((s.assign t i ref rest).connect t i).pump t i) := pump_steps sound'
      exact first.trans (pumped.trans (ih (Steps.sound pumped sound')))
    · have first : Step t (x, s) (x, { s with waiting := rest }) :=
        .skip head (Option.not_isSome_iff_eq_none.mp known)
      exact .head first (ih (Steps.sound (.single first) sound))
    · exact .refl

theorem dispatch_steps (idle : x.closing = []) (sound : s.ledger.Sound) :
    Steps t (x, s) (x, s.dispatch t) := by
  have valid : ∀ i ∈ List.range t.connections, i < t.connections := fun i mem =>
    List.mem_range.mp mem
  unfold State.dispatch
  generalize List.range t.connections = slots at valid ⊢
  induction slots generalizing s with
  | nil => exact .refl
  | cons i rest ih =>
    have first : Steps t (x, s) (x, dispatchTo t i s.waiting.length s) :=
      dispatchTo_steps _ idle (valid i List.mem_cons_self) sound
    exact first.trans (ih (Steps.sound first sound) fun j mem =>
      valid j (List.mem_cons_of_mem _ mem))

/-- What a callback does before it calls `Dispatch`. -/
theorem Steps.dispatch (steps : Steps t (x, s) (x', s')) (idle : x'.closing = [])
    (sound : s.ledger.Sound) : Steps t (x, s) (x', s'.dispatch t) :=
  ReflTransGen.trans steps (dispatch_steps idle (Steps.sound steps sound))

/-- The callback of a deadline sees to it that the request is gone. -/
theorem deadline_steps {timer : Nat} (idle : x.firing = none) (quiet : x.closing = [])
    (sound : s.ledger.Sound)
    (live : s.loop.timers.lookup timer = some (.deadline id)) :
    Steps t (x, s) (x, { s with loop := s.loop.cancel timer }.deadline t id) := by
  have first : Step t (x, s)
      ({ x with firing := some id }, { s with loop := s.loop.cancel timer }) := .fire idle live
  have back : ∀ s' : State, s'.requests.lookup id = none →
      Step t ({ x with firing := some id }, s') (x, s') := by
    intro s' gone
    have last : Step t ({ x with firing := some id }, s') ({ x with firing := none }, s') :=
      .fired gone rfl
    rwa [← idle] at last
  have ends : ∀ s' : State, s'.requests.lookup id = none →
      Steps t ({ x with firing := some id }, { s with loop := s.loop.cancel timer })
        ({ x with firing := some id }, s') → Steps t (x, s) (x, s'.dispatch t) := by
    intro s' gone steps
    exact Steps.dispatch (.head first (steps.tail (back s' gone))) quiet sound
  unfold State.deadline
  split
  case h_1 gone => exact .head first (.single (back _ gone))
  case h_2 ref found =>
    split
    case h_1 slot =>
      exact ends _ finish_removes
        (finish_steps (s := { s with loop := s.loop.cancel timer }) sound found
          (.expire found slot))
    case h_2 i slot =>
      split
      case isTrue late =>
        exact ends _ finish_removes
          (finish_steps (s := { s with loop := s.loop.cancel timer }.retire i id) sound found
            (.retire found slot late.1 late.2))
      case isFalse =>
        exact ends _ (disconnect_removes sound found slot) (disconnect_steps i _ sound)

/-- **Decomposition.** Every event is a sequence of steps that begins and ends between
callbacks. -/
theorem step_steps {e : Event} (sound : s.ledger.Sound) (h : step t s e = some s') :
    Steps t ({}, s) ({}, s') := by
  cases e with
  | call c =>
    obtain rfl := Option.some.inj h
    exact call_steps c
  | task env =>
    simp only [step] at h
    split at h
    case h_1 => cases h
    case h_2 task rest head =>
      obtain rfl := Option.some.inj h
      refine .head (.env env) ?_
      cases task with
      | accept ref => exact Steps.dispatch (.single (.enroll head)) rfl sound
      | pump i =>
        have first : Step t ({}, { s with env := env })
            ({}, ({ s with env := env }.setTasks rest).unschedule i) := .resume head
        have pumped := pump_steps (t := t) (x := {}) (i := i) (Steps.sound (.single first) sound)
        exact Steps.dispatch (.head first pumped) rfl sound
      | drain => exact .head (.drain head) stopIfDrained_steps
  | ready token env =>
    simp only [step] at h
    split at h
    case h_1 => cases h
    case h_2 watch _ =>
      obtain rfl := Option.some.inj h
      exact .head (.env env) (Steps.dispatch (pump_steps sound) rfl sound)
  | timer id env =>
    simp only [step] at h
    split at h
    case h_1 => cases h
    case h_2 timer live =>
      obtain rfl := Option.some.inj h
      refine .head (.env env) ?_
      cases timer with
      | deadline id => exact deadline_steps rfl rfl sound live
      | connect i =>
        exact Steps.dispatch (.head (.fireConnect live) (disconnect_steps i _ sound)) rfl sound
  | destroy =>
    simp only [step] at h
    split at h
    case isTrue may =>
      obtain rfl := Option.some.inj h
      exact .single (.destroy may.1 may.2)
    case isFalse => cases h

theorem sound_init : ({} : State).ledger.Sound where
  below := by simp [ledger]
  once := List.nodup_nil
  completedOnce := List.nodup_nil
  keys := List.nodup_nil
  ids := by simp [ledger]
  enrolled := by simp [ledger]
  queued := by simp [ledger]
  waiting := by simp [ledger]
  coming := by simp [ledger, coming, admits]
  line := List.nodup_nil

/-- A run is a sequence of steps from the state after construction. -/
theorem runs_steps {trace : List (State × Event)} (run : Runs t trace s) :
    Steps t ({}, {}) ({}, s) := by
  induction run with
  | nil => exact .refl
  | snoc _ _ next ih => exact ReflTransGen.trans ih (step_steps (Steps.sound ih sound_init) next)

/-- What every step keeps holds after every sequence of steps, also inside a callback. -/
theorem Steps.invariant (steps : Steps t ({}, {}) (x, s)) (Inv : Phase → State → Prop)
    (base : Inv {} {})
    (next : ∀ {x s x' s'}, s.ledger.Sound → Inv x s → Step t (x, s) (x', s') → Inv x' s') :
    Inv x s := by
  suffices ∀ q, Steps t ({}, {}) q → Inv q.1 q.2 from this _ steps
  intro q steps
  induction steps with
  | refl => exact base
  | tail before last ih => exact next (Steps.sound before sound_init) ih last

/-- **Invariant rule.** What every step keeps holds after every run. -/
theorem runs_invariant {trace : List (State × Event)} (run : Runs t trace s)
    (Inv : Phase → State → Prop) (base : Inv {} {})
    (next : ∀ {x s x' s'}, s.ledger.Sound → Inv x s → Step t (x, s) (x', s') → Inv x' s') :
    Inv {} s :=
  (runs_steps run).invariant Inv base next

end KVRPC.Client
