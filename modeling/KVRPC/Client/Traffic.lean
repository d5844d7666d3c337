import KVRPC.Client.Peer
import KVRPC.Client.Placement

/-!
# What passes over the connections

`Transfer` says once what a step of the transport does to the outputs of its connections and to
what passes over them. A request is put in one output, once, so it is sent at most once and over
one connection, however often connections fail, deadlines pass and requests are finished.
-/
namespace KVRPC.Client

open Library Net Library.Framing State
open scoped List

variable {ε : Type} {t : AsyncTransport ε} {idOf : Nat → Nat} {x x' : Phase} {s s' : State}
  {i j r ref id : Nat}

/-! ## A wire -/

def Wire.sent? : Wire → Option Nat
  | .sent ref => some ref
  | .received _ => none

def Wire.octets : Wire → Bytes
  | .sent _ => []
  | .received bytes => bytes

/-- The requests sent completely, in order. -/
def sents (wire : List Wire) : List Nat := wire.filterMap Wire.sent?

/-- The octets received. -/
def octets (wire : List Wire) : Bytes := (wire.map Wire.octets).flatten

@[simp] theorem sents_sent (wire : List Wire) (ref : Nat) :
    sents (wire ++ [.sent ref]) = sents wire ++ [ref] := by
  simp [sents, Wire.sent?]

@[simp] theorem sents_received (wire : List Wire) (bytes : Bytes) :
    sents (wire ++ [.received bytes]) = sents wire := by
  simp [sents, Wire.sent?]

@[simp] theorem octets_sent (wire : List Wire) (ref : Nat) :
    octets (wire ++ [.sent ref]) = octets wire := by
  simp [octets, Wire.octets]

@[simp] theorem octets_received (wire : List Wire) (bytes : Bytes) :
    octets (wire ++ [.received bytes]) = octets wire ++ bytes := by
  simp [octets, Wire.octets]

/-- The server has answered the requests sent, or has yet to. -/
theorem WellBehaved.requests {wire : List Wire} {peer : Peer} (h : WellBehaved t idOf wire peer) :
    peer.answers.map Prod.fst ++ peer.pending ~ sents wire := by
  induction h with
  | start => exact .nil
  | @request wire peer ref _ ih =>
    rw [sents_sent, Peer.request, ← List.append_assoc]
    exact ih.append_right _
  | @answer wire peer ref bytes _ asked _ ih =>
    refine List.Perm.trans ?_ ih
    simp only [Peer.answer, List.map_append, List.map_cons, List.map_nil, List.append_assoc]
    exact (List.perm_cons_erase asked).symm.append_left _
  | read _ _ ih =>
    rw [sents_received]
    exact ih

/-- What has been received and what has not are the answers, one behind the other. -/
theorem WellBehaved.stream {wire : List Wire} {peer : Peer} (h : WellBehaved t idOf wire peer) :
    octets wire ++ peer.unread = (peer.answers.map Prod.snd).flatten := by
  induction h with
  | start => rfl
  | request ref _ ih =>
    rw [octets_sent]
    exact ih
  | answer _ _ _ ih =>
    simp only [Peer.answer, List.map_append, List.flatten_append, ← List.append_assoc, ih]
    simp
  | read _ unread ih =>
    rw [unread] at ih
    rw [octets_received, List.append_assoc]
    exact ih

/-- A server that has answered nothing explains a session over which nothing has arrived. -/
theorem WellBehaved.silent {wire : List Wire} (none : octets wire = []) :
    WellBehaved t idOf wire { pending := sents wire } := by
  induction wire using List.reverseRecOn with
  | nil => exact .start
  | append_singleton wire last ih =>
    cases last with
    | sent ref =>
      rw [octets_sent] at none
      rw [sents_sent]
      exact (ih none).request ref
    | received bytes =>
      rw [octets_received, List.append_eq_nil_iff] at none
      rw [sents_received, none.2]
      exact (ih none.1).read rfl

/-! ## Steps -/

/-- The octets of a request are fixed when it is submitted. -/
theorem Step.bytes (step : Step t (x, s) (x', s')) (old : r < s.submitted) :
    (s'.heap r).bytes = (s.heap r).bytes := by
  have assigned : ∀ i ref rest, ((s.assign t i ref rest).heap r).bytes = (s.heap r).bytes :=
    fun i ref rest => update_field Request.bytes (by rfl) r
  cases step with
  | reject _ => exact congrArg _ (Function.update_of_ne old.ne _ _)
  | accept _ => exact congrArg _ (Function.update_of_ne old.ne _ _)
  | enroll _ => exact update_field Request.bytes (by rfl) r
  | refuse _ refuses =>
    cases refuses with
    | _ => rfl
  | assign => exact assigned _ _ _
  | @connect _ _ i ref rest connecting _ _ _ _ _ _ =>
    cases connecting with
    | _ => exact assigned i ref rest
  | @refused _ _ i ref rest made _ _ _ _ _ =>
    cases made with
    | _ => exact assigned i ref rest
  | wrote =>
    unfold State.wrote
    split
    · exact update_field Request.bytes (by rfl) r
    · rfl
  | schedule i =>
    unfold State.schedule
    split <;> rfl
  | _ => rfl

/-- A request stays on the connection it was assigned to. -/
theorem Ledger.Step.slot {l l' : Ledger} (h : l.Sound) (step : l.Step l') (old : r < l.submitted)
    (assigned : l.slot r = some i) : l'.slot r = some i := by
  have opened : Function.update l.slot l.submitted none r = some i := by
    rw [Function.update_of_ne old.ne]
    exact assigned
  cases step with
  | reject id size => exact opened
  | accept id size _ => exact opened
  | @assign ref rest j head =>
    have other : r ≠ ref := by
      rintro rfl
      have free := (h.waiting r (head ▸ List.mem_cons_self)).2
      rw [free] at assigned
      cases assigned
    exact (Function.update_of_ne other _ _).trans assigned
  | _ => exact assigned

theorem Step.slot (sound : s.ledger.Sound) (step : Step t (x, s) (x', s')) (old : r < s.submitted)
    (assigned : (s.heap r).slot = some i) : (s'.heap r).slot = some i := by
  obtain same | moves := step.ledger
  · have slot : (s'.heap r).slot = (s.heap r).slot := congrFun (congrArg Ledger.slot same) r
    exact slot.trans assigned
  · exact moves.slot sound old assigned

/-- What has been admitted stays admitted, under its identifier. -/
theorem Step.accepted (sound : s.ledger.Sound) (step : Step t (x, s) (x', s'))
    (mem : r ∈ s.accepted) : r ∈ s'.accepted ∧ (s'.heap r).id = (s.heap r).id := by
  obtain same | moves := step.ledger
  · have accepted : s'.accepted = s.accepted := congrArg Ledger.accepted same
    exact ⟨accepted ▸ mem, congrFun (congrArg Ledger.id same) r⟩
  · exact moves.accepted sound mem

/-- What a step does to the outputs and wires. -/
inductive Transfer (s s' : State) : Prop
  | quiet (wire : s'.wire = s.wire)
      (output : ∀ i, (s'.sockets i).output <+ (s.sockets i).output)
  | assigned (i ref : Nat) (waits : ref ∈ s.waiting) (wire : s'.wire = s.wire)
      (slot : (s'.heap ref).slot = some i)
      (output : ∀ j, (s'.sockets j).output <+ (s.sockets j).output ++ if j = i then [ref] else [])
  | sent (i ref : Nat) {rest : List Nat} (open_ : (s.sockets i).fd = true)
      (front : (s.sockets i).output = ref :: rest)
      (wire : s'.wire = Function.update s.wire (s.sockets i).token
        (s.wire (s.sockets i).token ++ [.sent ref]))
      (output : ∀ j, (s'.sockets j).output = if j = i then rest else (s.sockets j).output)
  | received (i : Nat) (bytes : Bytes) (open_ : (s.sockets i).fd = true)
      (wire : s'.wire = Function.update s.wire (s.sockets i).token
        (s.wire (s.sockets i).token ++ [.received bytes]))
      (output : ∀ j, (s'.sockets j).output = (s.sockets j).output)

namespace Transfer

/-- No connection has anything new to send. -/
theorem of_update {c : Connection} (sockets : s'.sockets = Function.update s.sockets i c)
    (output : c.output <+ (s.sockets i).output) (wire : s'.wire = s.wire) : Transfer s s' := by
  refine .quiet wire fun j => ?_
  rw [sockets]
  by_cases here : j = i
  · rw [here, Function.update_self]
    exact output
  · rw [Function.update_of_ne here]

theorem of_eq (sockets : s'.sockets = s.sockets) (wire : s'.wire = s.wire) : Transfer s s' :=
  .quiet wire fun i => by rw [sockets]

/-- A request is finished. -/
theorem release (s₁ : State) {outcome : Outcome} (quiet : s₁.wire = s.wire)
    (output : ∀ i, (s₁.sockets i).output = (s.sockets i).output) :
    Transfer s ((s₁.release id ref).record ref outcome) := by
  refine .quiet quiet fun i => ?_
  have same := release_field Connection.output (fun _ _ => rfl) s₁ id ref i
  change ((s₁.release id ref).sockets i).output <+ _
  rw [same, output]

end Transfer

theorem Step.transfer (step : Step t (x, s) (x', s')) : Transfer s s' := by
  cases step with
  | resume _ => exact .of_update rfl (.refl _) rfl
  | expire _ _ => exact .release s rfl fun _ => rfl
  | @retire _ _ id ref i _ _ _ _ =>
    exact .release (s.retire i id) rfl (update_field Connection.output (by rfl))
  | fail _ _ _ => exact .release s rfl fun _ => rfl
  | @deliver _ _ i size id ref response _ _ _ _ _ =>
    exact .release (s.take t i size ref response) rfl
      (update_field Connection.output (by rfl))
  | drop _ _ _ _ => exact .of_update rfl (.refl _) rfl
  | refuse _ refuses =>
    cases refuses with
    | framing _ _ => exact .of_eq rfl rfl
    | tooLarge _ _ _ => exact .of_eq rfl rfl
    | noId _ _ _ _ => exact .of_update rfl (.refl _) rfl
    | unknown _ _ _ => exact .of_update rfl (.refl _) rfl
  | clear i => exact .of_update rfl (List.nil_sublist _) rfl
  | @assign _ _ i ref rest _ head _ _ _ =>
    refine .assigned i ref (head ▸ List.mem_cons_self) rfl (by simp [State.assign]) fun j => ?_
    by_cases here : j = i
    · simp [State.assign, here]
    · simp [State.assign, here]
  | @connect _ _ i ref rest connecting _ _ head _ _ _ =>
    have slot : (((s.assign t i ref rest).opened i connecting).heap ref).slot = some i := by
      cases connecting <;> simp [State.assign, State.opened, State.register, State.armConnect]
    have wire : ((s.assign t i ref rest).opened i connecting).wire = s.wire := by
      cases connecting <;> rfl
    refine .assigned i ref (head ▸ List.mem_cons_self) wire slot fun j => ?_
    by_cases here : j = i
    · cases connecting <;> simp [State.assign, State.opened, State.register, State.armConnect, here]
    · cases connecting <;> simp [State.assign, State.opened, State.register, State.armConnect, here]
  | @refused _ _ i ref rest made _ head _ _ _ =>
    have slot : (((if made then (s.assign t i ref rest).socketMade i
        else s.assign t i ref rest).clear i).heap ref).slot = some i := by
      cases made <;> simp [State.assign, State.clear, State.socketMade, State.setSocket]
    have wire : ((if made then (s.assign t i ref rest).socketMade i
        else s.assign t i ref rest).clear i).wire = s.wire := by
      cases made <;> rfl
    refine .assigned i ref (head ▸ List.mem_cons_self) wire slot fun j => ?_
    by_cases here : j = i
    · simp [State.clear, here]
    · cases made <;> simp [State.assign, State.clear, State.socketMade, State.setSocket, here]
  | established i => exact .of_update rfl (.refl _) rfl
  | @wrote _ _ i ref n rest open_ front _ _ =>
    unfold State.wrote
    split
    · refine .sent i ref open_ front rfl fun j => ?_
      by_cases here : j = i
      · simp [here]
      · simp [here]
    · exact .of_update rfl (.refl _) rfl
  | received open_ bytes =>
    exact .received _ bytes open_ rfl (update_field Connection.output (by rfl))
  | schedule i =>
    unfold State.schedule
    split
    · exact .of_eq rfl rfl
    · exact .of_update rfl (.refl _) rfl
  | _ => exact .of_eq rfl rfl

/-- What has passed over a connection stays so. -/
theorem Step.wire (step : Step t (x, s) (x', s')) (token : Nat) :
    s.wire token <+: s'.wire token := by
  have grown : ∀ {i : Nat} {event : Wire}, s'.wire = Function.update s.wire (s.sockets i).token
      (s.wire (s.sockets i).token ++ [event]) → s.wire token <+: s'.wire token := by
    intro i event wire
    rw [wire]
    by_cases here : token = (s.sockets i).token
    · rw [here, Function.update_self]
      exact List.prefix_append _ _
    · rw [Function.update_of_ne here]
  cases step.transfer with
  | quiet wire _ => rw [wire]
  | assigned _ _ _ wire _ _ => rw [wire]
  | sent _ _ _ _ wire _ => exact grown wire
  | received _ _ _ wire _ => exact grown wire

theorem Step.sents (step : Step t (x, s) (x', s')) (token : Nat) :
    sents (s.wire token) <+: sents (s'.wire token) := (step.wire token).filterMap _

theorem Step.octets (step : Step t (x, s) (x', s')) (token : Nat) :
    octets (s.wire token) <+: octets (s'.wire token) := ((step.wire token).map _).flatten

/-! ## Requests are sent once -/

/-- No request is in two outputs, has been sent twice, or has been sent and is in an output. -/
structure SentOnce (s : State) : Prop where
  outputs : ∀ i, (s.sockets i).output.Nodup
  queued : ∀ i, ∀ r ∈ (s.sockets i).output, r ∈ s.accepted
  known : ∀ token, ∀ r ∈ sents (s.wire token), r ∈ s.accepted ∧ ∃ i, (s.heap r).slot = some i
  gone : ∀ token, ∀ r ∈ sents (s.wire token), ∀ i, r ∉ (s.sockets i).output
  once : ∀ token, (sents (s.wire token)).Nodup
  apart : ∀ token token' r, r ∈ sents (s.wire token) → r ∈ sents (s.wire token') → token = token'

namespace SentOnce

theorem init : SentOnce {} where
  outputs _ := .nil
  queued _ _ mem := nomatch mem
  known _ _ mem := nomatch mem
  gone _ _ mem := nomatch mem
  once _ := .nil
  apart _ _ _ mem := nomatch mem

/-- Nothing is sent, and what is new in an output has been in none. -/
theorem of_wire (h : SentOnce s) (sents_eq : ∀ token, sents (s'.wire token) = sents (s.wire token))
    (slot : ∀ r ∈ s.accepted, r ∈ s'.accepted ∧
      ∀ i, (s.heap r).slot = some i → (s'.heap r).slot = some i)
    (outputs : ∀ i, (s'.sockets i).output.Nodup)
    (queued : ∀ i, ∀ r ∈ (s'.sockets i).output, r ∈ s.accepted)
    (gone : ∀ token, ∀ r ∈ sents (s.wire token), ∀ i, r ∉ (s'.sockets i).output) :
    SentOnce s' := by
  refine ⟨outputs, fun i r mem => (slot r (queued i r mem)).1, fun token r mem => ?_,
    fun token r mem => ?_, fun token => ?_, fun token token' r mem mem' => ?_⟩
  · rw [sents_eq] at mem
    obtain ⟨old, i, assigned⟩ := h.known token r mem
    obtain ⟨later, kept⟩ := slot r old
    exact ⟨later, i, kept i assigned⟩
  · rw [sents_eq] at mem
    exact gone token r mem
  · rw [sents_eq]
    exact h.once token
  · rw [sents_eq] at mem mem'
    exact h.apart token token' r mem mem'

/-- A request leaves the front of its output. -/
theorem sends (h : SentOnce s) (slot : ∀ r ∈ s.accepted, r ∈ s'.accepted ∧
      ∀ i, (s.heap r).slot = some i → (s'.heap r).slot = some i) (placed : Placed t x s)
    {rest : List Nat} (front : (s.sockets i).output = ref :: rest)
    (wire : s'.wire = Function.update s.wire (s.sockets i).token
      (s.wire (s.sockets i).token ++ [.sent ref]))
    (output : ∀ j, (s'.sockets j).output = if j = i then rest else (s.sockets j).output) :
    SentOnce s' := by
  have first : ref ∈ (s.sockets i).output := front ▸ List.mem_cons_self
  have old := h.queued i ref first
  have own := (placed.output i ref first).2
  have distinct := h.outputs i
  rw [front, List.nodup_cons] at distinct
  have here : ∀ token, sents (s'.wire token) =
      if token = (s.sockets i).token then sents (s.wire token) ++ [ref]
      else sents (s.wire token) := by
    intro token
    rw [wire]
    split_ifs with same
    · rw [same, Function.update_self, sents_sent]
    · rw [Function.update_of_ne same]
  have unsent : ∀ token, ref ∉ sents (s.wire token) := fun token mem => h.gone token ref mem i first
  have split : ∀ token r, r ∈ sents (s'.wire token) →
      r ∈ sents (s.wire token) ∨ r = ref ∧ token = (s.sockets i).token := by
    intro token r mem
    rw [here] at mem
    split_ifs at mem with same
    · exact (List.mem_append.mp mem).imp_right fun new => ⟨List.mem_singleton.mp new, same⟩
    · exact .inl mem
  refine ⟨fun j => ?_, fun j r mem => ?_, fun token r mem => ?_, fun token r mem j still => ?_,
    fun token => ?_, fun token token' r mem mem' => ?_⟩
  · rw [output]
    split_ifs
    · exact distinct.2
    · exact h.outputs j
  · rw [output] at mem
    refine (slot r (h.queued j r ?_)).1
    split_ifs at mem with same
    · rw [same, front]
      exact List.mem_cons_of_mem _ mem
    · exact mem
  · obtain before | ⟨rfl, -⟩ := split token r mem
    · obtain ⟨known, k, assigned⟩ := h.known token r before
      obtain ⟨later, kept⟩ := slot r known
      exact ⟨later, k, kept k assigned⟩
    · obtain ⟨later, kept⟩ := slot r old
      exact ⟨later, i, kept i own⟩
  · have queued : r ∈ (s.sockets j).output ∧ (j = i → r ≠ ref) := by
      rw [output] at still
      split_ifs at still with same
      · rw [same, front]
        refine ⟨List.mem_cons_of_mem _ still, fun _ => ?_⟩
        rintro rfl
        exact distinct.1 still
      · exact ⟨still, fun same' => absurd same' same⟩
    obtain before | ⟨rfl, -⟩ := split token r mem
    · exact h.gone token r before j queued.1
    · have assigned := (placed.output j r queued.1).2
      rw [own] at assigned
      exact queued.2 (Option.some.inj assigned).symm rfl
  · rw [here]
    split_ifs
    · exact (h.once token).append (List.nodup_singleton _)
        (List.disjoint_singleton.mpr (unsent token))
    · exact h.once token
  · obtain before | ⟨rfl, same⟩ := split token r mem
    · obtain before' | ⟨rfl, -⟩ := split token' r mem'
      · exact h.apart token token' r before before'
      · exact absurd before (unsent token)
    · obtain before' | ⟨-, same'⟩ := split token' r mem'
      · exact absurd before' (unsent token')
      · rw [same, same']

theorem step (h : SentOnce s) (sound : s.ledger.Sound) (placed : Placed t x s)
    (step : Step t (x, s) (x', s')) : SentOnce s' := by
  have slot : ∀ r ∈ s.accepted, r ∈ s'.accepted ∧
      ∀ i, (s.heap r).slot = some i → (s'.heap r).slot = some i :=
    fun r mem => ⟨(step.accepted sound mem).1, fun i => step.slot sound (sound.below r (.inl mem))⟩
  cases step.transfer with
  | quiet wire output =>
    refine h.of_wire (fun token => by rw [wire]) slot (fun i => (h.outputs i).sublist (output i))
      (fun i r mem => h.queued i r ((output i).subset mem)) fun token r mem i still => ?_
    exact h.gone token r mem i ((output i).subset still)
  | assigned i ref waits wire _ output =>
    -- a request that waits has no connection, so it is nowhere yet
    obtain ⟨outstanding, free⟩ := sound.waiting ref waits
    have free : (s.heap ref).slot = none := free
    have absent : ∀ j, ref ∉ (s.sockets j).output := by
      intro j mem
      have assigned := (placed.output j ref mem).2
      rw [free] at assigned
      cases assigned
    have new : ∀ {j r}, r ∈ (s'.sockets j).output → r ∈ (s.sockets j).output ∨ r = ref := by
      intro j r mem
      refine (List.mem_append.mp ((output j).subset mem)).imp_right fun new => ?_
      split_ifs at new
      · exact List.mem_singleton.mp new
      · cases new
    refine h.of_wire (fun token => by rw [wire]) slot (fun j => ?_) (fun j r mem => ?_)
      fun token r mem j still => ?_
    · refine List.Nodup.sublist (output j) ?_
      split_ifs
      · exact (h.outputs j).append (List.nodup_singleton _) (List.disjoint_singleton.mpr (absent j))
      · rw [List.append_nil]
        exact h.outputs j
    · obtain old | rfl := new mem
      · exact h.queued j r old
      · exact (Ledger.mem_outstanding.mp outstanding).1
    · obtain old | rfl := new still
      · exact h.gone token r mem j old
      · obtain ⟨-, k, assigned⟩ := h.known token r mem
        rw [free] at assigned
        cases assigned
  | @sent i ref rest open_ front wire output =>
    exact h.sends slot placed front wire output
  | received i bytes _ wire output =>
    refine h.of_wire (fun token => ?_) slot (fun j => ?_) (fun j r mem => ?_)
      fun token r mem j => ?_
    · rw [wire]
      by_cases here : token = (s.sockets i).token
      · rw [here, Function.update_self, sents_received]
      · rw [Function.update_of_ne here]
    · rw [output]
      exact h.outputs j
    · rw [output] at mem
      exact h.queued j r mem
    · rw [output]
      exact h.gone token r mem j

end SentOnce
end KVRPC.Client
