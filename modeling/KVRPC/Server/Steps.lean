import KVRPC.Server.Connection
import Mathlib.Logic.Relation

/-!
# What `Pump` can do

`Move` lists the changes a call of `Pump` is made of, each with the conditions the code has
checked when it makes it. A call is a sequence of moves (`pump_moves`), so an invariant that
every move keeps survives every call, whatever the sockets do and wherever the loops stop.
-/
namespace KVRPC.Server

open Library Net Relation

variable {ε : Type} {t : TcpServer ε} {c : Nat} {v w : View}

namespace View

/-- The input holds something the handler has not seen, and there is room for its job. -/
structure Offers (t : TcpServer ε) (v : View) : Prop where
  nonempty : v.conn.peer.input.size ≠ 0
  fresh : v.conn.peer.incomplete = false
  ready : v.ready t = true

/-- A job of `size` octets stands at the front of the input. -/
structure Cuts (t : TcpServer ε) (v : View) (size : Nat) : Prop where
  offers : v.Offers t
  frameSize : v.frameSize t = some size
  positive : size ≠ 0
  whole : size ≤ v.conn.peer.input.size

/-- The job `frameLoop` submits. -/
def cutInput (v : View) (size : Nat) : Bytes := v.conn.peer.input.copy size

/-- What is known when the connection is closed, other than by a rejected job. -/
def MayClose (t : TcpServer ε) (v : View) : CloseReason → Prop
  | .framing => v.Offers t ∧ v.frameSize t = none
  | .endOfStream => v.conn.peer.eof = true ∧ v.conn.peer.pending = 0 ∧ v.conn.peer.output = []
  | .rejected => False
  | _ => True

/-- The job has been put in the queue. -/
def accept (t : TcpServer ε) (c : Nat) (v : View) (size : Nat) : View :=
  { v.offer t size with
    queue := v.queue.enqueue (v.cutInput size) ⟨c, size, t.sizer.isSome⟩ }

/-- The queue has no room and the connection is given up. -/
def reject (t : TcpServer ε) (v : View) (size : Nat) : View :=
  ({ v.offer t size with stats.rejected := v.stats.rejected + 1 } : View).close .rejected

inductive Move (t : TcpServer ε) (c : Nat) (v : View) : View → Prop
  | wrote {bytes : Bytes} {rest : List Bytes} {n : Nat}
      (front : v.conn.peer.output = bytes :: rest) (positive : 0 < n)
      (fits : n ≤ usub bytes.length v.conn.peer.sent) : Move t c v (v.wrote c bytes rest n)
  | received {bytes : Bytes} (begun : v.conn.peer.eof = false) (ready : v.ready t = true)
      (nonempty : bytes ≠ []) (space : v.conn.peer.input.size < t.maxFrameBytes)
      (fits : bytes.length ≤ usub t.maxFrameBytes v.conn.peer.input.size) :
      Move t c v (v.received bytes)
  | ended (begun : v.conn.peer.eof = false) (ready : v.ready t = true) :
      Move t c v { v with conn.peer.eof := true }
  | accepted {size : Nat} (cuts : v.Cuts t size) (room : ¬ v.queue.Full t (v.cutInput size)) :
      Move t c v (v.accept t c size)
  | rejected {size : Nat} (cuts : v.Cuts t size) (full : v.queue.Full t (v.cutInput size)) :
      Move t c v (v.reject t size)
  | closed {reason : CloseReason} (may : v.MayClose t reason) : Move t c v (v.close reason)
  | scheduled : Move t c v (v.schedule c)
  | interest (interest : Interest) : Move t c v (v.modify interest)

/-- A sequence of moves, made while the connection is open. -/
abbrev Moves (t : TcpServer ε) (c : Nat) : View → View → Prop :=
  ReflTransGen fun v w => v.conn.peer.closed = false ∧ Move t c v w

theorem Move.moves (alive : v.conn.peer.closed = false) (h : Move t c v w) : Moves t c v w :=
  .single ⟨alive, h⟩

theorem Moves.andThen {f : View → View} (h : Moves t c v w)
    (next : w.conn.peer.closed = false → Moves t c w (f w)) : Moves t c v (w.andThen f) := by
  unfold View.andThen
  split
  case isTrue => exact h
  case isFalse alive => exact h.trans (next (by simpa using alive))

theorem schedule_moves (v : View) : Moves t c v (v.schedule c) := by
  cases alive : v.conn.peer.closed with
  | false => exact Move.scheduled.moves alive
  | true =>
    rw [View.schedule, if_pos (.inr alive)]

@[simp] theorem closed_wrote {bytes : Bytes} {rest : List Bytes} {n : Nat} :
    (v.wrote c bytes rest n).conn.peer.closed = v.conn.peer.closed := by
  unfold View.wrote
  split <;> rfl

@[simp] theorem closed_close {reason : CloseReason} :
    (v.close reason).conn.peer.closed = true := by
  unfold View.close
  split
  case isTrue gone => exact gone
  case isFalse => rfl

@[simp] theorem input_close {reason : CloseReason} :
    (v.close reason).conn.peer.input = v.conn.peer.input := by
  unfold View.close
  split <;> rfl

theorem conn_close {reason : CloseReason} (alive : v.conn.peer.closed = false) :
    (v.close reason).conn =
      { v.conn with peer.closed := true, closedBy := some reason } := by
  rw [View.close, if_neg (by simp [alive])]

theorem sendLoop_moves (outcomes : List SendOutcome) (budget : Nat)
    (alive : v.conn.peer.closed = false) :
    Moves t c v (sendLoop c outcomes budget v).2 := by
  induction outcomes generalizing v budget with
  | nil => exact .refl
  | cons outcome outcomes ih =>
    unfold sendLoop
    have failed : Move t c v (v.close .sendFailed) := .closed trivial
    split
    case h_1 => exact .refl
    case h_2 bytes rest front =>
      split
      case isTrue => exact .refl
      case isFalse =>
        cases outcome with
        | wrote n =>
          dsimp only
          split
          case isTrue => exact failed.moves alive
          case isFalse some_sent =>
            have sent : Move t c v (v.wrote c bytes rest _) :=
              .wrote front (Nat.pos_of_ne_zero some_sent) (by omega)
            exact (sent.moves alive).trans (ih _ (by simpa using alive))
        | interrupted => exact ih budget alive
        | wouldBlock => exact .refl
        | failed => exact failed.moves alive

theorem receiveLoop_moves (outcomes : List ReceiveOutcome) (budget : Nat) {canRead : Bool}
    (alive : v.conn.peer.closed = false) (ready : canRead = true → v.ready t = true) :
    Moves t c v (receiveLoop t canRead outcomes budget v).2 := by
  induction outcomes generalizing v budget with
  | nil => exact .refl
  | cons outcome outcomes ih =>
    unfold receiveLoop
    split
    case isFalse => exact .refl
    case isTrue reads =>
      obtain ⟨begun, can, space, -⟩ := reads
      cases outcome with
      | data bytes =>
        dsimp only
        split
        case isTrue => exact (Move.ended begun (ready can)).moves alive
        case isFalse some_read =>
          have got : Move t c v (v.received (bytes.take _)) :=
            .received begun (ready can) some_read space (by rw [List.length_take]; omega)
          exact (got.moves alive).trans (ih _ alive ready)
      | interrupted => exact ih budget alive ready
      | wouldBlock => exact .refl
      | failed =>
        have failed : Move t c v (v.close .receiveFailed) := .closed trivial
        exact failed.moves alive

/-- One iteration of the frame loop. -/
theorem frameLoop_succ (more : Nat) (offers : v.Offers t) :
    frameLoop t c (more + 1) v =
      match v.frameSize t with
      | none => (32 - more, v.close .framing)
      | some size =>
        if size = 0 ∨ size > v.conn.peer.input.size then (32 - more, v)
        else if v.queue.Full t (v.cutInput size) then (32 - more, v.reject t size)
        else frameLoop t c more (v.accept t c size) := by
  rw [frameLoop, if_pos ⟨offers.nonempty, offers.fresh, offers.ready⟩]
  cases v.frameSize t with
  | none => rfl
  | some size =>
    dsimp only
    split
    · rfl
    · by_cases full : v.queue.Full t (v.cutInput size)
      · have refused := full
        unfold cutInput at refused
        simp only [JobQueue.submit, refused, full, if_true]
        rfl
      · have accepted := full
        unfold cutInput at accepted
        simp only [JobQueue.submit, accepted, full, if_false]
        rfl

theorem frameLoop_moves (more : Nat) (alive : v.conn.peer.closed = false) :
    Moves t c v (frameLoop t c more v).2 := by
  induction more generalizing v with
  | zero =>
    unfold frameLoop
    dsimp only
    split <;> exact .refl
  | succ more ih =>
    by_cases offers : v.Offers t
    · rw [frameLoop_succ more offers]
      split
      case h_1 invalid =>
        have ends : Move t c v (v.close .framing) := .closed ⟨offers, invalid⟩
        exact ends.moves alive
      case h_2 size valid =>
        split_ifs with partly full
        · exact .refl
        all_goals have cuts : v.Cuts t size := ⟨offers, valid, by omega, by omega⟩
        · exact (Move.rejected cuts full).moves alive
        · exact ((Move.accepted cuts full).moves alive).trans (ih alive)
    · have stops : ¬ (v.conn.peer.input.size ≠ 0 ∧ v.conn.peer.incomplete = false ∧
          v.ready t = true) := fun h => offers ⟨h.1, h.2.1, h.2.2⟩
      rw [frameLoop, if_neg stops]

theorem finishPhase_moves (alive : v.conn.peer.closed = false) :
    Moves t c v (v.finishPhase t) := by
  unfold finishPhase
  dsimp only
  split
  case isTrue done =>
    have ends : Move t c v (v.close .endOfStream) := .closed done
    exact ends.moves alive
  case isFalse => exact (Move.interest _).moves alive

theorem sendPhase_moves (socket : Socket) (alive : v.conn.peer.closed = false) :
    Moves t c v (v.sendPhase c socket) := by
  unfold sendPhase
  dsimp only
  split
  · exact (sendLoop_moves _ _ alive).trans (schedule_moves _)
  · exact sendLoop_moves _ _ alive

theorem receivePhase_moves (socket : Socket) (alive : v.conn.peer.closed = false) :
    Moves t c v (v.receivePhase t c socket) := by
  unfold receivePhase
  dsimp only
  split
  · exact (receiveLoop_moves _ _ alive id).trans (schedule_moves _)
  · exact receiveLoop_moves _ _ alive id

theorem framePhase_moves (alive : v.conn.peer.closed = false) :
    Moves t c v (v.framePhase t c) := by
  unfold framePhase
  dsimp only
  split
  · exact (frameLoop_moves _ alive).trans (schedule_moves _)
  · exact frameLoop_moves _ alive

theorem pump_moves (socket : Socket) (v : View) : Moves t c v (v.pump t c socket) :=
  Moves.andThen .refl fun alive => Moves.andThen (sendPhase_moves socket alive) fun alive =>
    Moves.andThen (receivePhase_moves socket alive) fun alive =>
      Moves.andThen (framePhase_moves alive) fun alive => finishPhase_moves alive

/-- What is received and what is submitted only grows, and the handler alone finds input
incomplete. -/
structure Grows (v w : View) : Prop where
  received : v.conn.received <+: w.conn.received
  submitted : v.conn.submitted <+: w.conn.submitted
  fresh : v.conn.peer.incomplete = false → w.conn.peer.incomplete = false
  valid : v.conn.peer.input.Valid → w.conn.peer.input.Valid

theorem Grows.of_eq (received : w.conn.received = v.conn.received)
    (submitted : w.conn.submitted = v.conn.submitted)
    (fresh : w.conn.peer.incomplete = v.conn.peer.incomplete)
    (input : w.conn.peer.input = v.conn.peer.input) : Grows v w where
  received := received ▸ List.prefix_rfl
  submitted := submitted ▸ List.prefix_rfl
  fresh := fresh ▸ id
  valid := input ▸ id

theorem Grows.trans {u : View} (h : Grows u v) (h' : Grows v w) : Grows u w where
  received := h.received.trans h'.received
  submitted := h.submitted.trans h'.submitted
  fresh := h'.fresh ∘ h.fresh
  valid := h'.valid ∘ h.valid

theorem grows_close (v : View) (reason : CloseReason) : Grows v (v.close reason) := by
  unfold close
  split <;> exact .of_eq rfl rfl rfl rfl

theorem grows_offer {size : Nat} (whole : size ≤ v.conn.peer.input.size) :
    Grows v (v.offer t size) where
  received := List.prefix_rfl
  submitted := List.prefix_append _ _
  fresh := id
  valid h := by
    rw [Buffer.size_eq h] at whole
    unfold offer
    dsimp only
    split
    · exact h.consume whole
    · exact h

theorem Move.grows (m : Move t c v w) : Grows v w := by
  cases m with
  | wrote _ _ _ =>
    unfold View.wrote
    split <;> exact .of_eq rfl rfl rfl rfl
  | @received bytes _ _ _ _ _ =>
    exact ⟨List.prefix_append _ _, List.prefix_rfl, fun _ => rfl, fun h => h.append bytes⟩
  | @accepted size cuts _ =>
    have offered : Grows v (v.offer t size) := grows_offer cuts.whole
    exact offered.trans (.of_eq rfl rfl rfl rfl)
  | @rejected size cuts _ =>
    have offered : Grows v (v.offer t size) := grows_offer cuts.whole
    have counted : Grows (v.offer t size)
        { v.offer t size with stats.rejected := v.stats.rejected + 1 } := .of_eq rfl rfl rfl rfl
    exact (offered.trans counted).trans (grows_close _ _)
  | closed _ => exact grows_close v _
  | scheduled =>
    unfold View.schedule
    split <;> exact .of_eq rfl rfl rfl rfl
  | ended _ _ | interest _ => exact .of_eq rfl rfl rfl rfl

theorem Moves.grows (moves : Moves t c v w) : Grows v w := by
  induction moves with
  | refl => exact .of_eq rfl rfl rfl rfl
  | tail _ next ih => exact ih.trans next.2.grows

end View
end KVRPC.Server
