import KVRPC.Server.Invariant

/-!
# Framing does not depend on fragmentation

With a sizer, the octets received on a connection are at all times the inputs submitted so
far followed by the contents of the buffer, however the stream was cut into chunks and
wherever `Pump` stopped. So the submitted inputs are the first frames of the one parse of
the stream. The limit on the buffer does not hold a frame up: as long as the frame at its front
is not complete there is room for the rest (`pump_receives`), and then it is cut off
(`pump_submits`).
-/
namespace KVRPC.Server

open Library Net Relation Library.Framing

variable {ε : Type} {t : TcpServer ε} {sizer : Sizer ε} {s s' : State} {c : Nat} {v w : View}

structure Framed (t : TcpServer ε) (sizer : Sizer ε) (conn : Connection) : Prop where
  split : conn.received = conn.submitted.flatten ++ conn.peer.input.contents
  frames : ∀ f ∈ conn.submitted, Frame sizer f
  unclosed : conn.peer.closed = false → conn.closedBy = none
  invalid : conn.closedBy = some .framing →
    (∃ e, sizer conn.peer.input.contents = .error e) ∨
      ∃ n, sizer conn.peer.input.contents = .ok n ∧ t.maxFrameBytes < n
  /-- Only a server without a sizer waits for the handler to find the input incomplete. -/
  fresh : conn.peer.incomplete = false

theorem frameSize_eq_some (installed : t.sizer = some sizer) {size : Nat}
    (h : v.frameSize t = some size) : sizer v.conn.peer.input.contents = .ok size := by
  simp only [View.frameSize, installed, Option.filter_eq_some_iff] at h
  cases result : sizer v.conn.peer.input.contents with
  | error e => simp [result, Except.toOption] at h
  | ok n => simpa [result, Except.toOption] using h.1

theorem frameSize_eq_none (installed : t.sizer = some sizer) (h : v.frameSize t = none) :
    (∃ e, sizer v.conn.peer.input.contents = .error e) ∨
      ∃ n, sizer v.conn.peer.input.contents = .ok n ∧ t.maxFrameBytes < n := by
  simp only [View.frameSize, installed] at h
  cases result : sizer v.conn.peer.input.contents with
  | error e => exact .inl ⟨e, rfl⟩
  | ok n =>
    right
    refine ⟨n, rfl, ?_⟩
    simpa [result, Except.toOption] using h

namespace Framed

/-- The connection changes in ways framing does not see. -/
theorem congr {conn conn' : Connection} (h : Framed t sizer conn)
    (received : conn'.received = conn.received) (submitted : conn'.submitted = conn.submitted)
    (input : conn'.peer.input = conn.peer.input) (closed : conn'.peer.closed = conn.peer.closed)
    (closedBy : conn'.closedBy = conn.closedBy)
    (incomplete : conn'.peer.incomplete = conn.peer.incomplete) : Framed t sizer conn' := by
  refine ⟨?_, ?_, ?_, ?_, incomplete.trans h.fresh⟩
  · rw [received, submitted, input]
    exact h.split
  · rw [submitted]
    exact h.frames
  · rw [closed, closedBy]
    exact h.unclosed
  · rw [closedBy, input]
    exact h.invalid

theorem initial : Framed t sizer {} := ⟨rfl, by simp, fun _ => rfl, by simp, rfl⟩

theorem close (h : Framed t sizer v.conn) (alive : v.conn.peer.closed = false)
    {reason : CloseReason}
    (why : reason = .framing → (∃ e, sizer v.conn.peer.input.contents = .error e) ∨
      ∃ n, sizer v.conn.peer.input.contents = .ok n ∧ t.maxFrameBytes < n) :
    Framed t sizer (v.close reason).conn := by
  rw [View.conn_close alive]
  refine ⟨h.split, h.frames, by simp, fun same => why ?_, h.fresh⟩
  simpa using same

/-- A frame is cut off the input. -/
theorem offer (lawful : Lawful sizer) (installed : t.sizer = some sizer)
    (h : Framed t sizer v.conn) (valid : v.conn.peer.input.Valid)
    (alive : v.conn.peer.closed = false) {size : Nat} (cuts : v.Cuts t size) :
    Framed t sizer (v.offer t size).conn := by
  have result := frameSize_eq_some installed cuts.frameSize
  have whole := cuts.whole
  rw [Buffer.size_eq valid] at whole
  have complete : Complete sizer v.conn.peer.input.contents size :=
    ⟨result, Nat.pos_of_ne_zero cuts.positive, whole⟩
  have input : (v.offer t size).conn.peer.input = v.conn.peer.input.consume size := by
    simp [View.offer, installed]
  have none : (v.offer t size).conn.closedBy = none := h.unclosed alive
  refine ⟨?_, ?_, fun _ => none, ?_, h.fresh⟩
  · rw [input, Buffer.contents_consume]
    simp only [View.offer, Buffer.copy, List.flatten_append, List.flatten_cons, List.flatten_nil,
      List.append_nil, List.append_assoc, List.take_append_drop]
    exact h.split
  · intro f mem
    simp only [View.offer, List.mem_append, List.mem_singleton] at mem
    obtain old | rfl := mem
    · exact h.frames f old
    · exact complete.frame lawful
  · simp [none]

theorem move (lawful : Lawful sizer) (installed : t.sizer = some sizer)
    (h : Framed t sizer v.conn) (valid : v.conn.peer.input.Valid)
    (alive : v.conn.peer.closed = false) (m : View.Move t c v w) : Framed t sizer w.conn := by
  cases m with
  | wrote _ _ _ =>
    unfold View.wrote
    split <;> exact h.congr rfl rfl rfl rfl rfl rfl
  | @received bytes _ _ _ _ _ =>
    refine ⟨?_, h.frames, h.unclosed, ?_, rfl⟩
    · simp only [View.received, Buffer.contents_append valid, ← List.append_assoc, ← h.split]
    · intro framing
      have none : v.conn.closedBy = none := h.unclosed alive
      simp [View.received, none] at framing
  | ended _ _ => exact h.congr rfl rfl rfl rfl rfl rfl
  | accepted cuts _ =>
    exact (h.offer lawful installed valid alive cuts).congr rfl rfl rfl rfl rfl rfl
  | @rejected size cuts _ =>
    have offered : Framed t sizer
        ({ v.offer t size with stats.rejected := v.stats.rejected + 1 } : View).conn :=
      h.offer lawful installed valid alive cuts
    exact offered.close alive (by rintro ⟨⟩)
  | closed may =>
    apply h.close alive
    rintro rfl
    exact frameSize_eq_none installed may.2
  | scheduled =>
    unfold View.schedule
    split <;> exact h.congr rfl rfl rfl rfl rfl rfl
  | interest _ => exact h.congr rfl rfl rfl rfl rfl rfl

/-- Every connection of the server is framed. -/
theorem turn (lawful : Lawful sizer) (installed : t.sizer = some sizer)
    {conn conn' : Connection} {flights : List (Job Completion)} (h : Framed t sizer conn)
    (served : Served t conn flights) (turn : Turn t c conn flights conn') :
    Framed t sizer conn' := by
  cases turn with
  | rest => exact h
  | move own alive m =>
    subst own
    exact h.move lawful installed served.valid alive m
  | wire _ _ _ => exact h.congr rfl rfl rfl rfl rfl rfl
  | @refuse v own alive _ _ =>
    subst own
    have retracted : Framed t sizer v.retract.conn := h.congr rfl rfl rfl rfl rfl rfl
    exact retracted.close alive (by rintro ⟨⟩)
  | @absorb v own _ job member reply _ =>
    subst own
    -- the sizer has taken the frame off the buffer already
    have framed : job.complete.framed = true := by simp [served.framed job member, installed]
    refine h.congr rfl rfl ?_ rfl rfl ?_
    all_goals simp [View.absorb, View.retract, framed]

theorem of_run (lawful : Lawful sizer) (installed : t.sizer = some sizer)
    {trace : List (State × Event)} (run : State.Runs t trace s) :
    AllServed t s ∧ ∀ c, Framed t sizer (s.conns c) := by
  obtain ⟨-, -, served, framed⟩ := run.invariant (fun s => ∀ c, Framed t sizer (s.conns c))
    (fun _ => .initial)
    (fun base served h act c => (h c).turn lawful installed (served c) (act.turn base c))
  exact ⟨served, framed⟩

end Framed

/-! ## What `Pump` does for the frame at the front -/

namespace View

/-- The side of a connection that `send` does not touch. -/
def incoming (v : View) : Bytes × List Bytes × Buffer × Bool :=
  (v.conn.received, v.conn.submitted, v.conn.peer.input, v.conn.peer.eof)

@[simp] theorem incoming_close (reason : CloseReason) : (v.close reason).incoming = v.incoming := by
  unfold close
  split <;> rfl

@[simp] theorem incoming_schedule : (v.schedule c).incoming = v.incoming := by
  unfold schedule
  split <;> rfl

@[simp] theorem incoming_wrote (bytes : Bytes) (rest : List Bytes) (n : Nat) :
    (v.wrote c bytes rest n).incoming = v.incoming := by
  unfold wrote
  split <;> rfl

theorem incoming_sendLoop (outcomes : List SendOutcome) (budget : Nat) :
    (sendLoop c outcomes budget v).2.incoming = v.incoming := by
  induction outcomes generalizing v budget with
  | nil => rfl
  | cons outcome outcomes ih =>
    unfold sendLoop
    split
    case h_1 => rfl
    case h_2 bytes rest front =>
      split
      case isTrue => rfl
      case isFalse =>
        cases outcome with
        | wrote n =>
          dsimp only
          split
          · exact incoming_close _
          · exact (ih _).trans (incoming_wrote _ _ _)
        | interrupted => exact ih _
        | wouldBlock => rfl
        | failed => exact incoming_close _

theorem incoming_sendPhase (socket : Socket) : (v.sendPhase c socket).incoming = v.incoming := by
  unfold sendPhase
  dsimp only
  split
  · exact incoming_schedule.trans (incoming_sendLoop _ _)
  · exact incoming_sendLoop _ _

/-- What `recv` does not touch: the jobs and back-pressure. -/
def outgoing (t : TcpServer ε) (v : View) : List Bytes × Bool := (v.conn.submitted, v.ready t)

@[simp] theorem outgoing_close (reason : CloseReason) :
    (v.close reason).outgoing t = v.outgoing t := by
  unfold close
  split <;> rfl

@[simp] theorem outgoing_schedule : (v.schedule c).outgoing t = v.outgoing t := by
  unfold schedule
  split <;> rfl

theorem outgoing_receiveLoop (outcomes : List ReceiveOutcome) (budget : Nat) (canRead : Bool) :
    (receiveLoop t canRead outcomes budget v).2.outgoing t = v.outgoing t := by
  induction outcomes generalizing v budget with
  | nil => rfl
  | cons outcome outcomes ih =>
    unfold receiveLoop
    split
    case isFalse => rfl
    case isTrue =>
      cases outcome with
      | data bytes =>
        dsimp only
        split
        · rfl
        · exact ih _
      | interrupted => exact ih _
      | wouldBlock => rfl
      | failed => exact outgoing_close _

theorem outgoing_receivePhase (socket : Socket) :
    (v.receivePhase t c socket).outgoing t = v.outgoing t := by
  unfold receivePhase
  dsimp only
  split
  · exact outgoing_schedule.trans (outgoing_receiveLoop _ _ _)
  · exact outgoing_receiveLoop _ _ _

/-- `Pump` comes to its second loop, and back-pressure lets it read. -/
structure Reads (t : TcpServer ε) (c : Nat) (socket : Socket) (v : View) : Prop where
  alive : v.conn.peer.closed = false
  sent : (v.sendPhase c socket).conn.peer.closed = false
  ready : (v.sendPhase c socket).ready t = true

theorem Reads.pump_eq {socket : Socket} (h : v.Reads t c socket) :
    v.pump t c socket = ((v.sendPhase c socket).receivePhase t c socket).andThen fun v =>
      (v.framePhase t c).andThen fun v => v.finishPhase t := by
  rw [pump, andThen, if_neg (by simp [h.alive]), andThen, if_neg (by simp [h.sent])]

theorem receiveLoop_grows (outcomes : List ReceiveOutcome) (budget : Nat)
    (alive : v.conn.peer.closed = false) (ready : v.ready t = true) :
    Grows v (receiveLoop t true outcomes budget v).2 :=
  (receiveLoop_moves (c := 0) outcomes budget alive fun _ => ready).grows

/-- The first call of `recv` that is not interrupted takes what fits. -/
theorem receiveLoop_receives {outcomes rest : List ReceiveOutcome} {budget : Nat} {bytes : Bytes}
    (alive : v.conn.peer.closed = false) (ready : v.ready t = true)
    (offered : outcomes.dropWhile (· = .interrupted) = .data bytes :: rest)
    (begun : v.conn.peer.eof = false) (space : v.conn.peer.input.size < t.maxFrameBytes)
    (some_budget : budget ≠ 0) :
    v.conn.received ++ bytes.take
        (min (min 16384 budget) (usub t.maxFrameBytes v.conn.peer.input.size)) <+:
      (receiveLoop t true outcomes budget v).2.conn.received := by
  induction outcomes with
  | nil => simp at offered
  | cons outcome outcomes ih =>
    unfold receiveLoop
    rw [if_pos ⟨begun, rfl, space, some_budget⟩]
    cases outcome with
    | interrupted => exact ih (by simpa using offered)
    | data bytes' =>
      obtain ⟨rfl, -⟩ : bytes' = bytes ∧ outcomes = rest := by simpa using offered
      dsimp only
      split
      case isTrue none =>
        rw [none, List.append_nil]
      case isFalse =>
        exact (receiveLoop_grows (v := v.received _) outcomes _ alive ready).received
    | wouldBlock | failed => simp at offered

theorem receivePhase_receives {socket : Socket} {bytes : Bytes} {rest : List ReceiveOutcome}
    (alive : v.conn.peer.closed = false) (ready : v.ready t = true)
    (offered : socket.receives.dropWhile (· = .interrupted) = .data bytes :: rest)
    (begun : v.conn.peer.eof = false) (space : v.conn.peer.input.size < t.maxFrameBytes) :
    v.conn.received ++ bytes.take (min 16384 (usub t.maxFrameBytes v.conn.peer.input.size)) <+:
      (v.receivePhase t c socket).conn.received := by
  have some_budget : 256 * 1024 ≠ 0 := by decide
  have taken := receiveLoop_receives alive ready offered begun space some_budget
  unfold receivePhase
  rw [ready]
  dsimp only
  split
  · exact taken.trans (schedule_moves (t := t) _).grows.received
  · exact taken

/-- A frame that has arrived in part leaves room for the rest of it. -/
theorem pump_receives {f bytes : Bytes} {socket : Socket} {rest : List ReceiveOutcome}
    (reads : v.Reads t c socket) (valid : v.conn.peer.input.Valid)
    (within : f.length ≤ t.maxFrameBytes) (begins : v.conn.peer.input.contents <+: f)
    (unfinished : v.conn.peer.input.contents ≠ f) (begun : v.conn.peer.eof = false)
    (offered : socket.receives.dropWhile (· = .interrupted) = .data bytes :: rest) :
    v.conn.received ++ bytes.take (min 16384 (f.length - v.conn.peer.input.contents.length)) <+:
      (v.pump t c socket).conn.received := by
  have same := incoming_sendPhase (v := v) (c := c) socket
  simp only [incoming, Prod.mk.injEq] at same
  obtain ⟨received, -, input, eof⟩ := same
  have shorter : v.conn.peer.input.contents.length < f.length :=
    lt_of_le_of_ne begins.length_le fun length => unfinished (begins.eq_of_length length)
  have size := Buffer.size_eq valid
  have space : (v.sendPhase c socket).conn.peer.input.size < t.maxFrameBytes := by
    rw [input]
    omega
  have taken := receivePhase_receives (c := c) reads.sent reads.ready offered (eof.trans begun)
    space
  rw [received, input, usub_of_le (by omega)] at taken
  have later : Moves t c ((v.sendPhase c socket).receivePhase t c socket) (v.pump t c socket) := by
    rw [reads.pump_eq]
    exact Moves.andThen .refl fun alive =>
      Moves.andThen (framePhase_moves alive) fun alive => finishPhase_moves alive
  refine List.IsPrefix.trans ?_ (taken.trans later.grows.received)
  apply (List.prefix_append_right_inj _).mpr
  exact List.take_prefix_take_left (by omega)

/-- A complete frame is cut off and submitted, if the queue has room for it. -/
theorem framePhase_submits {f : Bytes} (lawful : Lawful sizer) (installed : t.sizer = some sizer)
    (frame : Frame sizer f) (within : f.length ≤ t.maxFrameBytes)
    (alive : v.conn.peer.closed = false) (ready : v.ready t = true)
    (valid : v.conn.peer.input.Valid) (fresh : v.conn.peer.incomplete = false)
    (front : f <+: v.conn.peer.input.contents) (room : ¬ v.queue.Full t f) :
    v.conn.submitted ++ [f] <+: (v.framePhase t c).conn.submitted := by
  obtain ⟨more, split⟩ := front
  obtain ⟨result, positive, enough⟩ := frame.complete.append lawful more
  rw [split] at result enough
  have size := Buffer.size_eq valid
  have offers : v.Offers t := ⟨by omega, fresh, ready⟩
  have announced : v.frameSize t = some f.length := by
    simp [frameSize, installed, result, Except.toOption, within]
  have input : v.cutInput f.length = f := by
    rw [cutInput, Buffer.copy, ← split, List.take_left]
  have cut : frameLoop t c 32 v = frameLoop t c 31 (v.accept t c f.length) := by
    rw [frameLoop_succ 31 offers, announced]
    simp only
    rw [if_neg (by omega), input, if_neg room]
  have submitted : (v.accept t c f.length).conn.submitted = v.conn.submitted ++ [f] := by
    rw [accept, offer, ← cutInput, input]
  have rest : Moves t c (v.accept t c f.length) (frameLoop t c 31 (v.accept t c f.length)).2 :=
    frameLoop_moves 31 alive
  unfold framePhase
  rw [cut, ← submitted]
  dsimp only
  split
  · exact rest.grows.submitted.trans (schedule_moves (t := t) _).grows.submitted
  · exact rest.grows.submitted

theorem pump_submits {f : Bytes} {socket : Socket} (lawful : Lawful sizer)
    (installed : t.sizer = some sizer) (frame : Frame sizer f) (within : f.length ≤ t.maxFrameBytes)
    (reads : v.Reads t c socket) (valid : v.conn.peer.input.Valid)
    (fresh : v.conn.peer.incomplete = false)
    (unclosed : ((v.sendPhase c socket).receivePhase t c socket).conn.peer.closed = false)
    (front : f <+: ((v.sendPhase c socket).receivePhase t c socket).conn.peer.input.contents)
    (room : ¬ ((v.sendPhase c socket).receivePhase t c socket).queue.Full t f) :
    v.conn.submitted ++ [f] <+: (v.pump t c socket).conn.submitted := by
  have incoming := incoming_sendPhase (v := v) (c := c) socket
  have outgoing := outgoing_receivePhase (v := v.sendPhase c socket) (t := t) (c := c) socket
  simp only [View.incoming, View.outgoing, Prod.mk.injEq] at incoming outgoing
  have before : Grows v ((v.sendPhase c socket).receivePhase t c socket) :=
    (sendPhase_moves (t := t) socket reads.alive).grows.trans
      (receivePhase_moves socket reads.sent).grows
  have cut := framePhase_submits (c := c) lawful installed frame within unclosed
    (outgoing.2.trans reads.ready) (before.valid valid) (before.fresh fresh) front room
  rw [outgoing.1, incoming.2.1] at cut
  refine cut.trans (Moves.grows (t := t) (c := c) ?_).submitted
  rw [reads.pump_eq, andThen, if_neg (by simp [unclosed])]
  exact Moves.andThen .refl fun alive => finishPhase_moves alive

end View

/-- **Framing.** With either sizer, on every connection of every run and for every stream the
received octets begin: the submitted inputs are a prefix of the one parse of the stream and the
buffer holds exactly what was received after them. A frame within the limit is not held up by the
limit on the buffer: while part of it is missing, a call of `Pump` that may read takes the octets
it is offered, up to the end of the frame or the size of an array, and when all of it is there, it
is submitted if the queue has room. The connection is closed for a framing error only when an
invalid or oversized header follows the last complete frame. -/
theorem framing_independent_of_fragmentation {ε : Type} {sizer : Sizer ε} (known : KnownSizer sizer)
    (t : TcpServer ε) (installed : t.sizer = some sizer) {trace : List (State × Event)} {s : State}
    (run : State.Runs t trace s) (c : Nat) {stream : Bytes}
    (arrived : (s.conns c).received <+: stream) :
    (∃! parsed : List Bytes × Bytes, Parse sizer stream parsed.1 parsed.2) ∧
    (∀ frames rest, Parse sizer stream frames rest → (s.conns c).submitted <+: frames) ∧
    (s.conns c).received =
      (s.conns c).submitted.flatten ++ (s.conns c).peer.input.contents ∧
    (∀ f, Frame sizer f → f.length ≤ t.maxFrameBytes →
      ∀ socket, (s.view t c).Reads t c socket →
      ((s.conns c).peer.input.contents <+: f → (s.conns c).peer.input.contents ≠ f →
        (s.conns c).peer.eof = false →
        ∀ bytes rest, socket.receives.dropWhile (· = .interrupted) = .data bytes :: rest →
          (s.conns c).received ++
              bytes.take (min 16384 (f.length - (s.conns c).peer.input.contents.length)) <+:
            ((s.view t c).pump t c socket).conn.received) ∧
      ∀ filled, ((s.view t c).sendPhase c socket).receivePhase t c socket = filled →
        filled.conn.peer.closed = false → f <+: filled.conn.peer.input.contents →
        ¬ filled.queue.Full t f →
        (s.conns c).submitted ++ [f] <+: ((s.view t c).pump t c socket).conn.submitted) ∧
    ((s.conns c).closedBy = some .framing →
      Parse sizer (s.conns c).received (s.conns c).submitted (s.conns c).peer.input.contents ∧
      ((∃ e, sizer (s.conns c).peer.input.contents = .error e) ∨
        ∃ n, sizer (s.conns c).peer.input.contents = .ok n ∧ t.maxFrameBytes < n)) := by
  have lawful := known.lawful
  obtain ⟨served, framed⟩ := Framed.of_run lawful installed run
  have own := framed c
  refine ⟨?_, ?_, own.split, fun f frame within socket reads => ⟨?_, ?_⟩, ?_⟩
  · refine ⟨parse sizer stream, parse_spec lawful stream, ?_⟩
    rintro ⟨frames, rest⟩ other
    exact (parse_eq lawful other).symm
  · intro frames rest parsed
    exact frames_prefix lawful arrived own.split own.frames parsed
  · intro begins unfinished begun bytes rest offered
    exact View.pump_receives reads (served c).valid within begins unfinished begun offered
  · rintro _ rfl unclosed front room
    exact View.pump_submits lawful installed frame within reads (served c).valid own.fresh unclosed
      front room
  · intro framing
    have invalid := own.invalid framing
    refine ⟨⟨own.split, own.frames, fun n complete => ?_⟩, invalid⟩
    obtain ⟨size, _, enough⟩ := complete
    have bound := (served c).bound
    obtain ⟨e, failed⟩ | ⟨m, announced, over_limit⟩ := invalid
    · simp [failed] at size
    · rw [announced] at size
      cases size
      omega

/-- A GET frame. -/
def getFrame : Bytes := [0xca, 0xfe, 1, 2, 0, 0, 0, 1, 0, 0, 0, 0, 65]

/-- The rest of the frame arrives with an octet of the next one. -/
def secondPiece : Socket where
  receives := [.interrupted, .data (getFrame.drop 3 ++ [0xca])]

/-- A frame that arrives in two pieces. -/
theorem framing_independent_of_fragmentation_get :
    ∃ trace s, State.Runs (kvServer true) trace s ∧
      (s.conns 0).received = getFrame.take 3 ∧ (s.conns 0).submitted = [] ∧
      (∀ frames rest, Parse kvFrameSize (s.conns 0).received frames rest →
        (s.conns 0).submitted <+: frames) ∧
      getFrame <+: ((s.view (kvServer true) 0).pump (kvServer true) 0 secondPiece).conn.received ∧
      [getFrame] <+:
        ((s.view (kvServer true) 0).pump (kvServer true) 0 secondPiece).conn.submitted := by
  have run := Run.of_replay (State.step (kvServer true)) (State.initial (kvServer true))
    [.accept, .task 0 {}, .ready 0 1 false { receives := [.data (getFrame.take 3)] }] rfl
  obtain ⟨-, parsed, -, unblocked, -⟩ :=
    framing_independent_of_fragmentation .kv (kvServer true) rfl run 0 List.prefix_rfl
  obtain ⟨receives, submits⟩ :=
    unblocked getFrame (by decide) (by decide) secondPiece ⟨rfl, rfl, rfl⟩
  refine ⟨_, _, run, rfl, rfl, parsed, ?_, ?_⟩
  · exact receives (by decide) (by decide) rfl _ _ rfl
  · exact submits _ rfl rfl (by decide) (by decide)

end KVRPC.Server
