import KVRPC.Server.Orderly

/-!
# Back-pressure on the output

A connection takes no new job while half of its output budget is in use. The budget is never
exceeded, so the check a completion makes does not wrap around; and when there is one job at a
time and the budget holds two frames, the reply to an accepted job always finds room.
-/
namespace KVRPC.Server

open Library Net

variable {ε : Type} {t : TcpServer ε} {s s₀ : State} {c : Nat} {v w : View}
  {conn conn' : Connection}

/-- `held` is what the admission of a job leaves behind: with one job at a time nothing joins the
output until that job is answered. -/
structure Paced (t : TcpServer ε) (conn : Connection) : Prop where
  outbox : Outbox conn.peer
  bounded : conn.peer.outputBytes ≤ t.options.outputBytes
  held : t.limit = 1 → conn.peer.closed = false → 0 < conn.peer.pending →
    conn.peer.outputBytes < t.options.outputBytes / 2

namespace Paced

theorem congr (h : Paced t conn) (output : conn'.peer.output = conn.peer.output)
    (sent : conn'.peer.sent = conn.peer.sent)
    (bytes : conn'.peer.outputBytes = conn.peer.outputBytes)
    (closed : conn'.peer.closed = false → conn.peer.closed = false)
    (pending : conn'.peer.closed = false → conn'.peer.pending = conn.peer.pending) :
    Paced t conn' where
  outbox := h.outbox.congr output sent bytes
  bounded := bytes ▸ h.bounded
  held one alive := by
    rw [bytes, pending alive]
    exact h.held one (closed alive)

theorem close (h : Paced t v.conn) (alive : v.conn.peer.closed = false) (reason : CloseReason) :
    Paced t (v.close reason).conn := by
  rw [View.conn_close alive]
  exact h.congr rfl rfl rfl (by simp) (by simp)

/-- Sending makes the output shorter. -/
theorem wrote (h : Paced t v.conn) {bytes : Bytes} {rest : List Bytes} {n : Nat}
    (front : v.conn.peer.output = bytes :: rest) (fits : n ≤ usub bytes.length v.conn.peer.sent) :
    Paced t (v.wrote c bytes rest n).conn := by
  have left : (v.wrote c bytes rest n).conn.peer.outputBytes = v.conn.peer.outputBytes - n := by
    have total := h.outbox.total
    have inside := h.outbox.cursor bytes rest front
    rw [usub_of_le inside.le] at fits
    rw [front, List.flatten_cons, List.length_append] at total
    have exact_ : usub v.conn.peer.outputBytes n = v.conn.peer.outputBytes - n :=
      usub_of_le (by omega)
    unfold View.wrote
    split <;> exact exact_
  have pending : (v.wrote c bytes rest n).conn.peer.pending = v.conn.peer.pending := by
    unfold View.wrote
    split <;> rfl
  have bounded := h.bounded
  refine ⟨h.outbox.wrote front fits, by omega, fun one alive some_pending => ?_⟩
  have held := h.held one (by simpa using alive) (pending ▸ some_pending)
  omega

theorem move (h : Paced t v.conn) (alive : v.conn.peer.closed = false)
    (m : View.Move t c v w) : Paced t w.conn := by
  cases m with
  | wrote front _ fits => exact h.wrote front fits
  | received _ _ _ _ _ => exact h.congr rfl rfl rfl id fun _ => rfl
  | ended _ _ => exact h.congr rfl rfl rfl id fun _ => rfl
  | accepted cuts _ =>
    have room := (View.ready_iff.mp cuts.offers.ready).2
    exact ⟨h.outbox.congr rfl rfl rfl, h.bounded, fun _ _ _ => room⟩
  | @rejected size cuts _ =>
    have room := (View.ready_iff.mp cuts.offers.ready).2
    have offered : Paced t
        ({ v.offer t size with stats.rejected := v.stats.rejected + 1 } : View).conn :=
      ⟨h.outbox.congr rfl rfl rfl, h.bounded, fun _ _ _ => room⟩
    exact offered.close alive _
  | closed _ => exact h.close alive _
  | scheduled =>
    unfold View.schedule
    split
    · exact h
    · exact h.congr rfl rfl rfl id fun _ => rfl
  | interest _ => exact h

/-- The condition on the output budget, without the wrap-around. -/
theorem room (h : Paced t conn) :
    usub t.options.outputBytes conn.peer.outputBytes =
      t.options.outputBytes - conn.peer.outputBytes :=
  usub_of_le h.bounded

/-- A reply has been checked against what is left of the budget. With one job at a time none is
pending after it. -/
theorem absorb (h : Paced t v.conn) (alive : v.conn.peer.closed = false)
    {flights : List (Job Completion)} (served : Served t v.conn flights) {job : Job Completion}
    (member : job ∈ flights) {reply : Reply}
    (good : ¬ v.retract.Unacceptable t job.complete reply) :
    Paced t (v.retract.absorb job reply).conn := by
  have bounded := h.bounded
  have fits : reply.bytes.length ≤ usub t.options.outputBytes v.conn.peer.outputBytes := by
    by_contra over_
    exact good (.inr (.inr (.inr (.inr (.inl (not_le.mp over_))))))
  rw [h.room] at fits
  have retracted : Outbox v.retract.conn.peer := h.outbox.congr rfl rfl rfl
  have bytes : (v.retract.absorb job reply).conn.peer.outputBytes =
      v.conn.peer.outputBytes + reply.bytes.length := rfl
  refine ⟨retracted.absorb job reply, by omega, fun one _ some_pending => ?_⟩
  have count := served.count alive
  have limit := served.limit
  have some_flight := List.length_pos_of_mem member
  have pending : (v.retract.absorb job reply).conn.peer.pending = usub v.conn.peer.pending 1 := rfl
  rw [pending, usub_of_le (by omega)] at some_pending
  omega

theorem turn {flights : List (Job Completion)} (h : Paced t conn) (served : Served t conn flights)
    (turn : Turn t c conn flights conn') : Paced t conn' := by
  cases turn with
  | rest => exact h
  | move own alive m =>
    subst own
    exact h.move alive m
  | wire _ _ _ => exact h.congr rfl rfl rfl id fun _ => rfl
  | @refuse v own alive _ member =>
    subst own
    have some_flight := List.length_pos_of_mem member
    have count := served.count alive
    have retracted : Paced t v.retract.conn :=
      ⟨h.outbox.congr rfl rfl rfl, h.bounded, fun one _ _ => h.held one alive (by omega)⟩
    exact retracted.close alive _
  | absorb own alive _ member _ good =>
    subst own
    exact h.absorb alive served member good

theorem initial : Paced t {} :=
  ⟨⟨by simp, by simp, fun _ => rfl, rfl⟩, Nat.zero_le _, by simp⟩

end Paced

/-- **Output accounting**, in every state of every run and in the states the callbacks go through:
`output_bytes` is what is queued less what is sent, `sent` stays inside the reply at the front, and
the budget is kept. With one job at a time and room for two frames, a completion whose reply is no
longer than a frame finds that the reply fits. -/
theorem output_accounting (t : TcpServer ε) {trace : List (State × Event)}
    (run : State.Runs t trace s₀) (acts : Acts t s₀ s) (c : Nat) :
    (s.conns c).peer.outputBytes + (s.conns c).peer.sent =
      ((s.conns c).peer.output.map List.length).sum ∧
    (∀ front rest, (s.conns c).peer.output = front :: rest →
      (s.conns c).peer.sent < front.length) ∧
    ((s.conns c).peer.output = [] → (s.conns c).peer.sent = 0) ∧
    (s.conns c).peer.outputBytes ≤ t.options.outputBytes ∧
    (t.limit = 1 → 2 * t.maxFrameBytes ≤ t.options.outputBytes →
      ∀ {i job reply rest}, (s.ios i).loop.tasks = .reply job reply :: rest →
        job.complete.conn = c → (s.conns c).peer.closed = false →
        reply.bytes.length ≤ t.maxFrameBytes →
        ¬ reply.bytes.length > usub t.options.outputBytes (s.conns c).peer.outputBytes) := by
  have kept : ∀ {s s' : State}, Base t s → AllServed t s → (∀ c, Paced t (s.conns c)) →
      Act t s s' → ∀ c, Paced t (s'.conns c) :=
    fun base served h act c => (h c).turn (served c) (act.turn base c)
  obtain ⟨base, -, served, paced⟩ := acts.invariant
    (run.invariant (fun s => ∀ c, Paced t (s.conns c)) (fun _ => .initial) kept) kept
  have own := paced c
  refine ⟨?_, own.outbox.cursor, own.outbox.reset, own.bounded, ?_⟩
  · rw [own.outbox.total, List.length_flatten]
  · rintro one two i job reply rest head rfl alive short
    -- the job was accepted with less than half of the budget in use
    have some_flight := List.length_pos_of_mem (base.mem_flights head)
    have count := (served job.complete.conn).count alive
    have half := own.held one alive (by omega)
    rw [own.room]
    omega

/-- The first reply has been sent in part when the reply to the next request arrives. -/
theorem output_accounting_partial :
    ∃ trace s job reply, State.Runs (kvServer true) trace s ∧
      (s.conns 0).peer.output = [[7, 8, 9]] ∧ (s.conns 0).peer.sent = 1 ∧
      (s.conns 0).peer.outputBytes = 2 ∧ (s.ios 0).loop.tasks = [.reply job reply] ∧
      ¬ reply.bytes.length > usub (kvServer true).options.outputBytes
        (s.conns 0).peer.outputBytes := by
  obtain ⟨trace, s, run, output, sent, head, alive⟩ : ∃ trace s,
      State.Runs (kvServer true) trace s ∧ (s.conns 0).peer.output = [[7, 8, 9]] ∧
      (s.conns 0).peer.sent = 1 ∧ (s.ios 0).loop.tasks =
        [.reply ⟨[0xca, 0xfe, 1, 2, 0, 0, 0, 1, 0, 0, 0, 0, 66], ⟨0, 13, true⟩, 1⟩
          ⟨13, [5], false⟩] ∧
      (s.conns 0).peer.closed = false :=
    ⟨_, _, Run.replays (State.step (kvServer true)) (State.initial (kvServer true))
      [.accept, .task 0 {},
        .ready 0 1 false { receives := [.data [0xca, 0xfe, 1, 2, 0, 0, 0, 1, 0, 0, 0, 0, 65,
          0xca, 0xfe, 1, 2, 0, 0, 0, 1, 0, 0, 0, 0, 66]] },
        .take 0, .handle 0 (.batch [⟨13, [7, 8, 9], false⟩]), .complete 0,
        .task 0 { sends := [.wrote 1] }, .take 0, .handle 0 (.batch [⟨13, [5], false⟩]),
        .complete 0] (by decide +kernel), by decide +kernel, by decide +kernel, by decide +kernel,
      by decide +kernel⟩
  obtain ⟨total, -, -, -, fits⟩ := output_accounting (kvServer true) run .refl 0
  rw [output, sent] at total
  exact ⟨trace, s, _, _, run, output, sent, Nat.succ.inj total, head,
    fits rfl (by decide) head rfl alive (by decide)⟩

end KVRPC.Server
