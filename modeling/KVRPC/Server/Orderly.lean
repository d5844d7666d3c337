import KVRPC.Server.Invariant

/-!
# The books of a connection

The counters and flags of a peer agree with what they count: `sent` stays inside the reply at
the front of the output, `output_bytes` is what is left to send, `incomplete` is set only on
input the handler has refused, and a connection closed at the end of the stream has nothing
left to answer.
-/
namespace KVRPC.Server

open Library Net

variable {ε : Type} {t : TcpServer ε} {s s' : State} {c : Nat} {v w : View}

structure Outbox (p : Peer) : Prop where
  chunks : ∀ b ∈ p.output, b ≠ []
  cursor : ∀ b rest, p.output = b :: rest → p.sent < b.length
  reset : p.output = [] → p.sent = 0
  total : p.outputBytes + p.sent = p.output.flatten.length

namespace Outbox

variable {p q : Peer}

theorem congr (h : Outbox p) (output : q.output = p.output) (sent : q.sent = p.sent)
    (bytes : q.outputBytes = p.outputBytes) : Outbox q := by
  refine ⟨?_, ?_, ?_, ?_⟩
  all_goals rw [output]
  · exact h.chunks
  · rw [sent]
    exact h.cursor
  · rw [sent]
    exact h.reset
  · rw [sent, bytes]
    exact h.total

theorem wrote (h : Outbox v.conn.peer) {bytes : Bytes} {rest : List Bytes} {n : Nat}
    (front : v.conn.peer.output = bytes :: rest) (fits : n ≤ usub bytes.length v.conn.peer.sent) :
    Outbox (v.wrote c bytes rest n).conn.peer := by
  have inside := h.cursor bytes rest front
  have total := h.total
  rw [usub_of_le inside.le] at fits
  rw [front, List.flatten_cons, List.length_append] at total
  have left : usub v.conn.peer.outputBytes n = v.conn.peer.outputBytes - n :=
    usub_of_le (by omega)
  unfold View.wrote
  split
  case isTrue done =>
    refine ⟨fun b mem => h.chunks b ?_, ?_, fun _ => rfl, ?_⟩
    · rw [front]
      exact List.mem_cons_of_mem _ mem
    · intro b more split
      have nonempty : b ≠ [] := by
        apply h.chunks b
        rw [front]
        exact List.mem_cons_of_mem _ ((show rest = b :: more from split) ▸ List.mem_cons_self)
      exact List.length_pos_iff.mpr nonempty
    · simp only [View.popFront, View.deadline, View.advance, left]
      omega
  case isFalse more =>
    refine ⟨h.chunks, ?_, ?_, ?_⟩
    · intro b others split
      have same := front.symm.trans split
      cases same
      simp only [View.advance]
      omega
    · intro none
      simp [View.advance, front] at none
    · simp only [View.advance, left, front, List.flatten_cons, List.length_append]
      omega

/-- A reply joins the output. -/
theorem absorb (h : Outbox v.conn.peer) (job : Job Completion) (reply : Reply) :
    Outbox (v.absorb job reply).conn.peer := by
  have total := h.total
  by_cases none : reply.bytes = []
  · apply h.congr
    all_goals simp [View.absorb, none]
  · have output : (v.absorb job reply).conn.peer.output =
        v.conn.peer.output ++ [reply.bytes] := by simp [View.absorb, none]
    have sent : (v.absorb job reply).conn.peer.sent = v.conn.peer.sent := rfl
    refine ⟨?_, ?_, ?_, ?_⟩
    all_goals rw [output]
    · intro b mem
      obtain old | new := List.mem_append.mp mem
      · exact h.chunks b old
      · rwa [List.mem_singleton.mp new]
    · intro b rest split
      rw [sent]
      cases before : v.conn.peer.output with
      | nil =>
        rw [before] at split
        cases split
        rw [h.reset before]
        exact List.length_pos_iff.mpr none
      | cons b' rest' =>
        rw [before] at split
        cases split
        exact h.cursor b rest' before
    · simp
    · rw [sent]
      simp only [View.absorb, List.flatten_append, List.length_append, List.flatten_cons,
        List.flatten_nil, List.append_nil]
      omega

/-- Nothing is left to send when the output is empty. -/
theorem outputBytes_eq_zero (h : Outbox p) (empty : p.output = []) : p.outputBytes = 0 := by
  have total := h.total
  rw [empty, List.flatten_nil, List.length_nil] at total
  omega

end Outbox

structure Orderly (t : TcpServer ε) (conn : Connection) : Prop where
  outbox : Outbox conn.peer
  incomplete : conn.peer.incomplete = true →
    t.sizer = none ∧ conn.refused = some conn.peer.input.contents
  unclosed : conn.peer.closed = false → conn.closedBy = none
  ended : conn.closedBy = some .endOfStream →
    conn.peer.eof = true ∧ conn.peer.pending = 0 ∧ conn.peer.output = []

namespace Orderly

/-- The books of a connection that has not been closed. -/
theorem of_open {conn : Connection} (outbox : Outbox conn.peer)
    (incomplete : conn.peer.incomplete = true →
      t.sizer = none ∧ conn.refused = some conn.peer.input.contents)
    (unclosed : conn.closedBy = none) : Orderly t conn :=
  ⟨outbox, incomplete, fun _ => unclosed, by simp [unclosed]⟩

theorem close (h : Orderly t v.conn) (alive : v.conn.peer.closed = false) {reason : CloseReason}
    (why : reason = .endOfStream →
      v.conn.peer.eof = true ∧ v.conn.peer.pending = 0 ∧ v.conn.peer.output = []) :
    Orderly t (v.close reason).conn := by
  rw [View.conn_close alive]
  exact ⟨h.outbox.congr rfl rfl rfl, h.incomplete, by simp, fun same => why (by simpa using same)⟩

/-- Offered input is input the handler has not refused. -/
theorem offer (h : Orderly t v.conn) (alive : v.conn.peer.closed = false) {size : Nat}
    (cuts : v.Cuts t size) : Orderly t (v.offer t size).conn := by
  refine of_open (h.outbox.congr rfl rfl rfl) ?_ (h.unclosed alive)
  intro incomplete
  have fresh : (v.offer t size).conn.peer.incomplete = false := cuts.offers.fresh
  rw [fresh] at incomplete
  cases incomplete

theorem move (h : Orderly t v.conn) (alive : v.conn.peer.closed = false)
    (m : View.Move t c v w) : Orderly t w.conn := by
  have unclosed := h.unclosed alive
  cases m with
  | @wrote bytes rest n front _ fits =>
    refine of_open (h.outbox.wrote front fits) ?_ ?_
    all_goals unfold View.wrote
    · split <;> exact h.incomplete
    · split <;> exact unclosed
  | received _ _ _ _ _ =>
    exact of_open (h.outbox.congr rfl rfl rfl) (by simp [View.received]) unclosed
  | ended _ _ => exact of_open (h.outbox.congr rfl rfl rfl) h.incomplete unclosed
  | accepted cuts _ => exact h.offer alive cuts
  | @rejected size cuts _ =>
    have offered : Orderly t
        ({ v.offer t size with stats.rejected := v.stats.rejected + 1 } : View).conn :=
      h.offer alive cuts
    exact offered.close alive (by rintro ⟨⟩)
  | closed may =>
    apply h.close alive
    rintro rfl
    exact may
  | scheduled =>
    unfold View.schedule
    split
    · exact h
    · exact of_open (h.outbox.congr rfl rfl rfl) h.incomplete unclosed
  | interest _ => exact h

/-- A reply arrives. Input the handler reports incomplete is all there is. -/
theorem absorb (h : Orderly t v.conn) (alive : v.conn.peer.closed = false)
    {flights : List (Job Completion)} (served : Served t v.conn flights)
    {job : Job Completion} (member : job ∈ flights) (reply : Reply) :
    Orderly t (v.retract.absorb job reply).conn := by
  have outbox : Outbox v.retract.conn.peer := h.outbox.congr rfl rfl rfl
  refine of_open (outbox.absorb job reply) ?_ (h.unclosed alive)
  have framed := served.framed job member
  cases installed : t.sizer with
  | some sizer =>
    simp only [View.absorb, View.retract, framed, installed, Option.isSome_some, if_true]
    intro incomplete
    have := (h.incomplete incomplete).1
    simp [installed] at this
  | none =>
    have whole := (served.whole installed alive job member).1
    simp only [View.absorb, View.retract, framed, installed, Option.isSome_none,
      Bool.false_eq_true, if_false, decide_eq_true_eq, not_false_eq_true, true_and]
    intro refused
    simp [refused, whole, Buffer.contents_consume]

theorem turn {conn conn' : Connection} {flights : List (Job Completion)} (h : Orderly t conn)
    (served : Served t conn flights) (turn : Turn t c conn flights conn') : Orderly t conn' := by
  cases turn with
  | rest => exact h
  | move own alive m =>
    subst own
    exact h.move alive m
  | wire _ _ _ => exact ⟨h.outbox.congr rfl rfl rfl, h.incomplete, h.unclosed, h.ended⟩
  | @refuse v own alive _ _ =>
    subst own
    have retracted : Orderly t v.retract.conn :=
      of_open (h.outbox.congr rfl rfl rfl) h.incomplete (h.unclosed alive)
    exact retracted.close alive (by rintro ⟨⟩)
  | absorb own alive _ member reply _ =>
    subst own
    exact h.absorb alive served member reply

theorem act (h : ∀ c, Orderly t (s.conns c)) (base : Base t s) (served : AllServed t s)
    (act : Act t s s') (c : Nat) : Orderly t (s'.conns c) :=
  (h c).turn (served c) (act.turn base c)

theorem initial : Orderly t {} :=
  of_open ⟨by simp, by simp, fun _ => rfl, rfl⟩ (by simp) rfl

end Orderly
end KVRPC.Server
