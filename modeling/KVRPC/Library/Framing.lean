import KVRPC.Library.Bytes
import KVRPC.Library.Records

/-!
# Frames cut from a stream by a sizer

A sizer looks at the octets received so far. It answers `0` when it cannot tell yet how
long the frame at the front is, an error when no frame starts there, and the length of the
frame otherwise. A sizer whose verdicts are final cuts a stream into frames in one way,
however the stream arrives.
-/
namespace KVRPC.Library.Framing

variable {ε : Type*}

abbrev Sizer (ε : Type*) := Bytes → Except ε Nat

/-- Verdicts other than "not yet" are final, and the octets of a frame determine its length. -/
structure Lawful (sizer : Sizer ε) : Prop where
  empty : sizer [] = .ok 0
  final : ∀ {bs : Bytes}, sizer bs ≠ .ok 0 → ∀ more, sizer (bs ++ more) = sizer bs
  whole : ∀ {bs : Bytes} {n : Nat}, sizer bs = .ok n → 0 < n → n ≤ bs.length →
    sizer (bs.take n) = .ok n

/-- The octets are one frame. -/
def Frame (sizer : Sizer ε) (bs : Bytes) : Prop := bs ≠ [] ∧ sizer bs = .ok bs.length

instance [DecidableEq ε] (sizer : Sizer ε) (bs : Bytes) : Decidable (Frame sizer bs) :=
  inferInstanceAs (Decidable (bs ≠ [] ∧ sizer bs = .ok bs.length))

/-- The sizer finds a complete frame of `n` octets at the front. -/
def Complete (sizer : Sizer ε) (bs : Bytes) (n : Nat) : Prop :=
  sizer bs = .ok n ∧ 0 < n ∧ n ≤ bs.length

/-- A frame taken off the front of the stream. -/
def cut (sizer : Sizer ε) (bs : Bytes) : Option (Bytes × Bytes) :=
  match sizer bs with
  | .ok n => if 0 < n ∧ n ≤ bs.length then some (bs.take n, bs.drop n) else none
  | .error _ => none

/-- The frames of the stream and the octets after the last complete one. -/
def parse (sizer : Sizer ε) (stream : Bytes) : List Bytes × Bytes :=
  Records.scan (cut sizer) stream

/-- `frames` and `rest` are a decomposition of the stream into frames that cannot go on. -/
structure Parse (sizer : Sizer ε) (stream : Bytes) (frames : List Bytes) (rest : Bytes) : Prop where
  split : stream = frames.flatten ++ rest
  frame : ∀ f ∈ frames, Frame sizer f
  stop : ∀ n, ¬ Complete sizer rest n

variable {sizer : Sizer ε}

/-- A sizer that waits for a header of `size` octets, judges by it alone and counts it in. -/
theorem lawful_of_header (size : Nat) (positive : 0 < size)
    (short : ∀ bs, bs.length < size → sizer bs = .ok 0)
    (header : ∀ bs, size ≤ bs.length → ∀ more, sizer (bs ++ more) = sizer bs)
    (counted : ∀ bs n, size ≤ bs.length → sizer bs = .ok n → size ≤ n) : Lawful sizer where
  empty := short [] positive
  final := by
    intro bs settled more
    apply header
    by_contra less
    exact settled (short bs (by omega))
  whole := by
    intro bs n result nonzero enough
    have long : size ≤ bs.length := by
      by_contra less
      rw [short bs (by omega)] at result
      cases result
      omega
    have atLeast := counted bs n long result
    have stable := header (bs.take n) (by simp; omega) (bs.drop n)
    rw [List.take_append_drop] at stable
    exact stable ▸ result

theorem cut_of_complete {bs : Bytes} {n : Nat} (h : Complete sizer bs n) :
    cut sizer bs = some (bs.take n, bs.drop n) := by
  obtain ⟨size, positive, enough⟩ := h
  simp [cut, size, positive, enough]

theorem cut_eq_some {bs f rest : Bytes} (h : cut sizer bs = some (f, rest)) :
    ∃ n, Complete sizer bs n ∧ f = bs.take n ∧ rest = bs.drop n := by
  unfold cut at h
  split at h
  case h_2 => cases h
  case h_1 n size =>
    split at h
    case isFalse => cases h
    case isTrue room =>
      cases h
      exact ⟨n, ⟨size, room⟩, rfl, rfl⟩

theorem cut_eq_none_iff {bs : Bytes} : cut sizer bs = none ↔ ∀ n, ¬ Complete sizer bs n := by
  constructor
  · intro none_cut n complete
    simp [cut_of_complete complete] at none_cut
  · intro none_complete
    by_contra some_cut
    obtain ⟨⟨f, rest⟩, h⟩ := Option.ne_none_iff_exists'.mp some_cut
    obtain ⟨n, complete, -⟩ := cut_eq_some h
    exact none_complete n complete

theorem Frame.complete {f : Bytes} (h : Frame sizer f) : Complete sizer f f.length :=
  ⟨h.2, List.length_pos_iff.mpr h.1, le_rfl⟩

theorem Complete.frame (lawful : Lawful sizer) {bs : Bytes} {n : Nat} (h : Complete sizer bs n) :
    Frame sizer (bs.take n) := by
  obtain ⟨size, positive, enough⟩ := h
  have len : (bs.take n).length = n := by simp [enough]
  refine ⟨?_, ?_⟩
  · apply List.length_pos_iff.mp
    omega
  · rw [len]
    exact lawful.whole size positive enough

theorem Complete.append (lawful : Lawful sizer) {bs : Bytes} {n : Nat} (h : Complete sizer bs n)
    (more : Bytes) : Complete sizer (bs ++ more) n := by
  obtain ⟨size, positive, enough⟩ := h
  have settled : sizer bs ≠ .ok 0 := by
    rw [size]
    intro zero
    cases zero
    omega
  exact ⟨(lawful.final settled more).trans size, positive, by simp; omega⟩

/-- What the sizer says about a part of a stream that begins with a frame. -/
theorem Frame.front (lawful : Lawful sizer) {f bs more rest : Bytes} (h : Frame sizer f)
    (split : bs ++ more = f ++ rest) : sizer bs = .ok 0 ∨ sizer bs = .ok f.length := by
  by_cases early : sizer bs = .ok 0
  · exact .inl early
  · right
    have settled : sizer f ≠ .ok 0 := by
      rw [h.2]
      intro zero
      exact h.1 (List.length_eq_zero_iff.mp (Except.ok.inj zero))
    rw [← lawful.final early more, split, lawful.final settled rest, h.2]

theorem Frame.record (lawful : Lawful sizer) {f : Bytes} (h : Frame sizer f) :
    Records.Record (cut sizer) f f := by
  refine ⟨h.1, fun rest => ?_⟩
  have complete := h.complete.append lawful rest
  simp [cut_of_complete complete]

theorem frame_of_record (lawful : Lawful sizer) {f r : Bytes}
    (h : Records.Record (cut sizer) f r) : f = r ∧ Frame sizer f := by
  obtain ⟨n, complete, rfl, rest⟩ := cut_eq_some (h.2 [])
  refine ⟨?_, complete.frame lawful⟩
  rw [List.append_nil] at rest ⊢
  exact List.take_of_length_le (List.drop_eq_nil_iff.mp rest.symm)

theorem selfDelimiting (lawful : Lawful sizer) : Records.SelfDelimiting (cut sizer) := by
  intro xs f rest h
  obtain ⟨n, complete, rfl, rfl⟩ := cut_eq_some h
  exact ⟨xs.take n, (List.take_append_drop n xs).symm, (complete.frame lawful).record lawful⟩

theorem records_of_frames (lawful : Lawful sizer) {frames : List Bytes}
    (h : ∀ f ∈ frames, Frame sizer f) :
    List.Forall₂ (Records.Record (cut sizer)) frames frames := by
  apply List.forall₂_same.mpr
  intro f hf
  exact (h f hf).record lawful

/-- A stream falls apart into frames in exactly one way. -/
theorem parse_eq (lawful : Lawful sizer) {stream rest : Bytes} {frames : List Bytes}
    (h : Parse sizer stream frames rest) : parse sizer stream = (frames, rest) := by
  rw [h.split]
  exact Records.scan_eq_of_records (selfDelimiting lawful) (records_of_frames lawful h.frame)
    (cut_eq_none_iff.mpr h.stop)

theorem parse_spec (lawful : Lawful sizer) (stream : Bytes) :
    Parse sizer stream (parse sizer stream).1 (parse sizer stream).2 := by
  obtain ⟨rs, records, split, stop⟩ := Records.scan_sound (selfDelimiting lawful) stream
  have same : List.Forall₂ (fun f r => f = r ∧ Frame sizer f) (parse sizer stream).1 rs :=
    records.imp fun f r record => frame_of_record lawful record
  obtain rfl : (parse sizer stream).1 = rs := by
    have pointwise := same.imp fun _ _ h => h.1
    rwa [List.forall₂_eq_eq_eq] at pointwise
  refine ⟨split, fun f hf => ?_, cut_eq_none_iff.mp stop⟩
  exact (List.forall₂_same.mp same f hf).2

/-- Frames cut so far are a prefix of the frames of the whole stream, whatever comes later. -/
theorem frames_prefix (lawful : Lawful sizer) {received stream rest parsed : Bytes}
    {frames whole : List Bytes} (arrived : received <+: stream)
    (split : received = frames.flatten ++ rest) (frame : ∀ f ∈ frames, Frame sizer f)
    (all : Parse sizer stream whole parsed) : frames <+: whole := by
  obtain ⟨later, rfl⟩ := arrived
  have prefixed := Records.records_prefix_scan (selfDelimiting lawful)
    (records_of_frames lawful frame)
    (show received ++ later = frames.flatten ++ (rest ++ later) by rw [split, List.append_assoc])
  change frames <+: (parse sizer (received ++ later)).1 at prefixed
  rwa [parse_eq lawful all] at prefixed

end KVRPC.Library.Framing
