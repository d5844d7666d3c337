import KVRPC.Aof.Recovery

/-!
# Which files replay accepts

A log file is opened by the constructor and then replayed. `LogFile.replay` runs both;
by `LogFile.replay_eq` the outcome depends on the contents alone. The main result says
that replay accepts exactly the concatenations of records, and that it always delivers
the records of the longest such concatenation at the front of the file.
-/
namespace KVRPC.Aof

open Library Records

variable {β : Type}

namespace AofLogger

/-- Construct the logger and replay its log. -/
def recover (callback : Callback β) : ReplayM β Unit := do
  onLogger construct
  replay callback

/-- A callback together with the list of the mutations it has been called with. -/
def observed (callback : Callback β) : Callback (List Mutation × β) := fun m s =>
  ((callback m s.2).1, (s.1 ++ [m], (callback m s.2).2))

end AofLogger

/-- A regular file with contents `B` under the log's name, within the size limit. -/
structure LogFile (B : Bytes) where
  filename : String
  maxBytes : Nat
  fs : Fs
  bound : fs.Bound filename
  named : fs.named filename = some B
  fits : B.length ≤ maxBytes

namespace LogFile

variable {B : Bytes}

/-- What the caller of `replay` observes on this file: the result and the state of the
callback. -/
def replay (f : LogFile B) (o : Oracle) (callback : AofLogger.Callback β) (b : β) :
    Res Exception Unit × β :=
  let stop := AofLogger.recover callback o (AofLogger.initial f.filename f.maxBytes f.fs [], b)
  (stop.1, stop.2.2.2)

theorem replay_eq (f : LogFile B) {o : Oracle} (ho : o.NoFailure)
    (callback : AofLogger.Callback β) (b : β) :
    f.replay o callback b = replayOutcome callback B b := by
  have content : (f.fs.named f.filename).getD [] = B := by rw [f.named]; rfl
  have run : Sys.wp .faultless (AofLogger.recover callback)
      (fun r s => (r, s.2) = replayOutcome callback B b)
      (AofLogger.initial f.filename f.maxBytes f.fs [], b) := by
    refine Sys.wp_bind (AofLogger.wp_onLogger
      ((AofLogger.wp_construct f.filename f.maxBytes [] f.bound).mono ?_))
    rintro r l (⟨rfl, opened⟩ | ⟨_, _, bad⟩)
    · have file : l.fs.content l.fd = B := opened.file_eq.trans content
      refine (AofLogger.wp_replay callback b).mono ?_
      rintro r s (⟨_, _, started | faulty⟩ | ⟨_, replayed⟩)
      · rw [opened.started_eq] at started
        cases started
      · cases faulty
      · have whole : 0 + l.bytes = (l.fs.content l.fd).length := by
          rw [Nat.zero_add]
          exact opened.bytes_eq
        simpa [file] using replayed.outcome (Or.inl rfl) whole
    · rw [content] at bad
      have := f.fits
      rcases bad with faulty | long
      · cases faulty
      · omega
  exact run.run ho

end LogFile

/-! ## Delivery -/

theorem deliver_observed {callback : AofLogger.Callback β}
    (quiet : ∀ m b, (callback m b).1 = .ok ()) (ms seen : List Mutation) (b : β) :
    ∃ b', deliver (AofLogger.observed callback) ms (seen, b) = (.ok (), (seen ++ ms, b')) := by
  induction ms generalizing seen b with
  | nil => exact ⟨b, by simp [deliver]⟩
  | cons m ms ih =>
    obtain ⟨b', hb⟩ := ih (seen ++ [m]) (callback m b).2
    refine ⟨b', ?_⟩
    rw [deliver]
    simp only [AofLogger.observed, quiet m b]
    rw [hb, List.append_assoc]
    rfl

/-- With a callback that never throws, the records at the front decide what is delivered and
the rest of the file decides how replay ends. -/
theorem replayOutcome_observed {callback : AofLogger.Callback β}
    (quiet : ∀ m b, (callback m b).1 = .ok ()) (B : Bytes) (b : β) :
    (replayOutcome (AofLogger.observed callback) B ([], b)).1 = remainder (scan parse B).2 ∧
      (replayOutcome (AofLogger.observed callback) B ([], b)).2.1 = (scan parse B).1 := by
  obtain ⟨b', hb⟩ := deliver_observed quiet (scan parse B).1 [] b
  unfold replayOutcome
  rw [hb]
  exact ⟨rfl, rfl⟩

/-! ## Streams of records -/

theorem forall₂_record_iff {ms : List Mutation} {rs : List Bytes} :
    List.Forall₂ (Record parse) ms rs ↔ List.Forall₂ IsRecord ms rs := by
  constructor <;> refine List.Forall₂.imp fun _ _ h => ?_
  · exact record_iff_isRecord.mp h
  · exact record_iff_isRecord.mpr h

/-- The file is a concatenation of records that carry `ms` in order. -/
def Encodes (ms : List Mutation) (B : Bytes) : Prop :=
  ∃ rs, List.Forall₂ IsRecord ms rs ∧ B = rs.flatten

theorem encodes_iff_scan {ms : List Mutation} {B : Bytes} :
    Encodes ms B ↔ scan parse B = (ms, []) := by
  rw [scan_eq_iff parse_selfDelimiting]
  simp only [Encodes, forall₂_record_iff]

theorem encodes_nil : Encodes [] [] := ⟨[], .nil, rfl⟩

theorem Encodes.append {xs ys : List Mutation} {A B : Bytes} (h : Encodes xs A)
    (g : Encodes ys B) : Encodes (xs ++ ys) (A ++ B) := by
  obtain ⟨rs, hrs, rfl⟩ := h
  obtain ⟨ts, hts, rfl⟩ := g
  exact ⟨rs ++ ts, List.rel_append hrs hts, List.flatten_append.symm⟩

theorem encodes_records {ms : List Mutation} (h : ∀ m ∈ ms, Loggable m) :
    Encodes ms (records ms) := by
  refine ⟨ms.map record, ?_, rfl⟩
  rw [List.forall₂_map_right_iff, List.forall₂_same]
  exact fun m hm => ⟨h m hm, Or.inl rfl⟩

theorem Encodes.loggable {ms : List Mutation} {B : Bytes} (h : Encodes ms B) :
    ∀ m ∈ ms, Loggable m := by
  obtain ⟨rs, hrs, _⟩ := h
  exact ((List.forall₂_and_left _ _).mp hrs).1

theorem IsRecord.encode_of_tagged {m : Mutation} {r : Bytes} (h : IsRecord m r)
    (tagged : r.take 4 = recordMagic) : encode m = .ok r := by
  obtain ⟨hl, rfl | rfl⟩ := h
  · exact encode_of_loggable hl
  · have := payload_not_tagged m []
    rw [List.append_nil] at this
    exact absurd tagged this

theorem encodes_of_encode {ms : List Mutation} {rs : List Bytes}
    (h : List.Forall₂ (fun m r => encode m = .ok r) ms rs) : Encodes ms rs.flatten := by
  refine ⟨rs, h.imp fun m r he => ?_, rfl⟩
  obtain ⟨hl, rfl⟩ := encode_ok_iff.mp he
  exact ⟨hl, Or.inl rfl⟩

/-- **Exact acceptance and unambiguity.** -/
theorem replay_exact {callback : AofLogger.Callback β} (quiet : ∀ m b, (callback m b).1 = .ok ())
    {B : Bytes} (f : LogFile B) {o : Oracle} (ho : o.NoFailure) (b : β) :
    let result := (f.replay o (AofLogger.observed callback) ([], b)).1
    let delivered := (f.replay o (AofLogger.observed callback) ([], b)).2.1
    (∀ ms, (result = .ok () ∧ delivered = ms) ↔ Encodes ms B) ∧
    (∀ ms ms', Encodes ms B → Encodes ms' B → ms = ms') ∧
    (∀ ms rs, List.Forall₂ (fun m r => encode m = .ok r) ms rs → B = rs.flatten →
      result = .ok () ∧ delivered = ms) ∧
    (∀ ms rs, List.Forall₂ IsRecord ms rs → B = rs.flatten →
      List.Forall₂ (fun m r => r.take 4 = recordMagic → encode m = .ok r) ms rs) ∧
    (result ≠ .ok () →
      (∃ e, result = .throw e) ∧
      (∃ rs rest, List.Forall₂ IsRecord delivered rs ∧ B = rs.flatten ++ rest ∧
        ∀ m r rest', IsRecord m r → rest ≠ r ++ rest') ∧
      ∀ ms rs rest, List.Forall₂ IsRecord ms rs → B = rs.flatten ++ rest → ms <+: delivered) := by
  dsimp only
  rw [f.replay_eq ho]
  obtain ⟨result, delivered⟩ := replayOutcome_observed quiet B b
  rw [result, delivered]
  obtain ⟨rs, records, split, stop⟩ := scan_sound parse_selfDelimiting B
  have accepts : ∀ ms, (remainder (scan parse B).2 = .ok () ∧ (scan parse B).1 = ms) ↔
      Encodes ms B := by
    intro ms
    rw [remainder_ok_iff stop, encodes_iff_scan, Prod.ext_iff, and_comm]
  refine ⟨accepts, ?_, ?_, ?_, ?_⟩
  · intro ms ms' h h'
    exact ((accepts ms).mpr h).2.symm.trans ((accepts ms').mpr h').2
  · rintro ms rs h rfl
    exact (accepts ms).mpr (encodes_of_encode h)
  · intro ms rs h _
    exact h.imp fun m r hr => hr.encode_of_tagged
  · intro failed
    refine ⟨?_, ⟨rs, _, forall₂_record_iff.mp records, split, ?_⟩, ?_⟩
    · exact remainder_throw stop fun hnil => failed ((remainder_ok_iff stop).mpr hnil)
    · intro m r rest' hr heq
      rw [heq, (record_iff_isRecord.mpr hr).2 rest'] at stop
      cases stop
    · intro ms rs' rest' h split'
      exact records_prefix_scan parse_selfDelimiting (forall₂_record_iff.mpr h) split'

/-- The only file of its file system. -/
def LogFile.only (B : Bytes) : LogFile B where
  filename := "cache.aof"
  maxBytes := B.length
  fs := ⟨fun _ => B, fun _ => some 0, fun _ => ⟨0, false, 0⟩, 1⟩
  bound := by
    rintro _ ⟨⟩
    exact one_pos
  named := rfl
  fits := le_rfl

theorem replay_exact_single :
    ((LogFile.only (record ⟨.set, [1], [2]⟩)).replay (.next (.short 3) .reliable)
        (AofLogger.observed fun _ b => (.ok (), b)) ([], ())).1 = .ok () ∧
      ((LogFile.only (record ⟨.set, [1], [2]⟩)).replay (.next (.short 3) .reliable)
        (AofLogger.observed fun _ b => (.ok (), b)) ([], ())).2.1 = [⟨.set, [1], [2]⟩] := by
  have encodes : encode ⟨.set, [1], [2]⟩ = .ok (record ⟨.set, [1], [2]⟩) :=
    encode_of_loggable (by decide)
  exact (replay_exact (fun _ _ => rfl) (LogFile.only (record ⟨.set, [1], [2]⟩))
    (by trivial) ()).2.2.1 _ [record ⟨.set, [1], [2]⟩] (.cons encodes .nil) (by simp)

end KVRPC.Aof
