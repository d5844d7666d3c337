import KVRPC.Aof.LoggerSpec

/-!
# Opening and replaying a log

`replay` reads the file through the descriptor, a record at a time. `replayOutcome`
says the same on the octets of the file: the callback sees the records `scan` finds at
the front, and what is left over decides how replay ends.

1. Replay changes nothing but the descriptor's offset, however it ends.
2. Without faults its outcome is `replayOutcome` of the file.
3. The constructor opens the log for appending and leaves its contents alone.
-/
namespace KVRPC.Aof

open Library Records

variable {R : Regime} {β : Type}

/-! ## On octets -/

/-- The payload behind a header, taken from the octets that follow it. -/
def payloadOf (header body : Bytes) (remaining : Nat) : Except Exception (Bytes × Nat) :=
  if header.take 4 = recordMagic then do
    let length ← recordLength header remaining
    checkCrc header (body.take length)
    return (body.take length, length)
  else do
    let length ← legacyLength header remaining
    return (header ++ body.take length, length)

theorem readRecord_eq {stream : Bytes} (h : headerSize ≤ stream.length) :
    readRecord stream = (do
      let found ← payloadOf (stream.take headerSize) (stream.drop headerSize)
        (stream.length - headerSize)
      let m ← checkOperation found.1
      return (m, (stream.drop headerSize).drop found.2)) := by
  unfold readRecord payloadOf
  dsimp only
  rw [if_neg (by omega), List.length_drop]
  split
  · simp only [bind_assoc, pure_bind]
  · simp only [bind_assoc, pure_bind]

/-- Call the callback on each mutation until it throws. -/
def deliver (callback : AofLogger.Callback β) : List Mutation → β → Except Exception Unit × β
  | [], b => (.ok (), b)
  | m :: ms, b =>
    match callback m b with
    | (.ok (), b) => deliver callback ms b
    | (.error e, b) => (.error e, b)

/-- How replay ends once the octets `rest`, which start no record, are all that is left. -/
def remainder (rest : Bytes) : Res Exception Unit :=
  if rest = [] then .ok ()
  else match readRecord rest with
    | .error e => .throw e
    | .ok _ => .ok ()

def replayOutcome (callback : AofLogger.Callback β) (stream : Bytes) (b : β) :
    Res Exception Unit × β :=
  match deliver callback (scan parse stream).1 b with
  | (.ok (), b) => (remainder (scan parse stream).2, b)
  | (.error e, b) => (.throw e, b)

theorem replayOutcome_nil (callback : AofLogger.Callback β) (b : β) :
    replayOutcome callback [] b = (.ok (), b) := by
  unfold replayOutcome
  rw [scan_none parse_selfDelimiting.nil]
  rfl

theorem replayOutcome_error {callback : AofLogger.Callback β} {stream : Bytes} {b : β}
    {e : Exception} (hne : stream ≠ []) (h : readRecord stream = .error e) :
    replayOutcome callback stream b = (.throw e, b) := by
  have stop : parse stream = none := by rw [parse, h]; rfl
  simp [replayOutcome, scan_none stop, deliver, remainder, hne, h]

theorem replayOutcome_ok {callback : AofLogger.Callback β} {stream rest : Bytes} {b : β}
    {m : Mutation} (h : readRecord stream = .ok (m, rest)) :
    replayOutcome callback stream b =
      match callback m b with
      | (.ok (), b) => replayOutcome callback rest b
      | (.error e, b) => (.throw e, b) := by
  have first : parse stream = some (m, rest) := by rw [parse, h]; rfl
  simp only [replayOutcome, scan_some parse_selfDelimiting first, deliver]
  rcases callback m b with ⟨⟨⟩ | _, b'⟩ <;> rfl

theorem remainder_throw {rest : Bytes} (stop : parse rest = none) (hne : rest ≠ []) :
    ∃ e, remainder rest = .throw e := by
  unfold remainder
  rw [if_neg hne]
  cases hr : readRecord rest with
  | error e => exact ⟨e, rfl⟩
  | ok pair =>
    rw [parse, hr] at stop
    cases stop

/-- Octets that start no record make replay throw, unless there are none. -/
theorem remainder_ok_iff {rest : Bytes} (stop : parse rest = none) :
    remainder rest = .ok () ↔ rest = [] := by
  constructor
  · intro h
    by_contra hne
    obtain ⟨e, he⟩ := remainder_throw stop hne
    rw [he] at h
    cases h
  · intro h
    rw [remainder, if_pos h]

namespace AofLogger

/-! ## Through the descriptor -/

/-- The object with the offset of `fd` moved. -/
abbrev seek (l : AofLogger) (fd pos : Nat) : AofLogger := { l with fs := l.fs.setOffset fd pos }

theorem seek_self (l : AofLogger) (fd : Nat) : l.seek fd (l.fs.files fd).offset = l := by
  rw [seek, Fs.setOffset_self]

theorem wp_readPayload (fd : Nat) (header : Bytes) (remaining : Nat) (l : AofLogger)
    (h : (l.fs.files fd).offset ≤ (l.fs.content fd).length) :
    Sys.wp R (readPayload fd header remaining) (fun r l' => ∃ k,
      l' = l.seek fd ((l.fs.files fd).offset + k) ∧
      (l.fs.files fd).offset + k ≤ (l.fs.content fd).length ∧
      (∀ p n, r = .ok (p, n) → k = n ∧ n ≤ remaining) ∧
      (Conclusive R r → (l.fs.files fd).offset + remaining = (l.fs.content fd).length →
        r = .ofExcept
          (payloadOf header ((l.fs.content fd).drop (l.fs.files fd).offset) remaining))) l := by
  have stay : l = l.seek fd ((l.fs.files fd).offset + 0) := (seek_self l fd).symm
  -- A read inside the file only stops early in an environment with faults.
  have early : ∀ {length : Nat} {P : Prop}, length ≤ remaining →
      (R = .faulty ∨ (l.fs.content fd).length < (l.fs.files fd).offset + length ∧ P) →
      R = .faultless → (l.fs.files fd).offset + remaining = (l.fs.content fd).length → False := by
    rintro length P fits (faulty | ⟨short, _⟩) hR whole
    · exact absurd (faulty.symm.trans hR) (by decide)
    · omega
  unfold readPayload payloadOf
  split
  · refine Sys.wp_lift_bind ?_ fun e he => ⟨0, stay, h, by simp, fun _ _ => by rw [he]; rfl⟩
    intro length hl
    have fits := (recordLength_ok_iff.mp hl).2.2.2
    refine Sys.wp_bind (wp_onFs ((wp_readExact fd length l.fs h).mono ?_))
    rintro r _ ⟨k, rfl, hk, ⟨rfl, rfl⟩ | ⟨hne, stopped⟩⟩
    · refine Sys.wp_lift_bind ?_ fun e he => ⟨k, rfl, hk, by simp, fun _ _ => by
        rw [Res.throw_eq_ofExcept, hl]
        simp only [bind, Except.bind, he]⟩
      intro _ hc
      refine Sys.wp_pure ⟨k, rfl, hk, ?_, fun _ _ => ?_⟩
      · rintro p n hpn
        cases hpn
        exact ⟨rfl, fits⟩
      · rw [Res.ok_eq_ofExcept, hl]
        simp only [bind, Except.bind, hc]
        rfl
    · cases r with
      | ok a => exact absurd rfl (hne a)
      | throw e => exact ⟨k, rfl, hk, by simp, fun hc he =>
          (early fits stopped (hc.faultless (by simp)) he).elim⟩
      | crash => exact ⟨k, rfl, hk, by simp, fun hc he =>
          (early fits stopped (hc.faultless (by simp)) he).elim⟩
  · refine Sys.wp_lift_bind ?_ fun e he => ⟨0, stay, h, by simp, fun _ _ => by rw [he]; rfl⟩
    intro length hl
    have fits := (legacyLength_ok_iff.mp hl).2.2
    refine Sys.wp_bind (wp_onFs ((wp_readExact fd length l.fs h).mono ?_))
    rintro r _ ⟨k, rfl, hk, ⟨rfl, rfl⟩ | ⟨hne, stopped⟩⟩
    · refine Sys.wp_pure ⟨k, rfl, hk, ?_, fun _ _ => by rw [hl]; rfl⟩
      rintro p n hpn
      cases hpn
      exact ⟨rfl, fits⟩
    · cases r with
      | ok a => exact absurd rfl (hne a)
      | throw e => exact ⟨k, rfl, hk, by simp, fun hc he =>
          (early fits stopped (hc.faultless (by simp)) he).elim⟩
      | crash => exact ⟨k, rfl, hk, by simp, fun hc he =>
          (early fits stopped (hc.faultless (by simp)) he).elim⟩

/-- One round of the loop reads what `readRecord` finds in the unread part of the file. -/
theorem wp_readNext (fd remaining : Nat) (l : AofLogger) (hr : headerSize ≤ remaining)
    (h : (l.fs.files fd).offset ≤ (l.fs.content fd).length) :
    Sys.wp R (readNext fd remaining) (fun r l' => ∃ k,
      l' = l.seek fd ((l.fs.files fd).offset + k) ∧
      (l.fs.files fd).offset + k ≤ (l.fs.content fd).length ∧
      (∀ m n, r = .ok (m, n) → k = headerSize + n ∧ headerSize + n ≤ remaining) ∧
      (Conclusive R r → (l.fs.files fd).offset + remaining = (l.fs.content fd).length →
        match readRecord ((l.fs.content fd).drop (l.fs.files fd).offset) with
        | .error e => r = .throw e
        | .ok (m, rest) => ∃ n, r = .ok (m, n) ∧
            rest = (l.fs.content fd).drop ((l.fs.files fd).offset + (headerSize + n)))) l := by
  unfold readNext
  refine Sys.wp_bind (wp_onFs ((wp_readExact fd headerSize l.fs h).mono ?_))
  rintro r _ ⟨k, rfl, hk, ⟨rfl, rfl⟩ | ⟨hne, stopped⟩⟩
  · refine Sys.wp_bind ((wp_readPayload fd _ (remaining - headerSize)
      (l.seek fd ((l.fs.files fd).offset + headerSize)) (by simpa using hk)).mono ?_)
    simp only [Fs.setOffset_offset, Fs.setOffset_content]
    rintro r _ ⟨k, rfl, hk', hok, hexact⟩
    have unread : (l.fs.files fd).offset + remaining = (l.fs.content fd).length →
        headerSize ≤ ((l.fs.content fd).drop (l.fs.files fd).offset).length ∧
        ((l.fs.content fd).drop (l.fs.files fd).offset).length - headerSize =
          remaining - headerSize := by
      intro he
      rw [List.length_drop]
      omega
    have target : ∀ k, (l.seek fd ((l.fs.files fd).offset + headerSize)).seek fd
        ((l.fs.files fd).offset + headerSize + k) =
          l.seek fd ((l.fs.files fd).offset + (headerSize + k)) := by
      intro k
      simp [seek, Nat.add_assoc]
    rw [target]
    have found : Conclusive R r → (l.fs.files fd).offset + remaining = (l.fs.content fd).length →
        r = .ofExcept (payloadOf (((l.fs.content fd).drop (l.fs.files fd).offset).take headerSize)
          (((l.fs.content fd).drop (l.fs.files fd).offset).drop headerSize)
          (remaining - headerSize)) := by
      intro hR he
      rw [List.drop_drop]
      exact hexact hR (by omega)
    cases r with
    | ok pair =>
      obtain ⟨p, n⟩ := pair
      obtain ⟨rfl, fits⟩ := hok p n rfl
      refine Sys.wp_lift_bind ?_ ?_
      · intro m hm
        refine Sys.wp_pure ⟨_, rfl, by omega, ?_, ?_⟩
        · rintro _ _ ⟨⟩
          exact ⟨rfl, by omega⟩
        · intro _ he
          rw [readRecord_eq (unread he).1, (unread he).2,
            Res.ok_eq_ofExcept.mp (found (Or.inr ⟨_, rfl⟩) he)]
          dsimp only [bind, Except.bind]
          rw [hm]
          exact ⟨k, rfl, by rw [List.drop_drop, List.drop_drop]⟩
      · intro e hm
        refine ⟨_, rfl, by omega, by simp, ?_⟩
        intro _ he
        rw [readRecord_eq (unread he).1, (unread he).2,
          Res.ok_eq_ofExcept.mp (found (Or.inr ⟨_, rfl⟩) he)]
        dsimp only [bind, Except.bind]
        rw [hm]
    | throw e =>
      refine ⟨_, rfl, by omega, by simp, ?_⟩
      intro hc he
      have hR := hc.faultless (by simp)
      rw [readRecord_eq (unread he).1, (unread he).2,
        Res.throw_eq_ofExcept.mp (found (Or.inl hR) he)]
      rfl
    | crash =>
      exact ⟨_, rfl, by omega, by simp, fun hc he =>
        absurd (found (Or.inl (hc.faultless (by simp))) he) (Res.crash_ne_ofExcept _)⟩
  · have early : R = .faultless → (l.fs.files fd).offset + remaining = (l.fs.content fd).length →
        False := by
      rcases stopped with faulty | ⟨short, _⟩
      · exact fun hR => absurd (faulty.symm.trans hR) (by decide)
      · omega
    cases r with
    | ok a => exact absurd rfl (hne a)
    | throw e => exact ⟨k, rfl, hk, by simp, fun hc he =>
        (early (hc.faultless (by simp)) he).elim⟩
    | crash => exact ⟨k, rfl, hk, by simp, fun hc he =>
        (early (hc.faultless (by simp)) he).elim⟩

theorem wp_onLogger {α : Type} {m : AofM α} {Q : Res Exception α → AofLogger × β → Prop}
    {l : AofLogger} {b : β} (h : Sys.wp R m (fun r l' => Q r (l', b)) l) :
    Sys.wp R (onLogger m) Q (l, b) := Sys.wp_zoom h

theorem wp_invoke_bind {α : Type} {callback : Callback β} {m : Mutation} {f : Unit → ReplayM β α}
    {Q : Res Exception α → AofLogger × β → Prop} {l : AofLogger} {b : β}
    (hok : ∀ b', callback m b = (.ok (), b') → Sys.wp R (f ()) Q (l, b'))
    (herr : ∀ e b', callback m b = (.error e, b') → Q (.throw e) (l, b')) :
    Sys.wp R (invoke callback m >>= f) Q (l, b) := by
  refine Sys.wp_bind ?_
  intro o ho
  unfold invoke
  dsimp only
  rcases hc : callback m b with ⟨e | ⟨⟩, b'⟩
  · exact ⟨ho, herr e b' hc⟩
  · exact ⟨ho, hok b' hc⟩

/-- How a replay of `stream` through `fd` can end, when it started at the offset `start`. -/
structure ReplayResult (R : Regime) (callback : Callback β) (fd : Nat) (l : AofLogger) (b : β)
    (start remaining : Nat) (r : Res Exception Unit) (s : AofLogger × β) : Prop where
  moved : ∃ pos, s.1 = l.seek fd pos ∧ pos ≤ (l.fs.content fd).length ∧
    (r = .ok () → pos = start + remaining)
  outcome : Conclusive R r → start + remaining = (l.fs.content fd).length →
    (r, s.2) = replayOutcome callback ((l.fs.content fd).drop start) b

theorem wp_replayLoop (callback : Callback β) (fd remaining : Nat) (l : AofLogger) (b : β)
    (h : (l.fs.files fd).offset ≤ (l.fs.content fd).length) :
    Sys.wp R (replayLoop callback fd remaining)
      (ReplayResult R callback fd l b (l.fs.files fd).offset remaining) (l, b) := by
  induction remaining using Nat.strongRecOn generalizing l b with
  | ind remaining ih =>
    have stay : ∀ {r : Res Exception Unit}, r ≠ .ok () → ∃ pos, l = l.seek fd pos ∧
        pos ≤ (l.fs.content fd).length ∧ (r = .ok () → pos = (l.fs.files fd).offset + remaining) :=
      fun hne => ⟨_, (seek_self l fd).symm, h, fun hok => absurd hok hne⟩
    rw [replayLoop]
    split
    · rename_i done
      refine Sys.wp_pure ⟨⟨_, (seek_self l fd).symm, h, fun _ => by omega⟩, fun _ whole => ?_⟩
      rw [List.drop_of_length_le (by omega), replayOutcome_nil]
    · rename_i some_left
      split
      · rename_i short
        refine Sys.wp_throw ⟨stay (by simp), fun _ whole => ?_⟩
        have len : ((l.fs.content fd).drop (l.fs.files fd).offset).length = remaining := by
          rw [List.length_drop]; omega
        refine (replayOutcome_error ?_ ?_).symm
        · intro hnil
          rw [hnil] at len
          exact some_left len.symm
        · unfold readRecord
          rw [if_pos (by omega)]
      · rename_i long
        refine Sys.wp_bind (wp_onLogger ((wp_readNext fd remaining l (by omega) h).mono ?_))
        rintro r _ ⟨k, rfl, hk, hok, hexact⟩
        cases r with
        | ok next =>
          obtain ⟨m, n⟩ := next
          obtain ⟨rfl, fits⟩ := hok m n rfl
          have read : (l.fs.files fd).offset + remaining = (l.fs.content fd).length →
              readRecord ((l.fs.content fd).drop (l.fs.files fd).offset) =
                .ok (m, (l.fs.content fd).drop ((l.fs.files fd).offset + (headerSize + n))) := by
            intro whole
            have found := hexact (Or.inr ⟨_, rfl⟩) whole
            split at found
            · cases found
            · rename_i heq
              obtain ⟨_, ⟨⟩, rfl⟩ := found
              exact heq
          refine wp_invoke_bind ?_ ?_
          · intro b' hb
            refine (ih (remaining - headerSize - n) (by unfold headerSize at long ⊢; omega)
              (l.seek fd ((l.fs.files fd).offset + (headerSize + n))) b'
              (by simpa using hk)).mono ?_
            simp only [Fs.setOffset_offset]
            rintro r s ⟨⟨pos, hpos, hle, hend⟩, hout⟩
            simp only [Fs.setOffset_content, seek, Fs.setOffset_setOffset] at hpos hle hout
            refine ⟨⟨pos, hpos, hle, fun hr => by have := hend hr; omega⟩, fun hc whole => ?_⟩
            rw [hout hc (by omega), replayOutcome_ok (read whole), hb]
          · intro e b' hb
            refine ⟨⟨_, rfl, hk, by simp⟩, fun _ whole => ?_⟩
            rw [replayOutcome_ok (read whole), hb]
        | throw e =>
          refine ⟨⟨_, rfl, hk, by simp⟩, fun hc whole => ?_⟩
          have found := hexact (Or.inl (hc.faultless (by simp))) whole
          split at found
          · rename_i heq
            cases found
            refine (replayOutcome_error ?_ heq).symm
            intro hnil
            have := congrArg List.length hnil
            rw [List.length_drop, List.length_nil] at this
            omega
          · obtain ⟨_, ⟨⟩, _⟩ := found
        | crash =>
          refine ⟨⟨_, rfl, hk, by simp⟩, fun hc whole => ?_⟩
          have found := hexact (Or.inl (hc.faultless (by simp))) whole
          split at found
          · cases found
          · obtain ⟨_, ⟨⟩, _⟩ := found

/-- A call of `replay` either is refused, leaving everything as it was, or reads the log
from its start. -/
theorem wp_replay (callback : Callback β) {l : AofLogger} (b : β) :
    Sys.wp R (replay callback) (fun r s =>
      (s = (l, b) ∧ r ≠ .ok () ∧ (l.started = true ∨ R = .faulty)) ∨
        (l.started = false ∧ ReplayResult R callback l.fd l b 0 l.bytes r s)) (l, b) := by
  unfold replay
  refine Sys.wp_get_bind ?_
  dsimp only
  split
  · exact Sys.wp_throw (Or.inl ⟨rfl, by simp, Or.inl ‹_›⟩)
  rename_i stopped
  rw [Bool.not_eq_true] at stopped
  refine Sys.wp_bind (wp_onLogger (wp_onFs (Sys.wp_call ?_ fun hR => ⟨?_, ?_⟩)))
  · refine (wp_replayLoop callback l.fd l.bytes (l.seek l.fd 0) b (by simp)).mono ?_
    simp only [Fs.setOffset_offset]
    rintro r s ⟨⟨pos, hpos, hle, hend⟩, hout⟩
    simp only [Fs.setOffset_content, seek, Fs.setOffset_setOffset] at hpos hle hout
    exact Or.inr ⟨stopped, ⟨pos, hpos, hle, hend⟩, hout⟩
  · exact Sys.wp_throw (Or.inl ⟨rfl, by simp, Or.inr hR⟩)
  · exact Or.inl ⟨rfl, by simp, Or.inr hR⟩

/-! ## The constructor -/

/-- The object the constructor leaves when it returns. -/
structure Opened (filename : String) (maxBytes : Nat) (fs : Fs) (trace : List Event)
    (l : AofLogger) : Prop where
  attached : l.Attached
  append : (l.fs.files l.fd).append = true
  file_eq : l.file = (fs.named filename).getD []
  bytes_eq : l.bytes = l.file.length
  bytes_le : l.bytes ≤ maxBytes
  filename_eq : l.filename = filename
  maxBytes_eq : l.maxBytes = maxBytes
  rewrittenAt_eq : l.rewrittenAt = 0
  failed_eq : l.failed = false
  started_eq : l.started = false
  stats_eq : l.stats = { bytes := l.file.length }
  trace_eq : l.trace = trace

/-- The constructor did not return and the log is as it was. -/
structure NotOpened (filename : String) (maxBytes : Nat) (fs : Fs) (trace : List Event)
    (l : AofLogger) : Prop where
  disk_eq : (l.fs.named filename).getD [] = (fs.named filename).getD []
  bound : l.fs.Bound filename
  trace_eq : l.trace = trace

theorem lockName_ne (filename : String) : filename ++ ".lock" ≠ filename := by
  intro h
  have := congrArg String.length h
  rw [String.length_append] at this
  have five : ".lock".length = 5 := rfl
  omega

theorem wp_construct (filename : String) (maxBytes : Nat) {fs : Fs} (trace : List Event)
    (hb : fs.Bound filename) :
    Sys.wp R construct (fun r l =>
      (r = .ok () ∧ Opened filename maxBytes fs trace l) ∨
        (r ≠ .ok () ∧ NotOpened filename maxBytes fs trace l ∧
          (R = .faulty ∨ maxBytes < ((fs.named filename).getD []).length)))
      (initial filename maxBytes fs trace) := by
  have hne := lockName_ne filename
  set fs₁ := fs.openFile (filename ++ ".lock") false with hfs₁
  set fs₂ := fs₁.openFile filename true with hfs₂
  have hb₁ : fs₁.Bound filename := Fs.openFile_bound_of_ne false hne hb
  have same₁ : fs₁.named filename = fs.named filename := Fs.openFile_named_of_ne false hne hb
  have content₂ : fs₂.content (fs₂.fresh - 1) = (fs.named filename).getD [] := by
    rw [← same₁]
    exact Fs.openFile_content fs₁ filename true
  have file₂ : fs₂.files (fs₂.fresh - 1) = ⟨(fs₁.create filename).1, true, 0⟩ :=
    Fs.openFile_file fs₁ filename true
  have name₂ : fs₂.names filename = some (fs₁.create filename).1 :=
    Fs.openFile_name fs₁ filename true
  have inode₂ : (fs₁.create filename).1 < fs₂.fresh := (Fs.create_lt hb₁).trans (Nat.lt_succ_self _)
  have same₂ : (fs₂.named filename).getD [] = (fs.named filename).getD [] := by
    rw [← content₂, Fs.content, file₂, Fs.named, name₂]
    rfl
  have bound₂ : fs₂.Bound filename := by
    intro inode hi
    rw [name₂] at hi
    cases hi
    exact inode₂
  -- The three file systems an unsuccessful call can leave all show the same log.
  have stop : ∀ (l : AofLogger) (r : Res Exception Unit), r ≠ .ok () → l.trace = trace →
      (l.fs = fs ∨ l.fs = fs₁ ∨ l.fs = fs₂) →
      (R = .faulty ∨ maxBytes < ((fs.named filename).getD []).length) →
      (r = .ok () ∧ Opened filename maxBytes fs trace l) ∨
        (r ≠ .ok () ∧ NotOpened filename maxBytes fs trace l ∧
          (R = .faulty ∨ maxBytes < ((fs.named filename).getD []).length)) := by
    rintro l r hr ht hfs why
    refine Or.inr ⟨hr, ?_, why⟩
    rcases hfs with h | h | h
    · exact ⟨by rw [h], by rw [h]; exact hb, ht⟩
    · exact ⟨by rw [h, same₁], by rw [h]; exact hb₁, ht⟩
    · exact ⟨by rw [h, same₂], by rw [h]; exact bound₂, ht⟩
  unfold construct
  refine Sys.wp_get_bind (wp_onFs_call_bind ?_ fun hR =>
    ⟨Sys.wp_throw (stop _ _ (by simp) rfl (Or.inl rfl) (Or.inl hR)),
      stop _ _ (by simp) rfl (Or.inl rfl) (Or.inl hR)⟩)
  refine Sys.wp_modify_bind (wp_onFs_call_bind ?_ fun hR =>
    ⟨Sys.wp_throw (stop _ _ (by simp) rfl (Or.inr (Or.inl rfl)) (Or.inl hR)),
      stop _ _ (by simp) rfl (Or.inr (Or.inl rfl)) (Or.inl hR)⟩)
  refine wp_onFs_call_bind ?_ fun hR =>
    ⟨Sys.wp_throw (stop _ _ (by simp) rfl (Or.inr (Or.inl rfl)) (Or.inl hR)),
      stop _ _ (by simp) rfl (Or.inr (Or.inl rfl)) (Or.inl hR)⟩
  refine Sys.wp_modify_bind (wp_onFs_call_bind ?_ fun hR =>
    ⟨Sys.wp_throw (stop _ _ (by simp) rfl (Or.inr (Or.inr rfl)) (Or.inl hR)),
      stop _ _ (by simp) rfl (Or.inr (Or.inr rfl)) (Or.inl hR)⟩)
  refine Sys.wp_get_bind (wp_onFs_call_bind ?_ fun hR =>
    ⟨Sys.wp_throw (stop _ _ (by simp) rfl (Or.inr (Or.inr rfl)) (Or.inl hR)),
      stop _ _ (by simp) rfl (Or.inr (Or.inr rfl)) (Or.inl hR)⟩)
  split
  · rename_i accepted
    have fits : (fs₂.content (fs₂.fresh - 1)).length ≤ maxBytes := accepted.2
    refine Sys.wp_modify_bind (wp_onFs ((wp_syncDirectory _).mono ?_))
    rintro r _ ⟨rfl, hr⟩
    cases r with
    | ok a =>
      refine Or.inl ⟨rfl, ⟨⟨?_, ?_, ?_, ?_⟩, ?_, content₂, rfl, fits, rfl, rfl, rfl, rfl, rfl, rfl,
        rfl⟩⟩
      · exact name₂.trans (congrArg (fun f => some f.inode) file₂).symm
      · exact (congrArg OpenFile.inode file₂).trans_lt inode₂
      · exact Nat.sub_lt (Nat.succ_pos _) one_pos
      · exact (congrArg OpenFile.offset file₂).trans_le (Nat.zero_le _)
      · exact congrArg OpenFile.append file₂
    | throw e => exact stop _ _ (by simp) rfl (Or.inr (Or.inr rfl)) (Or.inl (hr.faulty (by simp)))
    | crash => exact stop _ _ (by simp) rfl (Or.inr (Or.inr rfl)) (Or.inl (hr.faulty (by simp)))
  · rename_i refused
    refine Sys.wp_throw (stop _ _ (by simp) rfl (Or.inr (Or.inr rfl)) (Or.inr ?_))
    rw [← content₂]
    exact not_le.mp fun h => refused ⟨rfl, h⟩

end AofLogger
end KVRPC.Aof
