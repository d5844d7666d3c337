import KVRPC.Aof.Format

/-!
# Damaged logs

Damage to a log written by `encode` is found where it happens: the records before the
damaged one are delivered and nothing else. A flipped tag cannot pass for a bare frame, a
flipped length disagrees with the lengths inside the payload, and the checksum sees any
change within four octets of a payload.
-/
namespace KVRPC.Aof

open Library Records

variable {β : Type}

/-- Flip bit `bit` of the octet at position `i`. -/
def flipBit (bytes : Bytes) (i bit : Nat) : Bytes :=
  bytes.modify i (· ^^^ ((1 : UInt8) <<< UInt8.ofNat bit))

/-- The mutations whose records end at or before position `pos`. -/
def intact : Nat → List Mutation → List Mutation
  | _, [] => []
  | pos, m :: ms =>
    if (record m).length ≤ pos then m :: intact (pos - (record m).length) ms else []

theorem intact_append (pre : List Mutation) (m : Mutation) (post : List Mutation) {i : Nat}
    (hi : i < (record m).length) :
    intact ((records pre).length + i) (pre ++ m :: post) = pre := by
  induction pre with
  | nil =>
    rw [List.nil_append, intact, if_neg (by simp at hi ⊢; omega)]
  | cons x pre ih =>
    rw [List.cons_append, intact, records_cons, List.length_append, if_pos (by omega)]
    rw [show (record x).length + (records pre).length + i - (record x).length =
      (records pre).length + i by omega, ih]

/-- Every position of a log lies in one of its records. -/
theorem exists_record_at {ms : List Mutation} {pos : Nat} (h : pos < (records ms).length) :
    ∃ pre m post i, ms = pre ++ m :: post ∧ pos = (records pre).length + i ∧
      i < (record m).length := by
  induction ms generalizing pos with
  | nil => simp at h
  | cons m ms ih =>
    rw [records_cons, List.length_append] at h
    by_cases here : pos < (record m).length
    · exact ⟨[], m, ms, pos, rfl, by simp, here⟩
    · obtain ⟨pre, x, post, i, rfl, hpos, hi⟩ := @ih (pos - (record m).length) (by omega)
      exact ⟨m :: pre, x, post, i, rfl, by rw [records_cons, List.length_append]; omega, hi⟩

/-! ## Flipping a bit -/

theorem mask_ne_zero {bit : Nat} (h : bit < 8) : (1 : UInt8) <<< UInt8.ofNat bit ≠ 0 := by
  interval_cases bit <;> decide

theorem flip_ne (b : UInt8) {bit : Nat} (h : bit < 8) :
    b ^^^ ((1 : UInt8) <<< UInt8.ofNat bit) ≠ b := by
  intro heq
  have := congrArg (b ^^^ ·) heq
  simp only [← UInt8.xor_assoc, UInt8.xor_self, UInt8.zero_xor] at this
  exact mask_ne_zero h this

@[simp] theorem length_flipBit (bytes : Bytes) (i bit : Nat) :
    (flipBit bytes i bit).length = bytes.length := by
  simp [flipBit]

theorem flipBit_append_right (xs ys : Bytes) (i bit : Nat) :
    flipBit (xs ++ ys) (xs.length + i) bit = xs ++ flipBit ys i bit := by
  induction xs with
  | nil => simp [flipBit]
  | cons x xs ih =>
    rw [List.cons_append, List.length_cons, Nat.add_right_comm]
    simpa [flipBit] using ih

theorem flipBit_append_left {xs : Bytes} (ys : Bytes) {i : Nat} (bit : Nat) (h : i < xs.length) :
    flipBit (xs ++ ys) i bit = flipBit xs i bit ++ ys := by
  induction xs generalizing i with
  | nil => simp at h
  | cons x xs ih =>
    cases i with
    | zero => simp [flipBit]
    | succ i =>
      have := ih (show i < xs.length by simpa using h)
      simpa [flipBit] using this

/-- A flip changes one octet and keeps what is around it. -/
theorem flipBit_burst {bytes : Bytes} {i bit : Nat} (hi : i < bytes.length) (hb : bit < 8) :
    ∃ before x y after, x ≠ y ∧ bytes = before ++ [x] ++ after ∧
      flipBit bytes i bit = before ++ [y] ++ after := by
  refine ⟨bytes.take i, bytes[i], _, bytes.drop (i + 1), (flip_ne bytes[i] hb).symm, ?_, ?_⟩
  · simp
  · rw [flipBit, List.modify_eq_take_cons_drop hi]
    simp

theorem flipBit_ne {bytes : Bytes} {i bit : Nat} (hi : i < bytes.length) (hb : bit < 8) :
    flipBit bytes i bit ≠ bytes := by
  obtain ⟨before, x, y, after, hne, hold, hnew⟩ := flipBit_burst hi hb
  rw [hnew, hold]
  intro heq
  simp only [List.append_assoc, List.append_cancel_left_eq, List.singleton_append, List.cons.injEq,
    and_true] at heq
  exact hne heq.symm

/-! ## One damaged record -/

/-- What an accepted record behind the tag must agree with. -/
theorem parse_tagged {length sum body rest : Bytes} {m : Mutation} (hl : length.length = 4)
    (hs : sum.length = 4) (h : parse (recordMagic ++ length ++ sum ++ body) = some (m, rest)) :
    Loggable m ∧ length = beBytes 4 (payload m).length ∧ sum = beBytes 4 (crc (payload m)).toNat ∧
      body = payload m ++ rest := by
  obtain ⟨r, ⟨loggable, rfl | rfl⟩, split⟩ := parse_eq_some_iff.mp h
  · simp only [record, wrap, List.append_assoc] at split
    obtain ⟨_, split⟩ := List.append_inj split rfl
    obtain ⟨same, split⟩ := List.append_inj split (by simp [hl])
    exact ⟨loggable, same, List.append_inj split (by simp [hs])⟩
  · refine absurd ?_ (payload_not_tagged m rest)
    rw [← split, List.append_assoc, List.append_assoc]
    exact List.take_left' rfl

/-- The lengths in a payload's header fix the payload's length. -/
theorem length_payload_eq {m m' : Mutation} (h : Loggable m) (h' : Loggable m') {xs ys : Bytes}
    (heq : payload m ++ xs = payload m' ++ ys) : (payload m).length = (payload m').length := by
  have header := @Message.decodeHeader_frame m.command _ _ h.lengths_lt.1 h.lengths_lt.2 xs
  have header' := @Message.decodeHeader_frame m'.command _ _ h'.lengths_lt.1 h'.lengths_lt.2 ys
  rw [show Message.frame m.command m.key m.value ++ xs = payload m' ++ ys from heq] at header
  have same := header.symm.trans header'
  simp only [Header.mk.injEq] at same
  simp [payload, same.2.2.2.1, same.2.2.2.2]

/-- One flipped bit does not turn the tag of a record into the magic number of a frame. -/
theorem parse_flipped_tag {i bit : Nat} (hi : i < 4) (hb : bit < 8) (rest : Bytes) :
    parse (flipBit recordMagic i bit ++ rest) = none := by
  by_contra h
  obtain ⟨⟨m, rest'⟩, h⟩ := Option.ne_none_iff_exists'.mp h
  obtain ⟨r, ⟨_, rfl | rfl⟩, split⟩ := parse_eq_some_iff.mp h
  · simp only [record, wrap, List.append_assoc] at split
    exact flipBit_ne hi hb (List.append_inj split (by simp)).1
  · have two : (flipBit recordMagic i bit).take 2 = beBytes 2 magic := by
      have := congrArg (List.take 2) split
      rw [List.take_append_of_le_length (by simp [recordMagic]), payload,
        Message.frame_append] at this
      rw [this]
      exact List.take_left' (by simp)
    revert two
    interval_cases i <;> interval_cases bit <;> decide

/-- A length field other than the payload's own length is refused, whatever follows. -/
theorem parse_wrong_length {m : Mutation} (hm : Loggable m) {length sum : Bytes}
    (hl : length.length = 4) (hs : sum.length = 4) (hne : length ≠ beBytes 4 (payload m).length)
    (rest : Bytes) : parse (recordMagic ++ length ++ sum ++ (payload m ++ rest)) = none := by
  by_contra h
  obtain ⟨⟨m', rest'⟩, h⟩ := Option.ne_none_iff_exists'.mp h
  obtain ⟨hm', hlen, _, split⟩ := parse_tagged hl hs h
  rw [length_payload_eq hm hm' split] at hne
  exact hne hlen

/-- A payload of the announced length whose checksum differs is refused. -/
theorem parse_wrong_sum {sum p : Bytes} (hp : p.length < 256 ^ 4) (hs : sum.length = 4)
    (hne : sum ≠ beBytes 4 (crc p).toNat) (rest : Bytes) :
    parse (recordMagic ++ beBytes 4 p.length ++ sum ++ (p ++ rest)) = none := by
  by_contra h
  obtain ⟨⟨m, rest'⟩, h⟩ := Option.ne_none_iff_exists'.mp h
  obtain ⟨hm, hlen, hsum, split⟩ := parse_tagged (by simp) hs h
  have same : p.length = (payload m).length := by
    rw [← beNat_beBytes_of_lt hp, hlen, beNat_beBytes_of_lt hm.length_payload_lt]
  obtain ⟨rfl, _⟩ := List.append_inj split same
  exact hne hsum

/-- A change within four octets of a payload is refused. -/
theorem parse_burst {m : Mutation} (hm : Loggable m) {before xs ys after : Bytes}
    (split : payload m = before ++ xs ++ after) (hl : xs.length = ys.length) (hw : xs.length ≤ 4)
    (hne : xs ≠ ys) (rest : Bytes) :
    parse (recordMagic ++ beBytes 4 (payload m).length ++ beBytes 4 (crc (payload m)).toNat ++
      ((before ++ ys ++ after) ++ rest)) = none := by
  have same : (payload m).length = (before ++ ys ++ after).length := by
    rw [split]
    simp [hl]
  have small := hm.length_payload_lt
  rw [same] at small ⊢
  refine parse_wrong_sum small (by simp) ?_ rest
  intro heq
  have sums := congrArg beNat heq
  rw [beNat_beBytes_of_lt (crc (payload m)).toNat_lt, beNat_beBytes_of_lt (UInt32.toNat_lt _),
    UInt32.toNat_inj, split] at sums
  exact crc_burst_ne before after hl hw hne sums

theorem record_eq (m : Mutation) : record m = recordMagic ++
    (beBytes 4 (payload m).length ++ (beBytes 4 (crc (payload m)).toNat ++ payload m)) := by
  simp [record, wrap]

theorem parse_flipped {m : Mutation} (hm : Loggable m) {i bit : Nat} (hi : i < (record m).length)
    (hb : bit < 8) (rest : Bytes) : parse (flipBit (record m) i bit ++ rest) = none := by
  rw [record_eq] at hi ⊢
  have four : recordMagic.length = 4 := rfl
  rcases Nat.lt_or_ge i 4 with tag | past
  · rw [flipBit_append_left _ _ tag, List.append_assoc]
    exact parse_flipped_tag tag hb _
  obtain ⟨i, rfl⟩ := Nat.exists_eq_add_of_le past
  rw [show 4 + i = recordMagic.length + i from rfl, flipBit_append_right]
  rcases Nat.lt_or_ge i 4 with length | past
  · rw [flipBit_append_left _ _ (by simpa using length)]
    have := @parse_wrong_length m hm (flipBit (beBytes 4 (payload m).length) i bit)
      (beBytes 4 (crc (payload m)).toNat) (by simp) (by simp)
      (flipBit_ne (by simpa using length) hb) rest
    simpa using this
  obtain ⟨i, rfl⟩ := Nat.exists_eq_add_of_le past
  rw [show 4 + i = (beBytes 4 (payload m).length).length + i by simp, flipBit_append_right]
  rcases Nat.lt_or_ge i 4 with sum | past
  · rw [flipBit_append_left _ _ (by simpa using sum)]
    have := @parse_wrong_sum (flipBit (beBytes 4 (crc (payload m)).toNat) i bit) _
      hm.length_payload_lt (by simp) (flipBit_ne (by simpa using sum) hb) rest
    simpa using this
  obtain ⟨i, rfl⟩ := Nat.exists_eq_add_of_le past
  rw [show 4 + i = (beBytes 4 (crc (payload m)).toNat).length + i by simp, flipBit_append_right]
  obtain ⟨before, x, y, after, hne, hold, hnew⟩ :=
    @flipBit_burst (payload m) i bit (by simp [four] at hi; omega) hb
  have := @parse_burst m hm before [x] [y] after hold rfl (by simp) (by simpa using hne) rest
  rw [hnew]
  simpa using this

theorem parse_truncated {m : Mutation} (hm : Loggable m) {n : Nat} (hn : n < (record m).length) :
    parse ((record m).take n) = none := by
  refine parse_selfDelimiting.cut (record_iff_isRecord.mpr ⟨hm, Or.inl rfl⟩)
    (List.take_append_drop n _).symm ?_
  intro hnil
  rw [List.drop_eq_nil_iff] at hnil
  omega

/-! ## The damaged log -/

/-- Replay of the file throws after delivering exactly `ms`. -/
def StopsAfter (callback : AofLogger.Callback β) (b : β) (o : Oracle) (ms : List Mutation)
    (B : Bytes) : Prop :=
  ∀ f : LogFile B, (∃ e, (f.replay o (AofLogger.observed callback) ([], b)).1 = .throw e) ∧
    (f.replay o (AofLogger.observed callback) ([], b)).2.1 = ms

/-- Records before something that is no record are all that replay delivers. -/
theorem stopsAfter_of_parse_none {callback : AofLogger.Callback β}
    (quiet : ∀ m b, (callback m b).1 = .ok ()) {b : β} {o : Oracle} (ho : o.NoFailure)
    {ms : List Mutation} (hl : ∀ m ∈ ms, Loggable m) {rest : Bytes} (hne : rest ≠ [])
    (stop : parse rest = none) : StopsAfter callback b o ms (records ms ++ rest) := by
  intro f
  have front : List.Forall₂ (Record parse) ms (ms.map record) := by
    rw [List.forall₂_map_right_iff, List.forall₂_same]
    exact fun m hm => record_iff_isRecord.mpr ⟨hl m hm, Or.inl rfl⟩
  have scanned : scan parse (records ms ++ rest) = (ms, rest) :=
    scan_eq_of_records parse_selfDelimiting front stop
  obtain ⟨result, delivered⟩ := replayOutcome_observed quiet (records ms ++ rest) b
  rw [f.replay_eq ho, result, delivered, scanned]
  exact ⟨remainder_throw stop hne, rfl⟩

/-- **Corruption is detected**, at any position of a log that `encode` has written. -/
theorem corruption_detected {callback : AofLogger.Callback β}
    (quiet : ∀ m b, (callback m b).1 = .ok ()) (b : β) {o : Oracle} (ho : o.NoFailure)
    {ms : List Mutation} (written : ∀ m ∈ ms, encode m = .ok (record m)) :
    (∀ pos bit, pos < (records ms).length → bit < 8 →
      StopsAfter callback b o (intact pos ms) (flipBit (records ms) pos bit)) ∧
    (∀ pre m post before xs ys after, ms = pre ++ m :: post →
      payload m = before ++ xs ++ after → xs.length = ys.length → xs.length ≤ 4 → xs ≠ ys →
      StopsAfter callback b o pre
        (records pre ++ ((record m).take headerSize ++ (before ++ ys ++ after) ++ records post))) ∧
    (∀ n, n < (records ms).length → (∀ k, n ≠ (records (ms.take k)).length) →
      StopsAfter callback b o (intact n ms) ((records ms).take n)) := by
  have loggable : ∀ m ∈ ms, Loggable m := fun m hm => (encode_ok_iff.mp (written m hm)).1
  refine ⟨?_, ?_, ?_⟩
  · intro pos bit hpos hb
    obtain ⟨pre, m, post, i, rfl, rfl, hi⟩ := exists_record_at hpos
    rw [intact_append pre m post hi, records_append, flipBit_append_right, records_cons,
      flipBit_append_left _ _ hi]
    refine stopsAfter_of_parse_none quiet ho (fun x hx => loggable x (by simp [hx])) ?_
      (parse_flipped (loggable m (by simp)) hi hb _)
    intro hnil
    simpa using congrArg List.length hnil
  · rintro pre m post before xs ys after rfl split hl hw hne
    have header : (record m).take headerSize = recordMagic ++ beBytes 4 (payload m).length ++
        beBytes 4 (crc (payload m)).toNat :=
      List.take_left' (by simp [recordMagic, headerSize])
    refine stopsAfter_of_parse_none quiet ho (fun x hx => loggable x (by simp [hx])) ?_ ?_
    · rw [header]
      simp [recordMagic]
    · rw [header, List.append_assoc _ (before ++ ys ++ after)]
      exact parse_burst (loggable m (by simp)) split hl hw hne _
  · intro n hn boundary
    obtain ⟨pre, m, post, i, rfl, rfl, hi⟩ := exists_record_at hn
    have inside : i ≠ 0 := by
      rintro rfl
      exact boundary pre.length (by simp)
    rw [intact_append pre m post hi, records_append, records_cons, List.take_length_add_append,
      List.take_append_of_le_length (le_of_lt hi)]
    refine stopsAfter_of_parse_none quiet ho (fun x hx => loggable x (by simp [hx])) ?_
      (parse_truncated (loggable m (by simp)) hi)
    intro hnil
    rw [List.take_eq_nil_iff] at hnil
    rcases hnil with h | h
    · exact inside h
    · rw [h] at hi
      simp at hi

theorem corruption_detected_bit :
    (∃ e, ((LogFile.only (flipBit (records [⟨.set, [1], [2]⟩, ⟨.del, [1], []⟩]) 30 5)).replay
        .reliable (AofLogger.observed fun _ b => (.ok (), b)) ([], ())).1 = .throw e) ∧
      ((LogFile.only (flipBit (records [⟨.set, [1], [2]⟩, ⟨.del, [1], []⟩]) 30 5)).replay
        .reliable (AofLogger.observed fun _ b => (.ok (), b)) ([], ())).2.1 =
          [⟨.set, [1], [2]⟩] := by
  have written : ∀ m ∈ [(⟨.set, [1], [2]⟩ : Mutation), ⟨.del, [1], []⟩],
      encode m = .ok (record m) := by
    intro m hm
    refine encode_of_loggable ?_
    fin_cases hm <;> decide
  have damaged := (@corruption_detected Unit (fun _ b => (.ok (), b)) (fun _ _ => rfl) () .reliable
    trivial _ written).1 30 5 (by simp) (by decide) (LogFile.only _)
  rwa [show intact 30 [⟨.set, [1], [2]⟩, ⟨.del, [1], []⟩] = [⟨.set, [1], [2]⟩] by
    simp [intact]] at damaged

end KVRPC.Aof
