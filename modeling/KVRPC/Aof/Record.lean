import KVRPC.Aof.Crc
import KVRPC.Library.Records
import KVRPC.Protocol.Message

/-!
# Records of the append-only file

`encode` and `size` of `aof.cpp`, and the decisions `replay` takes about one record
once its octets are in memory. `IsRecord` states the file format on its own: an `AOF2`
record or a bare KV frame that carries a loggable mutation. `parse_eq_some_iff`
says that reading accepts exactly these.
-/
namespace KVRPC.Aof

open Library

structure Mutation where
  command : Command
  key : Bytes
  value : Bytes
  deriving DecidableEq, Repr

/-- `"AOF2"` -/
def recordMagic : Bytes := [0x41, 0x4f, 0x46, 0x32]

/-- The mutations `encode` refuses with `std::invalid_argument`. -/
def Mutation.Invalid (m : Mutation) : Prop :=
  (m.command ≠ .set ∧ m.command ≠ .del ∧ m.command ≠ .setTtl) ∨ (m.command = .del ∧ m.value ≠ [])

instance (m : Mutation) : Decidable m.Invalid := by unfold Mutation.Invalid; infer_instance

/-- The octets of a checksummed record around `payload`. -/
def wrap (payload : Bytes) : Bytes :=
  recordMagic ++ beBytes 4 payload.length ++ beBytes 4 (crc payload).toNat ++ payload

def encode (m : Mutation) : Except Exception Bytes :=
  if m.Invalid then .error (invalidArgument "Invalid AOF mutation")
  else do
    let payload ← Message.encode m.command m.key m.value
    return wrap payload

def size (mutations : List Mutation) : Except Exception Nat :=
  mutations.foldlM (fun result m => do return result + (← encode m).length) 0

/-- The length check on an `AOF2` header, before its payload is read. -/
def recordLength (header : Bytes) (remaining : Nat) : Except Exception Nat :=
  let length := beNat ((header.drop 4).take 4)
  if length < headerSize ∨ length > maxFrameSize ∨ length > remaining then
    .error (runtimeError "Invalid AOF record length")
  else .ok length

def checkCrc (header payload : Bytes) : Except Exception Unit :=
  if (crc payload).toNat ≠ beNat ((header.drop 8).take 4) then
    .error (runtimeError "AOF checksum mismatch")
  else .ok ()

/-- The same for a bare version-1 frame. -/
def legacyLength (header : Bytes) (remaining : Nat) : Except Exception Nat := do
  let h := Message.decodeHeader header
  Message.validate h
  if h.keyLen + h.valueLen > remaining then .error (runtimeError "Truncated legacy AOF")
  else .ok (h.keyLen + h.valueLen)

/-- The checks `replay` makes on a payload of either kind, and what it delivers. -/
def checkOperation (payload : Bytes) : Except Exception Mutation := do
  let h := Message.decodeHeader payload
  Message.validate h
  if headerSize + h.keyLen + h.valueLen ≠ payload.length ∨
      (h.command ≠ Command.set.toByte ∧ h.command ≠ Command.del.toByte ∧
        h.command ≠ Command.setTtl.toByte) ∨
      (h.command = Command.del.toByte ∧ h.valueLen ≠ 0) then
    .error (runtimeError "Invalid AOF operation")
  else .ok ⟨Command.ofByte h.command, (payload.drop headerSize).take h.keyLen,
    (payload.drop (headerSize + h.keyLen)).take h.valueLen⟩

/-! ## What can be logged -/

/-- `encode` accepts the mutation. -/
def Loggable (m : Mutation) : Prop :=
  (m.command = .set ∨ m.command = .del ∨ m.command = .setTtl) ∧
    (m.command = .del → m.value = []) ∧
    m.key.length ≤ maxKeySize ∧ m.value.length ≤ maxWireValueSize

instance (m : Mutation) : Decidable (Loggable m) := by unfold Loggable; infer_instance

def payload (m : Mutation) : Bytes := Message.frame m.command m.key m.value

/-- The record `encode` produces for a loggable mutation. -/
def record (m : Mutation) : Bytes := wrap (payload m)

/-- The log that holds these mutations and nothing else. -/
def records (mutations : List Mutation) : Bytes := (mutations.map record).flatten

@[simp] theorem records_nil : records [] = [] := rfl

@[simp] theorem records_cons (m : Mutation) (ms : List Mutation) :
    records (m :: ms) = record m ++ records ms := rfl

@[simp] theorem records_append (xs ys : List Mutation) :
    records (xs ++ ys) = records xs ++ records ys := by
  simp [records]

@[simp] theorem length_wrap (p : Bytes) : (wrap p).length = 12 + p.length := by
  simp [wrap, recordMagic]
  omega

@[simp] theorem length_record (m : Mutation) :
    (record m).length = 24 + m.key.length + m.value.length := by
  simp [record, payload, headerSize]
  omega

theorem records_ne_nil {ms : List Mutation} (h : ms ≠ []) : records ms ≠ [] := by
  obtain ⟨m, rest, rfl⟩ := List.exists_cons_of_ne_nil h
  rw [← List.length_pos_iff, records_cons, List.length_append, length_record]
  omega

theorem Loggable.encodable {m : Mutation} (h : Loggable m) :
    Message.Encodable m.command m.key m.value := by
  obtain ⟨hc, _, hk, hv⟩ := h
  refine ⟨?_, hk, hv⟩
  rcases hc with hc | hc | hc <;> rw [hc] <;> decide

theorem Loggable.lengths_lt {m : Mutation} (h : Loggable m) :
    m.key.length < 2 ^ 32 ∧ m.value.length < 2 ^ 32 := by
  obtain ⟨_, _, hk, hv⟩ := h
  unfold maxKeySize at hk
  unfold maxWireValueSize maxValueSize at hv
  omega

theorem Loggable.length_payload_lt {m : Mutation} (h : Loggable m) :
    (payload m).length < 256 ^ 4 := by
  obtain ⟨_, _, hk, hv⟩ := h
  unfold maxKeySize at hk
  unfold maxWireValueSize maxValueSize at hv
  simp [payload, headerSize]
  omega

theorem not_invalid_of_loggable {m : Mutation} (h : Loggable m) : ¬ m.Invalid := by
  obtain ⟨hc, hd, _, _⟩ := h
  rintro (bad | ⟨hdel, hne⟩)
  · tauto
  · exact hne (hd hdel)

theorem loggable_iff {m : Mutation} :
    Loggable m ↔ ¬ m.Invalid ∧ Message.Encodable m.command m.key m.value := by
  constructor
  · intro h
    exact ⟨not_invalid_of_loggable h, h.encodable⟩
  · rintro ⟨valid, _, hk, hv⟩
    unfold Mutation.Invalid at valid
    refine ⟨by tauto, ?_, hk, hv⟩
    intro hdel
    by_contra hne
    exact valid (Or.inr ⟨hdel, hne⟩)

theorem encode_of_loggable {m : Mutation} (h : Loggable m) : encode m = .ok (record m) := by
  rw [encode, if_neg (not_invalid_of_loggable h), Message.encode_of_encodable h.encodable]
  rfl

theorem encode_ok_iff {m : Mutation} {bytes : Bytes} :
    encode m = .ok bytes ↔ Loggable m ∧ bytes = record m := by
  constructor
  · intro h
    by_cases hl : Loggable m
    · rw [encode_of_loggable hl] at h
      exact ⟨hl, (Except.ok.inj h).symm⟩
    · exfalso
      rw [loggable_iff] at hl
      unfold encode at h
      split at h
      · cases h
      · rename_i valid
        have unfit : ¬ Message.Encodable m.command m.key m.value := fun hf => hl ⟨valid, hf⟩
        obtain ⟨e, he⟩ := Message.encode_error_of_not_encodable unfit
        rw [he] at h
        cases h
  · rintro ⟨hl, rfl⟩
    exact encode_of_loggable hl

theorem encode_error_of_not_loggable {m : Mutation} (h : ¬ Loggable m) :
    ∃ e, encode m = .error e := by
  cases he : encode m with
  | error e => exact ⟨e, rfl⟩
  | ok bytes => exact absurd (encode_ok_iff.mp he).1 h

theorem foldlM_encode_of_loggable {ms : List Mutation} (h : ∀ m ∈ ms, Loggable m) (n : Nat) :
    ms.foldlM (fun result m => do return result + (← encode m).length) n =
      (.ok (n + (records ms).length) : Except Exception Nat) := by
  induction ms generalizing n with
  | nil => rfl
  | cons m ms ih =>
    rw [List.foldlM_cons, encode_of_loggable (h m (by simp))]
    have tail := ih (fun x hx => h x (by simp [hx])) (n + (record m).length)
    simp only [bind, Except.bind, pure, Except.pure] at tail ⊢
    rw [tail, records_cons, List.length_append, Nat.add_assoc]

theorem size_of_loggable {ms : List Mutation} (h : ∀ m ∈ ms, Loggable m) :
    size ms = .ok (records ms).length := by
  rw [size, foldlM_encode_of_loggable h, Nat.zero_add]

theorem size_error_of_not_loggable {ms : List Mutation} (h : ¬ ∀ m ∈ ms, Loggable m) :
    ∃ e, size ms = .error e := by
  suffices ∀ n, ∃ e, ms.foldlM (fun result m => do return result + (← encode m).length) n =
      (.error e : Except Exception Nat) from this 0
  induction ms with
  | nil => exact absurd (by simp) h
  | cons m ms ih =>
    intro n
    rw [List.foldlM_cons]
    by_cases hm : Loggable m
    · rw [encode_of_loggable hm]
      exact ih (fun hall => h (by simpa [hm] using hall)) _
    · obtain ⟨e, he⟩ := encode_error_of_not_loggable hm
      rw [he]
      exact ⟨e, rfl⟩

theorem encode_error_cls {m : Mutation} {e : Exception} (h : encode m = .error e) :
    e.cls ≠ .aofCapacityError := by
  unfold encode at h
  split at h
  · cases h
    decide
  · cases encoded : Message.encode m.command m.key m.value with
    | error e' =>
      rw [encoded] at h
      cases h
      exact Message.encode_error_cls encoded
    | ok bytes =>
      rw [encoded] at h
      cases h

theorem size_error_cls {ms : List Mutation} {e : Exception} (h : size ms = .error e) :
    e.cls ≠ .aofCapacityError := by
  suffices ∀ n, ms.foldlM (fun result m => do return result + (← encode m).length) n =
      (.error e : Except Exception Nat) → e.cls ≠ .aofCapacityError from this 0 h
  clear h
  induction ms with
  | nil =>
    intro n h
    cases h
  | cons m ms ih =>
    intro n h
    rw [List.foldlM_cons] at h
    cases hm : encode m with
    | ok bytes =>
      rw [hm] at h
      exact ih _ h
    | error e' =>
      rw [hm] at h
      cases h
      exact encode_error_cls hm

theorem size_ok_iff {ms : List Mutation} {n : Nat} :
    size ms = .ok n ↔ (∀ m ∈ ms, Loggable m) ∧ n = (records ms).length := by
  constructor
  · intro h
    by_cases hl : ∀ m ∈ ms, Loggable m
    · rw [size_of_loggable hl] at h
      exact ⟨hl, (Except.ok.inj h).symm⟩
    · obtain ⟨e, he⟩ := size_error_of_not_loggable hl
      rw [he] at h
      cases h
  · rintro ⟨hl, rfl⟩
    exact size_of_loggable hl

/-! ## Reading one record -/

/-- Take one record off the front of the unread part of the file. -/
def readRecord (stream : Bytes) : Except Exception (Mutation × Bytes) :=
  let header := stream.take headerSize
  let body := stream.drop headerSize
  if stream.length < headerSize then .error (runtimeError "Truncated AOF header")
  else if header.take 4 = recordMagic then do
    let length ← recordLength header body.length
    checkCrc header (body.take length)
    let m ← checkOperation (body.take length)
    return (m, body.drop length)
  else do
    let length ← legacyLength header body.length
    let m ← checkOperation (header ++ body.take length)
    return (m, body.drop length)

/-- The file format: a checksummed record or a bare frame, carrying a loggable mutation. -/
def IsRecord (m : Mutation) (r : Bytes) : Prop :=
  Loggable m ∧ (r = record m ∨ r = payload m)

theorem bind_eq_ok {α β : Type} {x : Except Exception α} {f : α → Except Exception β} {b : β} :
    (x >>= f) = .ok b ↔ ∃ a, x = .ok a ∧ f a = .ok b := by
  cases x with
  | error e => exact ⟨fun h => (by cases h), fun ⟨_, h, _⟩ => (by cases h)⟩
  | ok a => exact ⟨fun h => ⟨a, rfl, h⟩, fun ⟨_, h, hf⟩ => (by cases h; exact hf)⟩

theorem recordLength_ok_iff {header : Bytes} {remaining length : Nat} :
    recordLength header remaining = .ok length ↔
      length = beNat ((header.drop 4).take 4) ∧ headerSize ≤ length ∧ length ≤ maxFrameSize ∧
        length ≤ remaining := by
  unfold recordLength
  dsimp only
  split <;> simp only [reduceCtorEq, false_iff, Except.ok.injEq] <;> omega

theorem checkCrc_ok_iff {header p : Bytes} :
    checkCrc header p = .ok () ↔ (crc p).toNat = beNat ((header.drop 8).take 4) := by
  unfold checkCrc
  split <;> simp_all

theorem legacyLength_ok_iff {header : Bytes} {remaining length : Nat} :
    legacyLength header remaining = .ok length ↔
      ¬ Message.Malformed (Message.decodeHeader header) ∧
        length = (Message.decodeHeader header).keyLen + (Message.decodeHeader header).valueLen ∧
        length ≤ remaining := by
  unfold legacyLength
  rw [bind_eq_ok]
  constructor
  · rintro ⟨_, valid, h⟩
    split at h
    · cases h
    · cases h
      exact ⟨(Message.validate_ok_iff _).mp valid, rfl, by omega⟩
  · rintro ⟨valid, rfl, h⟩
    exact ⟨(), (Message.validate_ok_iff _).mpr valid, if_neg (by omega)⟩

theorem ofByte_eq_iff {b : UInt8} {c : Command} (h₁ : ¬ b < 1) (h₂ : ¬ b > 6) :
    Command.ofByte b = c ↔ b = c.toByte := by
  constructor
  · rintro rfl
    exact (Command.toByte_ofByte h₁ h₂).symm
  · rintro rfl
    exact Command.ofByte_toByte c

/-- A payload passes exactly when it is the frame of a loggable mutation. -/
theorem checkOperation_ok_iff {p : Bytes} (hp : headerSize ≤ p.length) {m : Mutation} :
    checkOperation p = .ok m ↔ Loggable m ∧ p = payload m := by
  unfold checkOperation
  rw [bind_eq_ok]
  constructor
  · rintro ⟨_, valid, h⟩
    rw [Message.validate_ok_iff] at valid
    split at h
    · cases h
    · rename_i ok
      obtain ⟨_, _, hc₁, hc₂, hk, hv⟩ := (Message.not_malformed_iff _).mp valid
      simp only [not_or, not_and, not_not, ne_eq] at ok
      obtain ⟨total, command, del⟩ := ok
      have whole := Message.eq_frame_of_decodeHeader hp valid total
      cases h
      refine ⟨⟨?_, ?_, ?_, ?_⟩, whole⟩
      · simp only [ofByte_eq_iff hc₁ hc₂]
        tauto
      · intro hdel
        rw [ofByte_eq_iff hc₁ hc₂] at hdel
        have := del hdel
        simp [this]
      · simpa using Or.inl hk
      · simpa using Or.inl hv
  · rintro ⟨hl, rfl⟩
    have fits := hl.encodable
    obtain ⟨hk', hv'⟩ := hl.lengths_lt
    obtain ⟨hc, hd, hk, hv⟩ := hl
    have header := @Message.decodeHeader_frame m.command _ _ hk' hv' []
    rw [List.append_nil] at header
    refine ⟨(), ?_, ?_⟩
    · rw [Message.validate_ok_iff, payload, header]
      exact Message.not_malformed_header fits.1 hk hv
    · rw [if_neg]
      · simp only [payload, header, Command.ofByte_toByte, Message.frame_key,
          Message.frame_value]
      · simp only [payload, header, Message.length_frame, ne_eq, not_true_eq_false, false_or,
          not_or, not_and, not_not]
        constructor
        · intro h1 h2
          rcases hc with hc | hc | hc
          · exact absurd (congrArg Command.toByte hc) h1
          · exact absurd (congrArg Command.toByte hc) h2
          · exact congrArg Command.toByte hc
        · intro hdel
          have : m.command = .del := by
            rw [← Command.ofByte_toByte m.command, hdel, Command.ofByte_toByte]
          simp [hd this]

theorem readRecord_record {m : Mutation} (h : Loggable m) (rest : Bytes) :
    readRecord (record m ++ rest) = .ok (m, rest) := by
  have hk := h.2.2.1
  have hv := h.2.2.2
  have plen : (payload m).length = 12 + m.key.length + m.value.length := by
    simp [payload, headerSize]
  have header : (record m ++ rest).take headerSize =
      recordMagic ++ beBytes 4 (payload m).length ++ beBytes 4 (crc (payload m)).toNat := by
    rw [record, wrap, List.append_assoc _ (payload m)]
    exact List.take_left' (by simp [recordMagic, headerSize])
  have body : (record m ++ rest).drop headerSize = payload m ++ rest := by
    rw [record, wrap, List.append_assoc _ (payload m)]
    exact List.drop_left' (by simp [recordMagic, headerSize])
  have small := h.length_payload_lt
  have length : beNat ((((record m ++ rest).take headerSize).drop 4).take 4) =
      (payload m).length := by
    rw [header, List.append_assoc, List.drop_left' (by rfl),
      List.take_left' (by simp), beNat_beBytes_of_lt small]
  have sum : beNat ((((record m ++ rest).take headerSize).drop 8).take 4) =
      (crc (payload m)).toNat := by
    rw [header, List.drop_left' (by simp [recordMagic]), List.take_of_length_le (by simp),
      beNat_beBytes_of_lt (crc (payload m)).toNat_lt]
  have cut : (payload m ++ rest).take (payload m).length = payload m := List.take_left' rfl
  unfold readRecord
  dsimp only
  rw [if_neg (by simp [headerSize]; omega), if_pos (by rw [header]; rfl), body]
  have len_ok : recordLength ((record m ++ rest).take headerSize) (payload m ++ rest).length =
      .ok (payload m).length := by
    rw [recordLength_ok_iff]
    unfold maxFrameSize headerSize
    refine ⟨length.symm, by omega, by omega, by simp⟩
  have crc_ok : checkCrc ((record m ++ rest).take headerSize) (payload m) = .ok () :=
    checkCrc_ok_iff.mpr sum.symm
  have op_ok : checkOperation (payload m) = .ok m :=
    (checkOperation_ok_iff (by unfold headerSize; omega)).mpr ⟨h, rfl⟩
  rw [bind_eq_ok]
  refine ⟨_, len_ok, ?_⟩
  rw [cut, crc_ok, bind_eq_ok]
  refine ⟨(), rfl, ?_⟩
  rw [op_ok, List.drop_left' rfl]
  rfl

/-- The tags of the two kinds of records differ in their first octets. -/
theorem payload_not_tagged (m : Mutation) (rest : Bytes) :
    (payload m ++ rest).take 4 ≠ recordMagic := by
  have hmagic : (payload m ++ rest).take 2 = beBytes 2 magic := by
    rw [payload, Message.frame_append]
    exact List.take_left' (by simp)
  intro heq
  have two := congrArg (List.take 2) heq
  rw [List.take_take, show min 2 4 = 2 by rfl, hmagic] at two
  exact absurd two (by decide)

theorem readRecord_payload {m : Mutation} (h : Loggable m) (rest : Bytes) :
    readRecord (payload m ++ rest) = .ok (m, rest) := by
  obtain ⟨hk, hv⟩ := h.lengths_lt
  have plen : (payload m).length = headerSize + m.key.length + m.value.length := by
    simp [payload]
  have decoded : Message.decodeHeader ((payload m ++ rest).take headerSize) =
      ⟨magic, version, m.command.toByte, m.key.length, m.value.length⟩ := by
    rw [Message.decodeHeader_take le_rfl (by simp; omega)]
    exact Message.decodeHeader_frame hk hv rest
  have first : ((payload m ++ rest).take headerSize).take 4 ≠ recordMagic := by
    rw [List.take_take]
    exact payload_not_tagged m rest
  have op_ok : checkOperation (payload m) = .ok m :=
    (checkOperation_ok_iff (by omega)).mpr ⟨h, rfl⟩
  have whole : (payload m ++ rest).take headerSize ++
      ((payload m ++ rest).drop headerSize).take (m.key.length + m.value.length) =
        payload m := by
    rw [List.take_append_of_le_length (by omega), List.drop_append_of_le_length (by omega),
      List.take_left' (by simp; omega), List.take_append_drop]
  have tail : ((payload m ++ rest).drop headerSize).drop (m.key.length + m.value.length) =
      rest := by
    rw [List.drop_drop]
    exact List.drop_left' (by omega)
  have len_ok : legacyLength ((payload m ++ rest).take headerSize)
      ((payload m ++ rest).drop headerSize).length = .ok (m.key.length + m.value.length) := by
    rw [legacyLength_ok_iff, decoded]
    exact ⟨Message.not_malformed_header h.encodable.1 h.2.2.1 h.2.2.2, rfl, by simp; omega⟩
  unfold readRecord
  dsimp only
  rw [if_neg (by simp; omega), if_neg first, bind_eq_ok]
  refine ⟨_, len_ok, ?_⟩
  rw [whole, tail, op_ok]
  rfl

/-- Whatever is accepted is the record of what is delivered. -/
theorem readRecord_sound {stream rest : Bytes} {m : Mutation}
    (h : readRecord stream = .ok (m, rest)) : ∃ r, IsRecord m r ∧ stream = r ++ rest := by
  unfold readRecord at h
  dsimp only at h
  split at h
  · cases h
  rename_i long
  have split : stream = stream.take headerSize ++ stream.drop headerSize :=
    (List.take_append_drop _ _).symm
  have hlen : (stream.take headerSize).length = headerSize := by simp; omega
  split at h
  · rename_i tag
    obtain ⟨length, hl, h⟩ := bind_eq_ok.mp h
    obtain ⟨_, hc, h⟩ := bind_eq_ok.mp h
    obtain ⟨m', ho, h⟩ := bind_eq_ok.mp h
    cases h
    obtain ⟨len, low, _, fits⟩ := recordLength_ok_iff.mp hl
    have plen : ((stream.drop headerSize).take length).length = length := by
      simp only [List.length_take]; omega
    obtain ⟨loggable, whole⟩ := (checkOperation_ok_iff (by omega)).mp ho
    refine ⟨record m, ⟨loggable, Or.inl rfl⟩, ?_⟩
    have header : stream.take headerSize = recordMagic ++ beBytes 4 (payload m).length ++
        beBytes 4 (crc (payload m)).toNat := by
      have sum := checkCrc_ok_iff.mp hc
      rw [← whole, sum, plen, len]
      have four : ((stream.take headerSize).drop 4).take 4 ++
          ((stream.take headerSize).drop 8).take 4 = (stream.take headerSize).drop 4 := by
        have : ((stream.take headerSize).drop 8).take 4 =
            ((stream.take headerSize).drop 4).drop 4 := by
          rw [List.drop_drop, List.take_of_length_le (by simp [headerSize])]
        rw [this, List.take_append_drop]
      have b1 := beBytes_beNat (((stream.take headerSize).drop 4).take 4)
      have b2 := beBytes_beNat (((stream.take headerSize).drop 8).take 4)
      have l1 : (((stream.take headerSize).drop 4).take 4).length = 4 := by
        simp [headerSize] at hlen ⊢; omega
      have l2 : (((stream.take headerSize).drop 8).take 4).length = 4 := by
        simp [headerSize] at hlen ⊢; omega
      rw [l1] at b1
      rw [l2] at b2
      rw [b1, b2, ← tag, List.append_assoc, four, List.take_append_drop]
    calc stream = stream.take headerSize ++ stream.drop headerSize := split
      _ = (stream.take headerSize ++ (stream.drop headerSize).take length) ++
          (stream.drop headerSize).drop length := by
        rw [List.append_assoc, List.take_append_drop length]
      _ = record m ++ (stream.drop headerSize).drop length := by
        rw [header, whole]
        rfl
  · obtain ⟨length, hl, h⟩ := bind_eq_ok.mp h
    obtain ⟨m', ho, h⟩ := bind_eq_ok.mp h
    cases h
    obtain ⟨loggable, whole⟩ := (checkOperation_ok_iff (by simp; omega)).mp ho
    refine ⟨payload m, ⟨loggable, Or.inr rfl⟩, ?_⟩
    rw [← whole, List.append_assoc, List.take_append_drop, List.take_append_drop]

theorem readRecord_isRecord {m : Mutation} {r : Bytes} (h : IsRecord m r) (rest : Bytes) :
    readRecord (r ++ rest) = .ok (m, rest) := by
  obtain ⟨hl, rfl | rfl⟩ := h
  · exact readRecord_record hl rest
  · exact readRecord_payload hl rest

/-- The record reader as a parser of record streams. -/
def parse (stream : Bytes) : Option (Mutation × Bytes) := (readRecord stream).toOption

theorem parse_eq_some_iff {stream rest : Bytes} {m : Mutation} :
    parse stream = some (m, rest) ↔ ∃ r, IsRecord m r ∧ stream = r ++ rest := by
  constructor
  · intro h
    apply readRecord_sound
    unfold parse at h
    cases hr : readRecord stream with
    | error e => simp [hr, Except.toOption] at h
    | ok pair => simpa [hr, Except.toOption] using h
  · rintro ⟨r, hr, rfl⟩
    rw [parse, readRecord_isRecord hr]
    rfl

theorem IsRecord.ne_nil {m : Mutation} {r : Bytes} (h : IsRecord m r) : r ≠ [] := by
  obtain ⟨_, rfl | rfl⟩ := h <;> intro hnil <;> have := congrArg List.length hnil
  · simp at this
  · simp [payload, headerSize] at this

theorem record_iff_isRecord {m : Mutation} {r : Bytes} :
    Records.Record parse m r ↔ IsRecord m r := by
  constructor
  · rintro ⟨_, h⟩
    obtain ⟨r', hr', heq⟩ := parse_eq_some_iff.mp (h [])
    rw [List.append_nil, List.append_nil] at heq
    exact heq ▸ hr'
  · intro h
    exact ⟨h.ne_nil, fun rest => parse_eq_some_iff.mpr ⟨r, h, rfl⟩⟩

theorem parse_selfDelimiting : Records.SelfDelimiting parse := by
  intro xs m rest h
  obtain ⟨r, hr, split⟩ := parse_eq_some_iff.mp h
  exact ⟨r, split, record_iff_isRecord.mpr hr⟩

end KVRPC.Aof
