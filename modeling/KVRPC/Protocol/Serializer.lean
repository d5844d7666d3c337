import KVRPC.Library.ByteOrder

/-!
# The serializer

`Serializer` of `serializer.h`: a buffer with a cursor. Numbers and the lengths of strings are
written least significant octet first on every host; the byte order of the host is a parameter.

1. Serializing appends `encode` of the value, whatever the host (`serialize_eq`).
2. Deserializing succeeds on what `encode` has written and on nothing else (`deserialize_encode`,
   `deserialize_ok`).
-/
namespace KVRPC

open Library

/-- The arithmetic types other than `bool`; a floating-point number is given by its bits. -/
inductive Number where
  | unsigned (log : Fin 4)
  | signed (log : Fin 4)
  | float
  | double
  deriving DecidableEq, Repr

/-- `sizeof`: integers have 1, 2, 4 or 8 octets. -/
def Number.size : Number → Nat
  | .unsigned log | .signed log => 2 ^ log.val
  | .float => 4
  | .double => 8

inductive SerialType where
  | bool
  | number (type : Number)
  | string
  deriving DecidableEq, Repr

abbrev SerialType.Carrier : SerialType → Type
  | .bool => Bool
  | .number type => BitVec (8 * type.size)
  | .string => Bytes

structure Serializer where
  maxBytes : Nat := 64 * 1024 * 1024
  buffer : Bytes := []
  offset : Nat := 0
  offset_le : offset ≤ buffer.length := by simp

namespace Serializer

/-- What a call throws. -/
inductive Failure where
  | lengthError (what : String)
  | outOfRange (what : String)
  | invalidArgument (what : String)
  deriving DecidableEq, Repr

/-- The result of a call and the serializer after it, also if the call throws. -/
abbrev Outcome (α : Type) := Except Failure α × Serializer

def limitExceeded : Failure := .lengthError "Serialized payload exceeds configured limit"

def truncated : Failure := .outOfRange "Truncated serialized value"

def remaining (s : Serializer) : Nat := s.buffer.length - s.offset

def reset (s : Serializer) : Serializer := { maxBytes := s.maxBytes }

/-- The first octet of a 16-bit one is not zero. -/
def littleEndian (host : ByteOrder) : Bool := (host.represent 2 1).headD 0 == 1

/-- Where octet `i` of the wire stands in the object representation. -/
def index (host : ByteOrder) (size i : Nat) : Nat :=
  if littleEndian host then i else size - 1 - i

/-- The condition under which `ReserveFor` throws. -/
def Full (s : Serializer) (bytes : Nat) : Prop :=
  s.buffer.length > s.maxBytes ∨ bytes > s.maxBytes - s.buffer.length

instance (s : Serializer) (bytes : Nat) : Decidable (s.Full bytes) :=
  inferInstanceAs (Decidable (_ ∨ _))

def pushBack (s : Serializer) (bytes : Bytes) : Serializer :=
  { s with
    buffer := s.buffer ++ bytes
    offset_le := by have := s.offset_le; simp; omega }

/-- The cursor moves over octets that `Require` has found to be there. -/
def advance (s : Serializer) (n : Nat) (h : n ≤ s.remaining) : Serializer :=
  { s with
    offset := s.offset + n
    offset_le := by have := s.offset_le; unfold remaining at h; omega }

/-! ## Writing -/

def serializeBool (b : Bool) (s : Serializer) : Outcome Unit :=
  if s.Full 1 then (.error limitExceeded, s)
  else (.ok (), s.pushBack [if b then 1 else 0])

/-- The loop over the octets of a number. -/
def wire (host : ByteOrder) (size n : Nat) : Bytes :=
  let bytes := host.represent size n
  (List.range size).map fun i => bytes.getD (index host size i) 0

def serializeNumber (host : ByteOrder) (size n : Nat) (s : Serializer) : Outcome Unit :=
  if s.Full size then (.error limitExceeded, s)
  else (.ok (), s.pushBack (wire host size n))

def serializeString (host : ByteOrder) (text : Bytes) (s : Serializer) : Outcome Unit :=
  if text.length > 2 ^ 32 - 1 then (.error (.lengthError "String exceeds wire length limit"), s)
  else if s.Full (4 + text.length) then (.error limitExceeded, s)
  else
    match serializeNumber host 4 text.length s with
    | (.ok (), s) => (.ok (), s.pushBack text)
    | (.error e, s) => (.error e, s)

/-- `Serialize` of a pointer to characters, which may be null. -/
def serializePointer (host : ByteOrder) (text : Option Bytes) (s : Serializer) : Outcome Unit :=
  match text with
  | none => (.error (.invalidArgument "Cannot serialize a null string"), s)
  | some text => serializeString host text s

def serialize (host : ByteOrder) : (τ : SerialType) → τ.Carrier → Serializer → Outcome Unit
  | .bool, b, s => serializeBool b s
  | .number type, x, s => serializeNumber host type.size (BitVec.toNat x) s
  | .string, text, s => serializeString host text s

/-! ## Reading -/

def deserializeBool (s : Serializer) : Outcome Bool :=
  if h : 1 ≤ s.remaining then
    let byte := s.buffer.getD s.offset 0
    if byte > 1 then (.error (.invalidArgument "Invalid boolean encoding"), s)
    else (.ok (byte == 1), s.advance 1 h)
  else (.error truncated, s)

def deserializeNumber (host : ByteOrder) (size : Nat) (s : Serializer) : Outcome Nat :=
  if h : size ≤ s.remaining then
    let bytes := scatter (index host size) (fun i => s.buffer.getD (s.offset + i) 0) size
      (List.replicate size 0)
    (.ok (host.number bytes), s.advance size h)
  else (.error truncated, s)

def deserializeString (host : ByteOrder) (s : Serializer) : Outcome Bytes :=
  match deserializeNumber host 4 s with
  | (.error e, s) => (.error e, s)
  | (.ok size, s) =>
    if h : size ≤ s.remaining then
      (.ok ((s.buffer.drop s.offset).take size), s.advance size h)
    else (.error truncated, s)

def deserialize (host : ByteOrder) : (τ : SerialType) → Serializer → Outcome τ.Carrier
  | .bool, s => deserializeBool s
  | .number type, s =>
    match deserializeNumber host type.size s with
    | (.ok n, s) => (.ok (BitVec.ofNat _ n), s)
    | (.error e, s) => (.error e, s)
  | .string, s => deserializeString host s

/-! ## What is written -/

/-- The octets on the wire do not depend on the host. -/
theorem wire_eq (host : ByteOrder) (size n : Nat) : wire host size n = leBytes size n := by
  cases host with
  | little =>
    have same := map_getD_range (leBytes size n) 0
    rw [length_leBytes] at same
    exact same
  | big =>
    have same := map_getD_range_reverse (beBytes size n) 0
    rw [length_beBytes] at same
    exact same

/-- The octets of a value. -/
def encode : (τ : SerialType) → τ.Carrier → Bytes
  | .bool, b => [if b then 1 else 0]
  | .number type, x => leBytes type.size (BitVec.toNat x)
  | .string, text => leBytes 4 text.length ++ text

/-- Strings have a length of at most 32 bits. -/
def Storable : (τ : SerialType) → τ.Carrier → Prop
  | .string, text => List.length text ≤ 2 ^ 32 - 1
  | _, _ => True

theorem not_full {s : Serializer} {n : Nat} (room : s.buffer.length + n ≤ s.maxBytes) :
    ¬ s.Full n := by
  unfold Full
  omega

theorem serializeNumber_eq {s : Serializer} (host : ByteOrder) (size n : Nat)
    (room : s.buffer.length + size ≤ s.maxBytes) :
    serializeNumber host size n s = (.ok (), s.pushBack (leBytes size n)) := by
  rw [serializeNumber, if_neg (not_full room), wire_eq]

theorem pushBack_pushBack (s : Serializer) (xs ys : Bytes) :
    (s.pushBack xs).pushBack ys = s.pushBack (xs ++ ys) := by
  simp [pushBack]

theorem serializeString_eq {s : Serializer} {text : Bytes} (host : ByteOrder)
    (short : text.length ≤ 2 ^ 32 - 1) (room : s.buffer.length + (4 + text.length) ≤ s.maxBytes) :
    serializeString host text s = (.ok (), s.pushBack (leBytes 4 text.length ++ text)) := by
  rw [serializeString, if_neg (by omega), if_neg (not_full room),
    serializeNumber_eq host 4 text.length (by omega)]
  simp only [pushBack_pushBack]

/-- What fits is appended, octet for octet the same on every host. -/
theorem serialize_eq {s : Serializer} {τ : SerialType} {x : τ.Carrier} (host : ByteOrder)
    (storable : Storable τ x) (room : s.buffer.length + (encode τ x).length ≤ s.maxBytes) :
    serialize host τ x s = (.ok (), s.pushBack (encode τ x)) := by
  cases τ with
  | bool => exact if_neg (not_full room)
  | number type => exact serializeNumber_eq host _ _ (by simpa [encode] using room)
  | string => exact serializeString_eq host storable (by simpa [encode] using room)

/-! ## What is read -/

/-- What is still to be read. -/
def rest (s : Serializer) : Bytes := s.buffer.drop s.offset

@[simp] theorem length_rest (s : Serializer) : s.rest.length = s.remaining := List.length_drop

@[simp] theorem rest_advance {s : Serializer} {n : Nat} (h : n ≤ s.remaining) :
    (s.advance n h).rest = s.rest.drop n := by
  simp [rest, advance, List.drop_drop]

theorem getD_rest (s : Serializer) (i : Nat) :
    s.buffer.getD (s.offset + i) 0 = s.rest.getD i 0 := by
  simp [rest]

/-- The array that is filled and the number it represents. -/
theorem number_scatter (host : ByteOrder) (bytes : Bytes) :
    host.number (scatter (index host bytes.length) (bytes.getD · 0) bytes.length
      (List.replicate bytes.length 0)) = leNat bytes := by
  cases host with
  | little =>
    have filled : scatter (index .little bytes.length) (bytes.getD · 0) bytes.length
        (List.replicate bytes.length 0) = bytes :=
      (scatter_id _ List.length_replicate).trans (map_getD_range bytes 0)
    rw [filled]
    rfl
  | big =>
    have filled : scatter (index .big bytes.length) (bytes.getD · 0) bytes.length
        (List.replicate bytes.length 0) = bytes.reverse := by
      refine (scatter_reverse _ List.length_replicate).trans ?_
      rw [map_getD_range]
    rw [filled]
    rfl

theorem deserializeNumber_eq {s : Serializer} (host : ByteOrder) {size : Nat}
    (h : size ≤ s.remaining) :
    deserializeNumber host size s = (.ok (leNat (s.rest.take size)), s.advance size h) := by
  have full : (s.rest.take size).length = size := by simpa using h
  have read := number_scatter host (s.rest.take size)
  rw [full] at read
  rw [deserializeNumber, dif_pos h, ← read]
  dsimp only
  rw [scatter_congr]
  intro i inside
  rw [getD_rest]
  simp [inside]

theorem deserializeNumber_short {s : Serializer} (host : ByteOrder) {size : Nat}
    (h : s.remaining < size) : deserializeNumber host size s = (.error truncated, s) :=
  dif_neg (by omega)

theorem deserializeBool_eq {s : Serializer} {byte : UInt8} {tail : Bytes}
    (front : s.rest = byte :: tail) :
    ∃ h, deserializeBool s = if byte > 1 then
      (.error (.invalidArgument "Invalid boolean encoding"), s)
      else (.ok (byte == 1), s.advance 1 h) := by
  have some_left : 1 ≤ s.remaining := by
    rw [← length_rest, front]
    simp
  refine ⟨some_left, ?_⟩
  have first : s.buffer.getD s.offset 0 = byte := by
    have := s.getD_rest 0
    rwa [front] at this
  rw [deserializeBool, dif_pos some_left]
  dsimp only
  rw [first]

/-- A string is read in two steps. -/
theorem deserializeString_eq {s : Serializer} (host : ByteOrder) (h : 4 ≤ s.remaining) :
    deserializeString host s =
      if enough : leNat (s.rest.take 4) ≤ (s.advance 4 h).remaining then
        (.ok ((s.rest.drop 4).take (leNat (s.rest.take 4))),
          (s.advance 4 h).advance (leNat (s.rest.take 4)) enough)
      else (.error truncated, s.advance 4 h) := by
  rw [deserializeString, deserializeNumber_eq host h]
  dsimp only
  have after : (s.advance 4 h).buffer.drop (s.advance 4 h).offset = s.rest.drop 4 := rest_advance h
  rw [after]

@[simp] theorem remaining_advance {s : Serializer} {n : Nat} (h : n ≤ s.remaining) :
    (s.advance n h).remaining = s.remaining - n := by
  simp only [remaining, advance]
  omega

theorem advance_advance {s : Serializer} {m n : Nat} (h : m ≤ s.remaining)
    (h' : n ≤ (s.advance m h).remaining) :
    (s.advance m h).advance n h' =
      s.advance (m + n) (by rw [remaining_advance] at h'; omega) := by
  simp [advance, Nat.add_assoc]

theorem toNat_lt {type : Number} (x : BitVec (8 * type.size)) :
    x.toNat < 256 ^ type.size := by
  have := x.isLt
  rwa [pow_mul] at this

/-- **What was written can be read**, on every host. -/
theorem deserialize_encode {s : Serializer} {τ : SerialType} {x : τ.Carrier} {tail : Bytes}
    (host : ByteOrder) (storable : Storable τ x) (front : s.rest = encode τ x ++ tail) :
    ∃ h, deserialize host τ s = (.ok x, s.advance (encode τ x).length h) := by
  have enough : (encode τ x).length ≤ s.remaining := by
    rw [← length_rest, front]
    simp
  refine ⟨enough, ?_⟩
  cases τ with
  | bool =>
    obtain ⟨_, found⟩ := deserializeBool_eq front
    cases x with
    | false => exact found
    | true => exact found
  | number type =>
    have size : (encode (.number type) x).length = type.size := length_leBytes _ _
    have field : s.rest.take type.size = leBytes type.size (BitVec.toNat x) := by
      rw [front]
      exact List.take_left' size
    simp only [deserialize, deserializeNumber_eq host (size ▸ enough), field,
      leNat_leBytes_of_lt (toNat_lt x), BitVec.ofNat_toNat, BitVec.setWidth_eq, size]
  | string =>
    have size : (encode .string x).length = 4 + List.length x := by simp [encode]
    have header : s.rest.take 4 = leBytes 4 (List.length x) := by
      simp [front, encode]
    have body : s.rest.drop 4 = x ++ tail := by
      simp [front, encode]
    have length : leNat (s.rest.take 4) = List.length x := by
      rw [header]
      refine leNat_leBytes_of_lt ?_
      have : List.length x ≤ 2 ^ 32 - 1 := storable
      omega
    have four : 4 ≤ s.remaining := by omega
    have whole : List.length x ≤ (s.advance 4 four).remaining := by
      rw [remaining_advance]
      omega
    rw [deserialize, deserializeString_eq host four]
    simp only [length, dif_pos whole, body, List.take_left, advance_advance, size]

/-- Writing back the number that was read. -/
theorem leBytes_ofNat {type : Number} {bytes : Bytes} (full : bytes.length = type.size) :
    leBytes type.size (BitVec.ofNat (8 * type.size) (leNat bytes)).toNat = bytes := by
  have bound : leNat bytes < (2 ^ 8) ^ type.size := by
    simpa [full] using leNat_lt bytes
  rw [BitVec.toNat_ofNat, pow_mul, Nat.mod_eq_of_lt bound, ← full, leBytes_leNat]

/-- The boolean that an accepted octet stands for is written as that octet. -/
theorem encode_of_le_one {byte : UInt8} (small : ¬ byte > 1) :
    encode .bool (byte == 1) = [byte] := by
  have cases : byte = 0 ∨ byte = 1 := by
    have : byte.toNat ≤ 1 := UInt8.le_iff_toNat_le.mp (UInt8.not_lt.mp small)
    obtain zero | one : byte.toNat = 0 ∨ byte.toNat = 1 := by omega
    · exact .inl (UInt8.toNat_inj.mp zero)
    · exact .inr (UInt8.toNat_inj.mp one)
  rcases cases with rfl | rfl
  · rfl
  · rfl

/-- **What is read was written**: the octets read are those of the value. -/
theorem deserialize_ok {s s' : Serializer} {τ : SerialType} {x : τ.Carrier} {host : ByteOrder}
    (h : deserialize host τ s = (.ok x, s')) :
    Storable τ x ∧ s.rest = encode τ x ++ s'.rest ∧ s'.buffer = s.buffer := by
  cases τ with
  | bool =>
    cases front : s.rest with
    | nil =>
      have none_left : ¬ 1 ≤ s.remaining := by
        rw [← length_rest, front]
        simp
      simp [deserialize, deserializeBool, none_left] at h
    | cons byte tail =>
      obtain ⟨some_left, found⟩ := deserializeBool_eq front
      rw [deserialize, found] at h
      split at h
      case isTrue => simp at h
      case isFalse small =>
        cases h
        rw [encode_of_le_one small, rest_advance, front]
        exact ⟨trivial, rfl, rfl⟩
  | number type =>
    by_cases enough : type.size ≤ s.remaining
    · simp only [deserialize, deserializeNumber_eq host enough] at h
      cases h
      have full : (s.rest.take type.size).length = type.size := by simpa using enough
      have field := leBytes_ofNat full
      refine ⟨trivial, ?_, rfl⟩
      rw [encode, field, rest_advance, List.take_append_drop]
    · simp [deserialize, deserializeNumber_short host (not_le.mp enough)] at h
  | string =>
    by_cases four : 4 ≤ s.remaining
    · rw [deserialize, deserializeString_eq host four] at h
      split at h
      case isTrue enough =>
        cases h
        have header : (s.rest.take 4).length = 4 := by simpa using four
        have bound := leNat_lt (s.rest.take 4)
        have body : ((s.rest.drop 4).take (leNat (s.rest.take 4))).length =
            leNat (s.rest.take 4) := by
          rw [remaining_advance] at enough
          simpa using enough
        have size := leBytes_leNat (s.rest.take 4)
        rw [header] at bound size
        refine ⟨?_, ?_, rfl⟩
        · change List.length _ ≤ _
          omega
        · rw [encode, body, size, rest_advance, rest_advance, List.append_assoc,
            List.take_append_drop, List.take_append_drop]
      case isFalse => simp at h
    · simp [deserialize, deserializeString, deserializeNumber_short host (not_le.mp four)] at h

/-- A value that is cut short is reported as truncated. -/
theorem deserialize_short {s : Serializer} {τ : SerialType} {x : τ.Carrier} (host : ByteOrder)
    (storable : Storable τ x) (front : s.rest <+: encode τ x)
    (short : s.remaining < (encode τ x).length) :
    (deserialize host τ s).1 = .error truncated := by
  cases τ with
  | bool =>
    have none_left : ¬ 1 ≤ s.remaining := not_le.mpr short
    simp [deserialize, deserializeBool, none_left]
  | number type =>
    have few : s.remaining < type.size := by simpa [encode] using short
    simp [deserialize, deserializeNumber_short host few]
  | string =>
    by_cases four : 4 ≤ s.remaining
    · -- the length is there and promises more than is left
      obtain ⟨tail, whole⟩ := front
      have header : s.rest.take 4 = leBytes 4 (List.length x) := by
        have := congrArg (List.take 4) whole
        rw [List.take_append_of_le_length (by simpa using four)] at this
        rw [this]
        simp [encode]
      have length : leNat (s.rest.take 4) = List.length x := by
        rw [header]
        refine leNat_leBytes_of_lt ?_
        have : List.length x ≤ 2 ^ 32 - 1 := storable
        omega
      have size : (encode .string x).length = 4 + List.length x := by simp [encode]
      have over_ : ¬ List.length x ≤ (s.advance 4 four).remaining := by
        rw [remaining_advance]
        omega
      rw [deserialize, deserializeString_eq host four]
      simp only [length, dif_neg over_]
    · simp [deserialize, deserializeString, deserializeNumber_short host (not_le.mp four)]

end Serializer
end KVRPC
