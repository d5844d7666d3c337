import KVRPC.Library.Bytes

/-!
# Tagged wire fields

The wire format of protocol buffers without groups: a message is a sequence of fields,
each a tag with a field number and a wire type followed by a payload. Numbers are
written seven bits to an octet, least significant first.

1. Written fields are read back, whatever follows them.
2. Reading accepts encodings that are not the shortest, and writing what was read never
   makes a message longer.
-/
namespace KVRPC.Library.Wire

def varint (n : Nat) : Bytes :=
  if n < 128 then [UInt8.ofNat n] else UInt8.ofNat (n % 128 + 128) :: varint (n / 128)
termination_by n

/-- A number of at most `k` octets. -/
def readVarint : Nat → Bytes → Option (Nat × Bytes)
  | 0, _ => none
  | _ + 1, [] => none
  | k + 1, b :: bs =>
    if b.toNat < 128 then some (b.toNat, bs)
    else (readVarint k bs).map fun p => (b.toNat - 128 + 128 * p.1, p.2)

theorem varint_of_lt {n : Nat} (h : n < 128) : varint n = [UInt8.ofNat n] := by
  rw [varint, if_pos h]

theorem varint_of_ge {n : Nat} (h : 128 ≤ n) :
    varint n = UInt8.ofNat (n % 128 + 128) :: varint (n / 128) := by
  rw [varint, if_neg (by omega)]

theorem length_varint_pos (n : Nat) : 0 < (varint n).length := by
  rw [varint]
  split <;> simp

theorem length_varint_mono {m n : Nat} (h : m ≤ n) : (varint m).length ≤ (varint n).length := by
  induction n using Nat.strongRecOn generalizing m with
  | ind n ih =>
    rcases Nat.lt_or_ge m 128 with small | large
    · rw [varint_of_lt small]
      exact length_varint_pos n
    · rw [varint_of_ge large, varint_of_ge (large.trans h), List.length_cons, List.length_cons]
      exact Nat.succ_le_succ (ih (n / 128) (by omega) (Nat.div_le_div_right h))

theorem length_varint_le {k n : Nat} (h : n < 128 ^ (k + 1)) : (varint n).length ≤ k + 1 := by
  induction k generalizing n with
  | zero => rw [varint_of_lt (by simpa using h)]; rfl
  | succ k ih =>
    rcases Nat.lt_or_ge n 128 with small | large
    · rw [varint_of_lt small]
      simp
    · rw [varint_of_ge large, List.length_cons]
      refine Nat.succ_le_succ (ih ?_)
      rw [Nat.div_lt_iff_lt_mul (by omega), ← pow_succ]
      exact h

theorem readVarint_varint {k n : Nat} (h : n < 128 ^ (k + 1)) (rest : Bytes) :
    readVarint (k + 1) (varint n ++ rest) = some (n, rest) := by
  induction k generalizing n with
  | zero =>
    have small : n < 128 := by simpa using h
    rw [varint_of_lt small]
    simp [readVarint, show n % 256 = n by omega, small]
  | succ k ih =>
    rcases Nat.lt_or_ge n 128 with small | large
    · rw [varint_of_lt small]
      simp [readVarint, show n % 256 = n by omega, small]
    · have tail := ih (n := n / 128) (by
        rw [Nat.div_lt_iff_lt_mul (by omega), ← pow_succ]
        exact h)
      have octet : (n % 128 + 128) % 256 = n % 128 + 128 := by omega
      rw [varint_of_ge large, List.cons_append, readVarint]
      simp only [UInt8.toNat_ofNat', Nat.reducePow, octet, tail]
      rw [if_neg (by omega)]
      simp only [Option.map_some, Option.some.injEq, Prod.mk.injEq, and_true]
      omega

/-- What is read takes at least as many octets as its shortest form. -/
theorem length_of_readVarint {k n : Nat} {bs rest : Bytes} (h : readVarint k bs = some (n, rest)) :
    (varint n).length + rest.length ≤ bs.length := by
  induction k generalizing n bs with
  | zero => cases h
  | succ k ih =>
    cases bs with
    | nil => cases h
    | cons b bs =>
      rw [readVarint] at h
      split at h
      · rename_i small
        cases h
        rw [varint_of_lt small]
        simp; omega
      · obtain ⟨⟨m, rest'⟩, hm, heq⟩ := Option.map_eq_some_iff.mp h
        cases heq
        have tail : (varint m).length + rest'.length ≤ bs.length := ih hm
        have := b.toNat_lt
        rcases Nat.lt_or_ge (b.toNat - 128 + 128 * m) 128 with tiny | large
        · rw [varint_of_lt tiny]
          simp; omega
        · rw [varint_of_ge large, show (b.toNat - 128 + 128 * m) / 128 = m by omega]
          simp; omega

/-! ## Fields -/

inductive Payload where
  | varint (n : UInt64)
  | fixed64 (bytes : Bytes)
  | bytes (bytes : Bytes)
  | fixed32 (bytes : Bytes)
  deriving DecidableEq, Repr

structure Field where
  number : Nat
  payload : Payload
  deriving DecidableEq, Repr

def Payload.wireType : Payload → Nat
  | .varint _ => 0
  | .fixed64 _ => 1
  | .bytes _ => 2
  | .fixed32 _ => 5

def Payload.encode : Payload → Bytes
  | .varint n => Wire.varint n.toNat
  | .fixed64 b => b
  | .bytes b => Wire.varint b.length ++ b
  | .fixed32 b => b

def Payload.Valid : Payload → Prop
  | .varint _ => True
  | .fixed64 b => b.length = 8
  | .bytes b => b.length < 2 ^ 64
  | .fixed32 b => b.length = 4

instance (p : Payload) : Decidable p.Valid := by
  cases p <;> unfold Payload.Valid <;> infer_instance

structure Field.Valid (f : Field) : Prop where
  number_pos : 0 < f.number
  number_lt : f.number < 2 ^ 29
  payload : f.payload.Valid

instance (f : Field) : Decidable f.Valid :=
  decidable_of_iff (0 < f.number ∧ f.number < 2 ^ 29 ∧ f.payload.Valid)
    ⟨fun h => ⟨h.1, h.2.1, h.2.2⟩, fun h => ⟨h.1, h.2, h.3⟩⟩

def Field.encode (f : Field) : Bytes :=
  Wire.varint (f.number * 8 + f.payload.wireType) ++ f.payload.encode

/-- The first `n` octets, if there are as many. -/
def splitAtLength (n : Nat) (bs : Bytes) : Option (Bytes × Bytes) :=
  if n ≤ bs.length then some (bs.take n, bs.drop n) else none

def readPayload (wireType : Nat) (bs : Bytes) : Option (Payload × Bytes) :=
  match wireType with
  | 0 => (readVarint 10 bs).map fun p => (.varint (UInt64.ofNat p.1), p.2)
  | 1 => (splitAtLength 8 bs).map fun p => (.fixed64 p.1, p.2)
  | 2 => (readVarint 10 bs).bind fun p =>
      if p.1 < 2 ^ 64 then (splitAtLength p.1 p.2).map fun q => (.bytes q.1, q.2) else none
  | 5 => (splitAtLength 4 bs).map fun p => (.fixed32 p.1, p.2)
  | _ => none

def readField (bs : Bytes) : Option (Field × Bytes) :=
  (readVarint 10 bs).bind fun p =>
    if 0 < p.1 / 8 ∧ p.1 / 8 < 2 ^ 29 then
      (readPayload (p.1 % 8) p.2).map fun q => (⟨p.1 / 8, q.1⟩, q.2)
    else none

/-- Fields up to the end of the message; `fuel` bounds their number. -/
def readFields : Nat → Bytes → Option (List Field)
  | _, [] => some []
  | 0, _ :: _ => none
  | fuel + 1, b :: bs =>
    (readField (b :: bs)).bind fun p => (readFields fuel p.2).map (p.1 :: ·)

def encodeFields (fs : List Field) : Bytes := (fs.map Field.encode).flatten

theorem splitAtLength_append (xs ys : Bytes) :
    splitAtLength xs.length (xs ++ ys) = some (xs, ys) := by
  rw [splitAtLength, if_pos (by simp), List.take_left' rfl, List.drop_left' rfl]

theorem readPayload_encode {p : Payload} (h : p.Valid) (rest : Bytes) :
    readPayload p.wireType (p.encode ++ rest) = some (p, rest) := by
  cases p with
  | varint n =>
    have small : n.toNat < 128 ^ (9 + 1) := n.toNat_lt.trans (by norm_num)
    simp [readPayload, Payload.encode, Payload.wireType, readVarint_varint small]
  | fixed64 b =>
    have len : b.length = 8 := h
    have := splitAtLength_append b rest
    rw [len] at this
    simp [readPayload, Payload.encode, Payload.wireType, this]
  | bytes b =>
    have len : b.length < 2 ^ 64 := h
    have small : b.length < 128 ^ (9 + 1) := len.trans (by norm_num)
    simp [readPayload, Payload.encode, Payload.wireType, readVarint_varint small,
      splitAtLength_append]
    exact len
  | fixed32 b =>
    have len : b.length = 4 := h
    have := splitAtLength_append b rest
    rw [len] at this
    simp [readPayload, Payload.encode, Payload.wireType, this]

theorem Payload.wireType_lt (p : Payload) : p.wireType < 8 := by
  cases p <;> simp [Payload.wireType]

theorem readField_encode {f : Field} (h : f.Valid) (rest : Bytes) :
    readField (f.encode ++ rest) = some (f, rest) := by
  have wire := f.payload.wireType_lt
  have tag : f.number * 8 + f.payload.wireType < 128 ^ (9 + 1) := by
    have := h.number_lt
    norm_num
    omega
  rw [readField, Field.encode, List.append_assoc, readVarint_varint tag, Option.bind_some]
  have number : (f.number * 8 + f.payload.wireType) / 8 = f.number := by omega
  have kind : (f.number * 8 + f.payload.wireType) % 8 = f.payload.wireType := by omega
  simp only [number, kind, readPayload_encode h.payload]
  rw [if_pos ⟨h.number_pos, h.number_lt⟩]
  rfl

theorem length_encode_pos (f : Field) : 0 < f.encode.length := by
  have := length_varint_pos (f.number * 8 + f.payload.wireType)
  rw [Field.encode, List.length_append]
  omega

theorem readFields_encodeFields {fs : List Field} (h : ∀ f ∈ fs, f.Valid) {fuel : Nat}
    (hf : fs.length ≤ fuel) : readFields fuel (encodeFields fs) = some fs := by
  induction fs generalizing fuel with
  | nil => cases fuel <;> rfl
  | cons f fs ih =>
    cases fuel with
    | zero => simp at hf
    | succ fuel =>
      have first := readField_encode (h f (by simp)) (encodeFields fs)
      have tail := ih (fun x hx => h x (by simp [hx])) (show fs.length ≤ fuel by simpa using hf)
      have split : encodeFields (f :: fs) = f.encode ++ encodeFields fs := rfl
      have nonempty : ∃ b bs, f.encode ++ encodeFields fs = b :: bs := by
        refine List.exists_cons_of_length_pos ?_
        have := length_encode_pos f
        rw [List.length_append]
        omega
      obtain ⟨b, bs, heq⟩ := nonempty
      rw [split, heq, readFields, ← heq, first, Option.bind_some]
      simp [tail]

theorem length_encodeFields (fs : List Field) :
    fs.length ≤ (encodeFields fs).length := by
  induction fs with
  | nil => rfl
  | cons f fs ih =>
    have := length_encode_pos f
    simp only [encodeFields, List.map_cons, List.flatten_cons, List.length_append,
      List.length_cons] at ih ⊢
    omega

/-- A message is no shorter than an octet string in it. -/
theorem length_bytes_le {fs : List Field} {k : Nat} {b : Bytes} (mem : ⟨k, .bytes b⟩ ∈ fs) :
    b.length ≤ (encodeFields fs).length := by
  have field : b.length ≤ (Field.encode ⟨k, .bytes b⟩).length := by
    simp only [Field.encode, Payload.encode, List.length_append]
    omega
  refine field.trans ?_
  rw [encodeFields, List.length_flatten]
  exact List.single_le_sum (by simp) _ (List.mem_map_of_mem (List.mem_map_of_mem mem))

/-! ## Signed numbers -/

/-- Numbers of small magnitude become small. -/
def zigzag (n : Int64) : UInt64 :=
  if 0 ≤ n.toInt then UInt64.ofNat (2 * n.toInt).toNat
  else UInt64.ofNat (-2 * n.toInt - 1).toNat

def unzigzag (u : UInt64) : Int64 :=
  if u.toNat % 2 = 0 then Int64.ofInt (u.toNat / 2 : Nat)
  else Int64.ofInt (-((u.toNat + 1) / 2 : Nat))

theorem unzigzag_zigzag (n : Int64) : unzigzag (zigzag n) = n := by
  have low := n.le_toInt
  have high := n.toInt_lt
  norm_num at low high
  unfold zigzag
  split
  · rename_i positive
    have exact_ : (UInt64.ofNat (2 * n.toInt).toNat).toNat = (2 * n.toInt).toNat := by
      rw [UInt64.toNat_ofNat', Nat.mod_eq_of_lt (by omega)]
    have half : (((2 * n.toInt).toNat / 2 : Nat) : Int) = n.toInt := by omega
    rw [unzigzag, exact_, if_pos (by omega), half, Int64.ofInt_toInt]
  · rename_i negative
    have exact_ : (UInt64.ofNat (-2 * n.toInt - 1).toNat).toNat = (-2 * n.toInt - 1).toNat := by
      rw [UInt64.toNat_ofNat', Nat.mod_eq_of_lt (by omega)]
    have half : -((((-2 * n.toInt - 1).toNat + 1) / 2 : Nat) : Int) = n.toInt := by omega
    rw [unzigzag, exact_, if_neg (by omega), half, Int64.ofInt_toInt]

/-! ## Text -/

def utf8 (s : String) : Bytes := s.toUTF8.data.toList

/-- Whether `b` may follow the leading octet `a` of a sequence of at least two octets. -/
def utf8Second (a b : UInt8) : Bool :=
  if a = 0xE0 then 0xA0 ≤ b && b ≤ 0xBF
  else if a = 0xED then 0x80 ≤ b && b ≤ 0x9F
  else if a = 0xF0 then 0x90 ≤ b && b ≤ 0xBF
  else if a = 0xF4 then 0x80 ≤ b && b ≤ 0x8F
  else 0x80 ≤ b && b ≤ 0xBF

def utf8Tail (b : UInt8) : Bool := 0x80 ≤ b && b ≤ 0xBF

/-- String fields hold UTF-8 without overlong forms and surrogates. -/
def utf8Valid : Bytes → Bool
  | [] => true
  | a :: bs =>
    if a < 0x80 then utf8Valid bs
    else match bs with
      | [] => false
      | b :: bs =>
        if 0xC2 ≤ a ∧ a ≤ 0xDF then utf8Second a b && utf8Valid bs
        else match bs with
          | [] => false
          | c :: bs =>
            if 0xE0 ≤ a ∧ a ≤ 0xEF then utf8Second a b && utf8Tail c && utf8Valid bs
            else match bs with
              | [] => false
              | d :: bs =>
                0xF0 ≤ a && a ≤ 0xF4 && utf8Second a b && utf8Tail c && utf8Tail d &&
                  utf8Valid bs

/-! ## Rewriting what was read -/

theorem splitAtLength_eq_some {n : Nat} {bs xs ys : Bytes}
    (h : splitAtLength n bs = some (xs, ys)) :
    xs.length = n ∧ xs.length + ys.length = bs.length := by
  unfold splitAtLength at h
  split at h
  · cases h
    rw [List.length_take, List.length_drop]
    omega
  · cases h

theorem readPayload_eq_some {w : Nat} {bs rest : Bytes} {p : Payload}
    (h : readPayload w bs = some (p, rest)) :
    p.Valid ∧ p.wireType = w ∧ p.encode.length + rest.length ≤ bs.length := by
  unfold readPayload at h
  split at h
  · obtain ⟨⟨n, r⟩, hn, heq⟩ := Option.map_eq_some_iff.mp h
    cases heq
    have len := length_of_readVarint hn
    have short : (Wire.varint (UInt64.ofNat n).toNat).length ≤ (Wire.varint n).length := by
      refine length_varint_mono ?_
      rw [UInt64.toNat_ofNat']
      exact Nat.mod_le _ _
    exact ⟨trivial, rfl, (Nat.add_le_add_right short _).trans len⟩
  · obtain ⟨⟨xs, ys⟩, hs, heq⟩ := Option.map_eq_some_iff.mp h
    cases heq
    obtain ⟨len, sum⟩ := splitAtLength_eq_some hs
    exact ⟨len, rfl, sum.le⟩
  · obtain ⟨⟨n, r⟩, hn, h⟩ := Option.bind_eq_some_iff.mp h
    have used := length_of_readVarint hn
    dsimp only at h
    split at h
    · rename_i small
      obtain ⟨⟨xs, ys⟩, hs, heq⟩ := Option.map_eq_some_iff.mp h
      cases heq
      obtain ⟨rfl, sum⟩ := splitAtLength_eq_some hs
      refine ⟨small, rfl, ?_⟩
      rw [Payload.encode, List.length_append]
      simp only at sum used ⊢
      omega
    · cases h
  · obtain ⟨⟨xs, ys⟩, hs, heq⟩ := Option.map_eq_some_iff.mp h
    cases heq
    obtain ⟨len, sum⟩ := splitAtLength_eq_some hs
    exact ⟨len, rfl, sum.le⟩
  · cases h

theorem readField_eq_some {bs rest : Bytes} {f : Field} (h : readField bs = some (f, rest)) :
    f.Valid ∧ f.encode.length + rest.length ≤ bs.length := by
  obtain ⟨⟨tag, r⟩, ht, h⟩ := Option.bind_eq_some_iff.mp h
  dsimp only at h
  split at h
  · rename_i number
    obtain ⟨⟨p, r'⟩, hp, heq⟩ := Option.map_eq_some_iff.mp h
    cases heq
    obtain ⟨valid, kind, len⟩ := readPayload_eq_some hp
    have used := length_of_readVarint ht
    refine ⟨⟨number.1, number.2, valid⟩, ?_⟩
    have whole : tag / 8 * 8 + tag % 8 = tag := by omega
    rw [Field.encode, List.length_append]
    simp only [kind, whole] at len used ⊢
    omega
  · cases h

theorem readFields_eq_some {fuel : Nat} {bs : Bytes} {fs : List Field}
    (h : readFields fuel bs = some fs) :
    (∀ f ∈ fs, f.Valid) ∧ (encodeFields fs).length ≤ bs.length := by
  induction fuel generalizing bs fs with
  | zero =>
    cases bs with
    | nil => cases h; exact ⟨by simp, le_rfl⟩
    | cons b bs => cases h
  | succ fuel ih =>
    cases bs with
    | nil => cases h; exact ⟨by simp, le_rfl⟩
    | cons b bs =>
      obtain ⟨⟨f, rest⟩, hf, h⟩ := Option.bind_eq_some_iff.mp h
      obtain ⟨fs', hfs, rfl⟩ := Option.map_eq_some_iff.mp h
      obtain ⟨valid, len⟩ := readField_eq_some hf
      obtain ⟨valids, lens⟩ := ih hfs
      refine ⟨?_, ?_⟩
      · intro x hx
        rcases List.mem_cons.mp hx with rfl | hx
        · exact valid
        · exact valids x hx
      · simp only [encodeFields, List.map_cons, List.flatten_cons, List.length_append] at lens ⊢
        omega

end KVRPC.Library.Wire
