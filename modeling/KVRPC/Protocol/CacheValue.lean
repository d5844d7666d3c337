import KVRPC.Library.Wire

/-!
# The `CacheValue` message

`CacheValue` of `rpc.proto` is read and written by generated code that is not part of
the repository. A `Codec` stands for that code, and `Codec.Lawful` collects what the
server relies on: what was written is read back, written sizes are those of the wire
format, and writing what was read does not make it longer. Fields the schema does not
know are kept.

`wireCodec` reads and writes the wire format itself and is lawful.
-/
namespace KVRPC

open Library

structure CacheValue (U : Type) where
  found : Bool := false
  value : Bytes := []
  expiresUnixMs : UInt64 := 0
  ttlMs : UInt64 := 0
  /-- Fields the schema does not know. -/
  unknown : U

namespace CacheValue

variable {U : Type}

/-- A field is written unless it has its default value. -/
def lengthOf (present : Prop) [Decidable present] (body : Bytes) : Nat :=
  if present then 1 + body.length else 0

/-- The octets of the fields of the schema. -/
def knownLength (v : CacheValue U) : Nat :=
  lengthOf (v.found = true) (Wire.varint 1) +
    lengthOf (v.value ≠ []) (Wire.varint v.value.length ++ v.value) +
    lengthOf (v.expiresUnixMs ≠ 0) (Wire.varint v.expiresUnixMs.toNat) +
    lengthOf (v.ttlMs ≠ 0) (Wire.varint v.ttlMs.toNat)

end CacheValue

structure Codec where
  Unknown : Type
  noUnknown : Unknown
  /-- `ParseFromString` on an empty message. -/
  parse : Bytes → Option (CacheValue Unknown)
  /-- `SerializeAsString` -/
  serialize : CacheValue Unknown → Bytes

namespace Codec

abbrev Value (codec : Codec) := CacheValue codec.Unknown

/-- A message with none of the schema's fields. -/
def onlyUnknown (codec : Codec) (u : codec.Unknown) : codec.Value := { unknown := u }

structure Lawful (codec : Codec) : Prop where
  parse_serialize : ∀ v, (codec.serialize v).length < 2 ^ 31 →
    codec.parse (codec.serialize v) = some v
  length_serialize : ∀ v, (codec.serialize v).length =
    v.knownLength + (codec.serialize (codec.onlyUnknown v.unknown)).length
  serialize_empty : codec.serialize (codec.onlyUnknown codec.noUnknown) = []
  length_parse : ∀ bytes v, codec.parse bytes = some v → (codec.serialize v).length ≤ bytes.length

end Codec

/-! ## The wire format -/

open Wire

/-- A field that some field of `CacheValue` is read from. -/
def Known (f : Field) : Prop :=
  match f.number, f.payload with
  | 1, .varint _ => True
  | 2, .bytes _ => True
  | 3, .varint _ => True
  | 4, .varint _ => True
  | _, _ => False

instance (f : Field) : Decidable (Known f) := by
  unfold Known
  split <;> infer_instance

/-- Fields kept as they are. -/
abbrev UnknownFields := { fs : List Field // ∀ f ∈ fs, f.Valid ∧ ¬ Known f }

namespace CacheValue

def fields (v : CacheValue UnknownFields) : List Field :=
  (if v.found then [⟨1, .varint 1⟩] else []) ++
  (if v.value ≠ [] then [⟨2, .bytes v.value⟩] else []) ++
  (if v.expiresUnixMs ≠ 0 then [⟨3, .varint v.expiresUnixMs⟩] else []) ++
  (if v.ttlMs ≠ 0 then [⟨4, .varint v.ttlMs⟩] else []) ++ v.unknown.1

def addUnknown (v : CacheValue UnknownFields) (f : Field) : CacheValue UnknownFields :=
  if h : f.Valid ∧ ¬ Known f then
    { v with unknown := ⟨v.unknown.1 ++ [f], by
        intro x hx
        rcases List.mem_append.mp hx with hx | hx
        · exact v.unknown.2 x hx
        · rw [List.mem_singleton.mp hx]
          exact h⟩ }
  else v

/-- Merge one field into a message; a later one replaces an earlier one. -/
def merge (v : CacheValue UnknownFields) (f : Field) : CacheValue UnknownFields :=
  match f.number, f.payload with
  | 1, .varint n => { v with found := n ≠ 0 }
  | 2, .bytes b => { v with value := b }
  | 3, .varint n => { v with expiresUnixMs := n }
  | 4, .varint n => { v with ttlMs := n }
  | _, _ => v.addUnknown f

end CacheValue

def wireCodec : Codec where
  Unknown := UnknownFields
  noUnknown := ⟨[], by simp⟩
  parse bytes := (readFields bytes.length bytes).map
    fun fs => fs.foldl CacheValue.merge { unknown := ⟨[], by simp⟩ }
  serialize v := encodeFields v.fields

namespace CacheValue

theorem merge_of_not_known (v : CacheValue UnknownFields) {f : Field} (h : ¬ Known f) :
    v.merge f = v.addUnknown f := by
  unfold merge
  unfold Known at h
  split <;> simp_all

theorem foldl_merge_unknown (us : List Field) (h : ∀ f ∈ us, f.Valid ∧ ¬ Known f)
    (v : CacheValue UnknownFields) (hv : ∀ f ∈ v.unknown.1 ++ us, f.Valid ∧ ¬ Known f) :
    us.foldl merge v = { v with unknown := ⟨v.unknown.1 ++ us, hv⟩ } := by
  induction us generalizing v with
  | nil =>
    obtain ⟨_, _, _, _, ⟨fs, _⟩⟩ := v
    simp
  | cons f us ih =>
    have hf := h f (by simp)
    rw [List.foldl_cons, merge_of_not_known v hf.2, addUnknown, dif_pos hf,
      ih (fun x hx => h x (by simp [hx])) _ (by simpa using hv)]
    simp

/-- Reading the fields of a message restores it. -/
theorem foldl_merge_fields (v : CacheValue UnknownFields) :
    v.fields.foldl merge { unknown := ⟨[], by simp⟩ } = v := by
  obtain ⟨found, value, expires, ttl, ⟨us, hus⟩⟩ := v
  have rest := foldl_merge_unknown us hus ⟨found, value, expires, ttl, ⟨[], by simp⟩⟩
    (by simpa using hus)
  have known : ((if found then [⟨1, .varint 1⟩] else []) ++
      (if value ≠ [] then [⟨2, .bytes value⟩] else []) ++
      (if expires ≠ 0 then [⟨3, .varint expires⟩] else []) ++
      (if ttl ≠ 0 then [⟨4, .varint ttl⟩] else []) : List Field).foldl merge
        { unknown := ⟨[], by simp⟩ } = ⟨found, value, expires, ttl, ⟨[], by simp⟩⟩ := by
    by_cases h₁ : found = true <;> by_cases h₂ : value = [] <;> by_cases h₃ : expires = 0 <;>
      by_cases h₄ : ttl = 0 <;> simp [h₁, h₂, h₃, h₄, merge]
  rw [fields, List.foldl_append, known, rest]
  simp

theorem fields_valid (v : CacheValue UnknownFields) (h : v.value.length < 2 ^ 64) :
    ∀ f ∈ v.fields, f.Valid := by
  intro f hf
  simp only [fields, List.mem_append] at hf
  rcases hf with (((hf | hf) | hf) | hf) | hf
  · split at hf
    · obtain rfl := List.mem_singleton.mp hf
      exact ⟨by norm_num, by norm_num, trivial⟩
    · cases hf
  · split at hf
    · obtain rfl := List.mem_singleton.mp hf
      exact ⟨by norm_num, by norm_num, h⟩
    · cases hf
  · split at hf
    · obtain rfl := List.mem_singleton.mp hf
      exact ⟨by norm_num, by norm_num, trivial⟩
    · cases hf
  · split at hf
    · obtain rfl := List.mem_singleton.mp hf
      exact ⟨by norm_num, by norm_num, trivial⟩
    · cases hf
  · exact (v.unknown.2 f hf).1

theorem encodeFields_append (xs ys : List Field) :
    encodeFields (xs ++ ys) = encodeFields xs ++ encodeFields ys := by
  simp [encodeFields]

/-- The field numbers of the schema take one octet with their wire type. -/
theorem length_encode_known {f : Field} (h : f.number ≤ 4) :
    f.encode.length = 1 + f.payload.encode.length := by
  have := f.payload.wireType_lt
  rw [Field.encode, varint_of_lt (by omega), List.length_append]
  rfl

theorem length_fields (v : CacheValue UnknownFields) :
    (encodeFields v.fields).length = v.knownLength + (encodeFields v.unknown.1).length := by
  have segment : ∀ (present : Prop) [Decidable present] (f : Field), f.number ≤ 4 →
      (encodeFields (if present then [f] else [])).length = lengthOf present f.payload.encode := by
    intro present _ f hf
    unfold lengthOf
    split
    · simp [encodeFields, length_encode_known hf]
    · rfl
  simp only [fields, encodeFields_append, List.length_append, knownLength]
  rw [segment _ ⟨1, .varint 1⟩ (by norm_num), segment _ ⟨2, .bytes v.value⟩ (by norm_num),
    segment _ ⟨3, .varint v.expiresUnixMs⟩ (by norm_num),
    segment _ ⟨4, .varint v.ttlMs⟩ (by norm_num)]
  rfl

theorem lengthOf_le (present : Prop) [Decidable present] (body : Bytes) :
    lengthOf present body ≤ 1 + body.length := by
  unfold lengthOf
  split <;> omega

/-- Merging a field adds at most its own length. -/
theorem length_merge (v : CacheValue UnknownFields) (f : Field) :
    (encodeFields (v.merge f).fields).length ≤
      (encodeFields v.fields).length + f.encode.length := by
  rw [length_fields, length_fields]
  unfold merge
  split
  · rename_i n hnum hpay
    have len := length_encode_known (f := f) (by omega)
    have one := length_varint_pos n.toNat
    have new := lengthOf_le (decide (n ≠ 0) = true) (varint 1)
    rw [hpay, Payload.encode] at len
    rw [varint_of_lt (by norm_num : 1 < 128), List.length_singleton] at new
    simp only [knownLength, varint_of_lt (by norm_num : 1 < 128)] at *
    omega
  · rename_i b hnum hpay
    have len := length_encode_known (f := f) (by omega)
    have new := lengthOf_le (b ≠ []) (varint b.length ++ b)
    rw [hpay, Payload.encode] at len
    simp only [knownLength]
    omega
  · rename_i n hnum hpay
    have len := length_encode_known (f := f) (by omega)
    have new := lengthOf_le (n ≠ 0) (varint n.toNat)
    rw [hpay, Payload.encode] at len
    simp only [knownLength]
    omega
  · rename_i n hnum hpay
    have len := length_encode_known (f := f) (by omega)
    have new := lengthOf_le (n ≠ 0) (varint n.toNat)
    rw [hpay, Payload.encode] at len
    simp only [knownLength]
    omega
  · unfold addUnknown
    split
    · simp only [knownLength, encodeFields_append, List.length_append]
      have : (encodeFields [f]).length = f.encode.length := by simp [encodeFields]
      omega
    · omega

theorem length_foldl_merge (fs : List Field) (v : CacheValue UnknownFields) :
    (encodeFields (fs.foldl merge v).fields).length ≤
      (encodeFields v.fields).length + (encodeFields fs).length := by
  induction fs generalizing v with
  | nil => simp [encodeFields]
  | cons f fs ih =>
    have first := length_merge v f
    have rest := ih (v.merge f)
    have split : (encodeFields (f :: fs)).length = f.encode.length + (encodeFields fs).length := by
      simp [encodeFields]
    rw [List.foldl_cons]
    omega

end CacheValue

theorem wireCodec_lawful : wireCodec.Lawful where
  parse_serialize v hv := by
    have len := CacheValue.length_fields v
    have small : v.value.length < 2 ^ 64 := by
      have written : (encodeFields v.fields).length < 2 ^ 31 := hv
      by_cases empty : v.value = []
      · rw [empty]
        norm_num
      · have : CacheValue.lengthOf (v.value ≠ []) (varint v.value.length ++ v.value) =
            1 + (varint v.value.length ++ v.value).length := if_pos empty
        rw [List.length_append] at this
        simp only [CacheValue.knownLength] at len
        omega
    have read := readFields_encodeFields (v.fields_valid small) (length_encodeFields v.fields)
    change (readFields (encodeFields v.fields).length (encodeFields v.fields)).map _ = some v
    rw [read]
    exact congrArg some v.foldl_merge_fields
  length_serialize v := by
    have unknown : (encodeFields (CacheValue.fields (wireCodec.onlyUnknown v.unknown))).length =
        (encodeFields v.unknown.1).length := (CacheValue.length_fields _).trans (Nat.zero_add _)
    exact (CacheValue.length_fields v).trans (congrArg (v.knownLength + ·) unknown.symm)
  serialize_empty := rfl
  length_parse bytes v h := by
    obtain ⟨fs, hfs, rfl⟩ := Option.map_eq_some_iff.mp h
    have read := (readFields_eq_some hfs).2
    have merged := CacheValue.length_foldl_merge fs { unknown := ⟨[], by simp⟩ }
    refine merged.trans ?_
    have empty : (encodeFields (CacheValue.fields { unknown := ⟨[], by simp⟩ })).length = 0 := rfl
    rw [empty]
    omega

end KVRPC
