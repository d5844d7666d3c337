import KVRPC.Protocol.Serializer

/-!
# Round trips of the serializer

1. `round_trip`: lists of values are read back as they were written, a buffer that is read to its
   end is written back octet for octet, and a buffer that is cut short is reported as truncated,
   between any two hosts.
2. `failure_atomic`: a call that throws leaves the serializer as it was, unless it has read the
   length of a string and then finds the string cut short (`string_moves_cursor`).
-/
namespace KVRPC
namespace Serializer

open Library

/-! ## Lists of values -/

/-- Values of the types of a list. -/
abbrev Values : List SerialType → Type
  | [] => Unit
  | τ :: τs => τ.Carrier × Values τs

/-- `Serialize` with several arguments. -/
def serializeAll (host : ByteOrder) :
    (τs : List SerialType) → Values τs → Serializer → Outcome Unit
  | [], _, s => (.ok (), s)
  | τ :: τs, xs, s =>
    match serialize host τ xs.1 s with
    | (.ok (), s) => serializeAll host τs xs.2 s
    | (.error e, s) => (.error e, s)

/-- `Deserialize` with several arguments. -/
def deserializeAll (host : ByteOrder) :
    (τs : List SerialType) → Serializer → Outcome (Values τs)
  | [], s => (.ok (), s)
  | τ :: τs, s =>
    match deserialize host τ s with
    | (.error e, s) => (.error e, s)
    | (.ok x, s) =>
      match deserializeAll host τs s with
      | (.ok xs, s) => (.ok (x, xs), s)
      | (.error e, s) => (.error e, s)

def encodeAll : (τs : List SerialType) → Values τs → Bytes
  | [], _ => []
  | τ :: τs, xs => encode τ xs.1 ++ encodeAll τs xs.2

def StorableAll : (τs : List SerialType) → Values τs → Prop
  | [], _ => True
  | τ :: τs, xs => Storable τ xs.1 ∧ StorableAll τs xs.2

theorem serializeAll_eq (host : ByteOrder) {τs : List SerialType} {xs : Values τs} {s : Serializer}
    (storable : StorableAll τs xs)
    (room : s.buffer.length + (encodeAll τs xs).length ≤ s.maxBytes) :
    serializeAll host τs xs s = (.ok (), s.pushBack (encodeAll τs xs)) := by
  induction τs generalizing s with
  | nil => simp [serializeAll, encodeAll, pushBack]
  | cons τ τs ih =>
    rw [encodeAll, List.length_append] at room
    have first := serialize_eq (s := s) host storable.1 (by omega)
    have later := ih (s := s.pushBack (encode τ xs.1)) storable.2 (by
      simp only [pushBack, List.length_append]
      omega)
    simp only [serializeAll, first, later, pushBack_pushBack, encodeAll]

theorem deserializeAll_encode (host : ByteOrder) {τs : List SerialType} {xs : Values τs}
    {s : Serializer} {tail : Bytes} (storable : StorableAll τs xs)
    (front : s.rest = encodeAll τs xs ++ tail) :
    ∃ s', deserializeAll host τs s = (.ok xs, s') ∧ s'.rest = tail := by
  induction τs generalizing s with
  | nil => exact ⟨s, rfl, front⟩
  | cons τ τs ih =>
    rw [encodeAll, List.append_assoc] at front
    obtain ⟨enough, first⟩ := deserialize_encode host storable.1 front
    obtain ⟨s', later, left⟩ := ih (s := s.advance (encode τ xs.1).length enough) storable.2
      (by rw [rest_advance, front, List.drop_left])
    exact ⟨s', by simp only [deserializeAll, first, later], left⟩

/-- A buffer that holds the values and nothing else is read to its end. -/
theorem deserializeAll_whole (host : ByteOrder) {τs : List SerialType} {xs : Values τs}
    {s : Serializer} (storable : StorableAll τs xs) (whole : s.rest = encodeAll τs xs) :
    ∃ s', deserializeAll host τs s = (.ok xs, s') ∧ s'.remaining = 0 := by
  obtain ⟨s', found, left⟩ := deserializeAll_encode host storable
    (whole.trans (List.append_nil _).symm)
  exact ⟨s', found, by rw [← length_rest, left, List.length_nil]⟩

theorem deserializeAll_ok {host : ByteOrder} {τs : List SerialType} {xs : Values τs}
    {s s' : Serializer} (h : deserializeAll host τs s = (.ok xs, s')) :
    StorableAll τs xs ∧ s.rest = encodeAll τs xs ++ s'.rest := by
  induction τs generalizing s with
  | nil =>
    cases h
    exact ⟨trivial, rfl⟩
  | cons τ τs ih =>
    simp only [deserializeAll] at h
    split at h
    case h_1 => simp at h
    case h_2 x s₁ first =>
      split at h
      case h_2 => simp at h
      case h_1 ys s₂ later =>
        cases h
        obtain ⟨storable, front, -⟩ := deserialize_ok first
        obtain ⟨storable', left⟩ := ih later
        refine ⟨⟨storable, storable'⟩, ?_⟩
        rw [front, left, encodeAll, List.append_assoc]

theorem deserializeAll_short (host : ByteOrder) {τs : List SerialType} {xs : Values τs}
    {s : Serializer} (storable : StorableAll τs xs) (front : s.rest <+: encodeAll τs xs)
    (short : s.rest ≠ encodeAll τs xs) : (deserializeAll host τs s).1 = .error truncated := by
  induction τs generalizing s with
  | nil => exact absurd (List.prefix_nil.mp front) short
  | cons τ τs ih =>
    rw [encodeAll] at front short
    by_cases inside : s.remaining < (encode τ xs.1).length
    · -- the octets end within the first value
      have within : s.rest <+: encode τ xs.1 :=
        List.prefix_of_prefix_length_le front (List.prefix_append _ _)
          (by rw [length_rest]; exact inside.le)
      have failed := deserialize_short host storable.1 within inside
      simp only [deserializeAll]
      split
      case h_1 first => simpa [first] using failed
      case h_2 first => simp [first] at failed
    · have whole : encode τ xs.1 <+: s.rest :=
        List.prefix_of_prefix_length_le (List.prefix_append _ _) front
          (by rw [length_rest]; exact not_lt.mp inside)
      obtain ⟨left, split_⟩ := whole
      obtain ⟨enough, first⟩ := deserialize_encode host storable.1 split_.symm
      have left_eq : (s.advance (encode τ xs.1).length enough).rest = left := by
        rw [rest_advance, ← split_, List.drop_left]
      rw [← split_] at front short
      have failed := ih (s := s.advance (encode τ xs.1).length enough) storable.2
        (by rw [left_eq]; exact (List.prefix_append_right_inj _).mp front)
        (by rw [left_eq]; exact fun same => short (by rw [same]))
      simp only [deserializeAll, first]
      split
      case h_1 later => simp [later] at failed
      case h_2 later => simpa [later] using failed

theorem offset_of_empty {s : Serializer} (empty : s.buffer = []) : s.offset = 0 := by
  have := s.offset_le
  rw [empty] at this
  exact Nat.le_zero.mp this

theorem rest_of_start {s : Serializer} (start : s.offset = 0) : s.rest = s.buffer := by
  rw [rest, start, List.drop_zero]

/-- **Round trips**, for the values of any list of types. -/
theorem round_trip (τs : List SerialType) :
    (∀ (xs : Values τs) (writer reader : ByteOrder) (s : Serializer), StorableAll τs xs →
      s.buffer = [] → (encodeAll τs xs).length ≤ s.maxBytes →
      ∃ s' s'', serializeAll writer τs xs s = (.ok (), s') ∧ s'.buffer = encodeAll τs xs ∧
        deserializeAll reader τs s' = (.ok xs, s'') ∧ s''.remaining = 0) ∧
    (∀ (xs : Values τs) (writer reader : ByteOrder) (t t' s : Serializer), t.offset = 0 →
      deserializeAll reader τs t = (.ok xs, t') → t'.remaining = 0 →
      s.buffer = [] → t.buffer.length ≤ s.maxBytes →
      ∃ s', serializeAll writer τs xs s = (.ok (), s') ∧ s'.buffer = t.buffer) ∧
    (∀ (xs : Values τs) (reader : ByteOrder) (t : Serializer), StorableAll τs xs → t.offset = 0 →
      t.buffer <+: encodeAll τs xs → t.buffer ≠ encodeAll τs xs →
      ∃ what, (deserializeAll reader τs t).1 = .error (.outOfRange what)) := by
  refine ⟨?written, ?rewritten, ?cut⟩
  case written =>
    intro xs writer reader s storable empty room
    have written := serializeAll_eq writer (s := s) storable (by simpa [empty] using room)
    have start := offset_of_empty empty
    obtain ⟨s'', found, done⟩ := deserializeAll_whole reader (s := s.pushBack (encodeAll τs xs))
      storable (by simp [rest, pushBack, empty, start])
    exact ⟨_, s'', written, by simp [pushBack, empty], found, done⟩
  case rewritten =>
    intro xs writer reader t t' s start found done empty room
    obtain ⟨storable, whole⟩ := deserializeAll_ok found
    have octets : t.buffer = encodeAll τs xs := by
      rw [rest_of_start start, List.eq_nil_of_length_eq_zero (t'.length_rest.trans done),
        List.append_nil] at whole
      exact whole
    have written := serializeAll_eq writer (s := s) storable (by simpa [empty, ← octets] using room)
    exact ⟨_, written, by simp [pushBack, empty, octets]⟩
  case cut =>
    intro xs reader t storable start front short
    rw [← rest_of_start start] at front short
    exact ⟨_, deserializeAll_short reader storable front short⟩

/-- A boolean, a short and a string, written on a big-endian host, read on a little-endian one,
written again and cut short. -/
theorem round_trip_mixed :
    (∃ s' s'', serializeAll .big [.bool, .number (.signed 1), .string] (true, 258#16, [0, 7], ())
        { maxBytes := 9 } = (.ok (), s') ∧ s'.buffer = [1, 2, 1, 2, 0, 0, 0, 0, 7] ∧
      deserializeAll .little [.bool, .number (.signed 1), .string] s' =
        (.ok (true, 258#16, [0, 7], ()), s'') ∧ s''.remaining = 0) ∧
    (∃ s', serializeAll .big [.bool, .number (.signed 1), .string] (true, 258#16, [0, 7], ())
        { maxBytes := 9 } = (.ok (), s') ∧ s'.buffer = [1, 2, 1, 2, 0, 0, 0, 0, 7]) ∧
    (∃ what, (deserializeAll .little [.bool, .number (.signed 1), .string]
      { buffer := [1, 2, 1, 2, 0, 0, 0, 0] }).1 = .error (.outOfRange what)) := by
  have short : StorableAll [.bool, .number (.signed 1), .string] (true, 258#16, [0, 7], ()) :=
    ⟨trivial, trivial, Nat.le_of_ble_eq_true rfl, trivial⟩
  obtain ⟨t', found, done⟩ := deserializeAll_whole .little
    (s := { buffer := [1, 2, 1, 2, 0, 0, 0, 0, 7] }) short rfl
  obtain ⟨written, rewritten, cut⟩ := round_trip [.bool, .number (.signed 1), .string]
  exact ⟨written (true, 258#16, [0, 7], ()) .big .little { maxBytes := 9 } short rfl (by decide),
    rewritten _ .big .little _ t' { maxBytes := 9 } rfl found done rfl (by decide),
    cut (true, 258#16, [0, 7], ()) .little _ short rfl (by decide) (by decide)⟩

/-! ## Failing calls -/

theorem serializeBool_error {s s' : Serializer} {x : Bool} {e : Failure}
    (h : serializeBool x s = (.error e, s')) : s' = s := by
  unfold serializeBool at h
  split at h
  case isTrue => exact (Prod.mk.inj h).2.symm
  case isFalse => simp at h

theorem serializeNumber_error {s s' : Serializer} {host : ByteOrder} {size n : Nat} {e : Failure}
    (h : serializeNumber host size n s = (.error e, s')) : s' = s := by
  unfold serializeNumber at h
  split_ifs at h
  · exact (Prod.mk.inj h).2.symm
  · simp at h

theorem serializeString_error {s s' : Serializer} {host : ByteOrder} {text : Bytes} {e : Failure}
    (h : serializeString host text s = (.error e, s')) : s' = s := by
  simp only [serializeString] at h
  split_ifs at h with long full
  · exact (Prod.mk.inj h).2.symm
  · exact (Prod.mk.inj h).2.symm
  · -- once there is room for the string there is room for its length
    have room : ¬ s.Full 4 := by
      unfold Full at full ⊢
      omega
    simp [serializeNumber, room] at h

theorem deserializeNumber_error {s s' : Serializer} {host : ByteOrder} {size : Nat} {e : Failure}
    (h : deserializeNumber host size s = (.error e, s')) : s' = s := by
  unfold deserializeNumber at h
  split_ifs at h
  · simp at h
  · exact (Prod.mk.inj h).2.symm

theorem deserializeBool_error {s s' : Serializer} {e : Failure}
    (h : deserializeBool s = (.error e, s')) : s' = s := by
  simp only [deserializeBool] at h
  split_ifs at h
  · exact (Prod.mk.inj h).2.symm
  · simp at h
  · exact (Prod.mk.inj h).2.symm

theorem advance_ne {s : Serializer} {n : Nat} (h : n ≤ s.remaining) (positive : 0 < n) :
    s.advance n h ≠ s := by
  intro same
  have offset : s.offset + n = s.offset := congrArg Serializer.offset same
  omega

/-- Reading a string fails without a trace exactly if its length is not there. -/
theorem deserializeString_error {s s' : Serializer} {host : ByteOrder} {e : Failure}
    (h : deserializeString host s = (.error e, s')) : s' = s ↔ ¬ 4 ≤ s.remaining := by
  by_cases four : 4 ≤ s.remaining
  · rw [deserializeString_eq host four] at h
    split_ifs at h
    · cases h
    · obtain ⟨-, rfl⟩ := Prod.mk.inj h
      exact iff_of_false (advance_ne four (by norm_num)) (not_not.mpr four)
  · rw [deserializeString, deserializeNumber_short host (not_le.mp four)] at h
    exact iff_of_true (Prod.mk.inj h).2.symm four

/-- **A call that throws changes nothing**, except when a string is read whose length is there;
then it always does. -/
theorem failure_atomic (host : ByteOrder) (s s' : Serializer) (e : Failure) :
    (∀ (τ : SerialType) (x : τ.Carrier), serialize host τ x s = (.error e, s') → s' = s) ∧
    (∀ text, serializePointer host text s = (.error e, s') → s' = s) ∧
    (∀ τ, deserialize host τ s = (.error e, s') →
      (s' = s ↔ ¬ (τ = .string ∧ 4 ≤ s.remaining))) := by
  refine ⟨?writes, ?points, ?reads⟩
  case writes =>
    intro τ x h
    cases τ with
    | bool => exact serializeBool_error h
    | number type => exact serializeNumber_error h
    | string => exact serializeString_error h
  case points =>
    intro text h
    cases text with
    | none => exact (Prod.mk.inj h).2.symm
    | some text => exact serializeString_error h
  case reads =>
    intro τ h
    cases τ with
    | bool =>
      exact iff_of_true (deserializeBool_error h) (by simp)
    | number type =>
      refine iff_of_true ?_ (by simp)
      simp only [deserialize] at h
      split at h
      · simp at h
      · next failed =>
        obtain ⟨-, rfl⟩ := Prod.mk.inj h
        exact deserializeNumber_error failed
    | string =>
      rw [deserializeString_error h]
      simp

/-- A full buffer, a null pointer, an octet that is not a boolean and a string whose length is
cut short. -/
theorem failure_atomic_each :
    (∃ s', serialize .little .bool true { maxBytes := 0 } = (.error limitExceeded, s') ∧
      s' = { maxBytes := 0 }) ∧
    (∃ e s', serializePointer .little none {} = (.error e, s') ∧ s' = {}) ∧
    (∃ e s', deserialize .little .bool { buffer := [2] } = (.error e, s') ∧
      s' = { buffer := [2] }) ∧
    (∃ e s', deserialize .little .string { buffer := [1, 0, 0] } = (.error e, s') ∧
      s' = { buffer := [1, 0, 0] }) :=
  ⟨⟨_, rfl, (failure_atomic .little _ _ _).1 .bool true rfl⟩,
    ⟨_, _, rfl, (failure_atomic .little _ _ _).2.1 none rfl⟩,
    ⟨_, _, rfl, ((failure_atomic .little _ _ _).2.2 .bool rfl).mpr (by decide)⟩,
    ⟨_, _, rfl, ((failure_atomic .little _ _ _).2.2 .string rfl).mpr (by decide)⟩⟩

/-- A string that is cut short: its length has been consumed when the call throws. -/
theorem string_moves_cursor :
    ∃ s', deserialize .little .string { buffer := [255, 255, 255, 255] } = (.error truncated, s') ∧
      ({ buffer := [255, 255, 255, 255] } : Serializer).remaining = 4 ∧ s'.remaining = 0 :=
  ⟨_, rfl, rfl, rfl⟩

end Serializer
end KVRPC
