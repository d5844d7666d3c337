import KVRPC.Protocol.RpcFrame

/-!
# Typed values

`ToValue` and `FromValue` of `rpc_protocol.h` are templates over the type of an argument, a
parameter or a result. `RpcType` lists the types, and `Carries` says what it means for a
parameter to have the value of an argument of another type: the kinds agree, and integers are
the same number. `FromValue` accepts what `ToValue` wrote exactly then (`fromValue_ok_iff`).
-/
namespace KVRPC

open Library

/-- `wire::Value`: the case of its `oneof`. A double is given by its bits. -/
inductive Value where
  | unset
  | signed (n : Int64)
  | unsigned (n : UInt64)
  | real (bits : UInt64)
  | bool (b : Bool)
  | string (bytes : Bytes)
  | message (bytes : Bytes)
  deriving DecidableEq, Repr

/-- The width of an integer type. -/
structure Width where
  bits : Nat
  positive : 0 < bits
  le_64 : bits ≤ 64

/-- A generated message type. -/
structure MessageType where
  Carrier : Type
  parse : Bytes → Option Carrier
  serialize : Carrier → Bytes
  parse_serialize : ∀ m, (serialize m).length < 2 ^ 31 → parse (serialize m) = some m

inductive RpcType where
  | bool
  | signed (width : Width)
  | unsigned (width : Width)
  | double
  | string
  | message (type : MessageType)

abbrev RpcType.Carrier : RpcType → Type
  | .bool => Bool
  | .signed width => BitVec width.bits
  | .unsigned width => BitVec width.bits
  | .double => UInt64
  | .string => Bytes
  | .message type => type.Carrier

namespace Width

/-- `numeric_limits<T>::min()` of a signed type. -/
def min (width : Width) : Int := -2 ^ (width.bits - 1)

/-- `numeric_limits<T>::max()` of a signed type. -/
def max (width : Width) : Int := 2 ^ (width.bits - 1) - 1

/-- `numeric_limits<T>::max()` of an unsigned type. -/
def umax (width : Width) : Nat := 2 ^ width.bits - 1

end Width

def toValue : (τ : RpcType) → τ.Carrier → Value
  | .bool, b => .bool b
  | .signed _, x => .signed (Int64.ofInt x.toInt)
  | .unsigned _, x => .unsigned (UInt64.ofNat x.toNat)
  | .double, bits => .real bits
  | .string, text => .string text
  | .message type, m => .message (type.serialize m)

def typeMismatch : Error := ⟨.protocol, "RPC value type mismatch"⟩

def fromValue (τ : RpcType) (value : Value) : Except Error τ.Carrier :=
  match τ, value with
  | .bool, .bool b => .ok b
  | .signed width, .signed n =>
    if width.min ≤ n.toInt ∧ n.toInt ≤ width.max then .ok (BitVec.ofInt width.bits n.toInt)
    else .error typeMismatch
  | .unsigned width, .unsigned n =>
    if n.toNat ≤ width.umax then .ok (BitVec.ofNat width.bits n.toNat) else .error typeMismatch
  | .double, .real bits => .ok bits
  | .string, .string text => .ok text
  | .message type, .message bytes =>
    match type.parse bytes with
    | none => .error typeMismatch
    | some m => .ok m
  | _, _ => .error typeMismatch

/-- An argument of a call: a value, or a pointer to characters that may be null. -/
inductive Argument where
  | value (τ : RpcType) (x : τ.Carrier)
  | pointer (text : Option Bytes)

def Argument.toValue : Argument → Except Error Value
  | .value τ x => .ok (KVRPC.toValue τ x)
  | .pointer none => .error ⟨.invalidArgument, "Null string argument"⟩
  | .pointer (some text) => .ok (.string text)

/-- A parameter of the type has the value of the argument. Message types agree if the one reads
what the other has written. -/
inductive Carries : Argument → (τ : RpcType) → τ.Carrier → Prop
  | bool (b : Bool) : Carries (.value .bool b) .bool b
  | signed {w w' : Width} {x : BitVec w.bits} {y : BitVec w'.bits} (same : y.toInt = x.toInt) :
      Carries (.value (.signed w) x) (.signed w') y
  | unsigned {w w' : Width} {x : BitVec w.bits} {y : BitVec w'.bits} (same : y.toNat = x.toNat) :
      Carries (.value (.unsigned w) x) (.unsigned w') y
  | double (bits : UInt64) : Carries (.value .double bits) .double bits
  | string (text : Bytes) : Carries (.value .string text) .string text
  | pointer (text : Bytes) : Carries (.pointer (some text)) .string text
  | message {M M' : MessageType} {m : M.Carrier} {m' : M'.Carrier}
      (read : M'.parse (M.serialize m) = some m') :
      Carries (.value (.message M) m) (.message M') m'

/-- The argument is of the parameter's kind, and its number is in the range of the parameter. -/
def Fits : Argument → RpcType → Prop
  | .value .bool _, .bool => True
  | .value (.signed _) x, .signed w => w.min ≤ BitVec.toInt x ∧ BitVec.toInt x ≤ w.max
  | .value (.unsigned _) x, .unsigned w => BitVec.toNat x ≤ w.umax
  | .value .double _, .double => True
  | .value .string _, .string => True
  | .pointer (some _), .string => True
  | .value (.message M) m, .message M' => ∃ m', M'.parse (M.serialize m) = some m'
  | _, _ => False

namespace Width

variable {w : Width}

theorem toInt_bounds (x : BitVec w.bits) : w.min ≤ x.toInt ∧ x.toInt ≤ w.max := by
  have low := x.le_toInt
  have high := x.toInt_lt
  unfold min max
  omega

theorem toNat_le (x : BitVec w.bits) : x.toNat ≤ w.umax := by
  have := x.isLt
  unfold umax
  omega

/-- A value of a signed type fits into 64 bits. -/
theorem toInt_ofInt_64 (x : BitVec w.bits) : (Int64.ofInt x.toInt).toInt = x.toInt := by
  have low := x.le_toInt
  have high := x.toInt_lt
  have le : (2 : Int) ^ (w.bits - 1) ≤ 2 ^ 63 :=
    pow_le_pow_right₀ (by norm_num) (by have := w.le_64; omega)
  exact Int64.toInt_ofInt_of_le (by omega) (by omega)

/-- A value of an unsigned type fits into 64 bits. -/
theorem toNat_ofNat_64 (x : BitVec w.bits) : (UInt64.ofNat x.toNat).toNat = x.toNat := by
  have le : 2 ^ w.bits ≤ 2 ^ 64 := Nat.pow_le_pow_right (by norm_num) w.le_64
  rw [UInt64.toNat_ofNat', Nat.mod_eq_of_lt (x.isLt.trans_le le)]

/-- A number within the limits of a signed type is not changed by a cast to it. -/
theorem toInt_ofInt {n : Int} (low : w.min ≤ n) (high : n ≤ w.max) :
    (BitVec.ofInt w.bits n).toInt = n := by
  have double : 2 ^ w.bits = 2 * 2 ^ (w.bits - 1) := by
    rw [← Nat.pow_succ', Nat.succ_eq_add_one, Nat.sub_add_cancel w.positive]
  unfold min at low
  unfold max at high
  rw [BitVec.toInt_ofInt, double]
  apply Int.bmod_eq_of_le <;> push_cast <;> omega

theorem toNat_ofNat {n : Nat} (high : n ≤ w.umax) : (BitVec.ofNat w.bits n).toNat = n := by
  have := Nat.two_pow_pos w.bits
  unfold umax at high
  rw [BitVec.toNat_ofNat, Nat.mod_eq_of_lt (by omega)]

end Width

/-! ## What was written is read -/

section

variable {a : Argument} {v : Value} {τ : RpcType}

theorem fromValue_signed_ok_iff {w w' : Width} {x : BitVec w.bits} {y : BitVec w'.bits} :
    fromValue (.signed w') (toValue (.signed w) x) = .ok y ↔ y.toInt = x.toInt := by
  simp only [toValue, fromValue, Width.toInt_ofInt_64]
  constructor
  · intro read
    split at read
    case isTrue range =>
      cases read
      exact Width.toInt_ofInt range.1 range.2
    case isFalse => cases read
  · intro same
    have range := Width.toInt_bounds y
    rw [same] at range
    rw [if_pos range, ← same, BitVec.ofInt_toInt]

theorem fromValue_unsigned_ok_iff {w w' : Width} {x : BitVec w.bits} {y : BitVec w'.bits} :
    fromValue (.unsigned w') (toValue (.unsigned w) x) = .ok y ↔ y.toNat = x.toNat := by
  simp only [toValue, fromValue, Width.toNat_ofNat_64]
  constructor
  · intro read
    split at read
    case isTrue range =>
      cases read
      exact Width.toNat_ofNat range
    case isFalse => cases read
  · intro same
    have range := Width.toNat_le y
    rw [same] at range
    rw [if_pos range, ← same, BitVec.ofNat_toNat, BitVec.setWidth_eq]

theorem fromValue_message_ok_iff {M M' : MessageType} {m : M.Carrier} {m' : M'.Carrier} :
    fromValue (.message M') (toValue (.message M) m) = .ok m' ↔
      M'.parse (M.serialize m) = some m' := by
  simp only [toValue, fromValue]
  cases M'.parse (M.serialize m) <;> simp

/-- **`FromValue` accepts an argument exactly if the parameter can have its value**, and then
the parameter has it. -/
theorem fromValue_ok_iff (sent : a.toValue = .ok v) {y : τ.Carrier} :
    fromValue τ v = .ok y ↔ Carries a τ y := by
  constructor
  · intro read
    cases a with
    | value σ x =>
      cases sent
      -- pairs of different kinds are refused
      cases σ <;> cases τ <;> try cases read
      · exact .bool _
      · exact .signed (fromValue_signed_ok_iff.mp read)
      · exact .unsigned (fromValue_unsigned_ok_iff.mp read)
      · exact .double _
      · exact .string _
      · exact .message (fromValue_message_ok_iff.mp read)
    | pointer text =>
      cases text with
      | none => cases sent
      | some text =>
        cases sent
        cases τ <;> cases read
        exact .pointer text
  · intro carries
    cases carries with
    | signed same =>
      cases sent
      exact fromValue_signed_ok_iff.mpr same
    | unsigned same =>
      cases sent
      exact fromValue_unsigned_ok_iff.mpr same
    | message read =>
      cases sent
      exact fromValue_message_ok_iff.mpr read
    | bool | double | string | pointer =>
      cases sent
      rfl

/-- A value of the same type is carried unchanged, if a message is not too long to be read. -/
theorem fromValue_toValue (x : τ.Carrier)
    (short : ∀ bytes, toValue τ x = .message bytes → bytes.length < 2 ^ 31) :
    fromValue τ (toValue τ x) = .ok x := by
  have sent : (Argument.value τ x).toValue = .ok (toValue τ x) := rfl
  refine (fromValue_ok_iff sent).mpr ?_
  cases τ with
  | bool => exact .bool x
  | signed => exact .signed rfl
  | unsigned => exact .unsigned rfl
  | double => exact .double x
  | string => exact .string x
  | message M => exact .message (M.parse_serialize x (short _ rfl))

end

/-! ## Lists of arguments -/

/-- The values of a list of parameters. -/
abbrev Tuple : List RpcType → Type
  | [] => Unit
  | τ :: τs => τ.Carrier × Tuple τs

/-- The parameters have the values of the arguments, one for one. -/
inductive CarriesAll : List Argument → (τs : List RpcType) → Tuple τs → Prop
  | nil : CarriesAll [] [] ()
  | cons {a : Argument} {args : List Argument} {τ : RpcType} {τs : List RpcType} {x : τ.Carrier}
      {xs : Tuple τs} (head : Carries a τ x) (tail : CarriesAll args τs xs) :
      CarriesAll (a :: args) (τ :: τs) (x, xs)

theorem exists_carries_iff {a : Argument} {τ : RpcType} : (∃ x, Carries a τ x) ↔ Fits a τ := by
  constructor
  · rintro ⟨x, carries⟩
    cases carries with
    | @signed w w' x y same =>
      change w'.min ≤ x.toInt ∧ x.toInt ≤ w'.max
      exact same ▸ Width.toInt_bounds y
    | @unsigned w w' x y same =>
      change x.toNat ≤ w'.umax
      exact same ▸ Width.toNat_le y
    | message read => exact ⟨_, read⟩
    | bool | double | string | pointer => trivial
  · intro fits
    cases a with
    | value σ x =>
      cases σ <;> cases τ <;> try exact fits.elim
      · exact ⟨x, .bool x⟩
      · exact ⟨_, .signed (Width.toInt_ofInt fits.1 fits.2)⟩
      · exact ⟨_, .unsigned (Width.toNat_ofNat fits)⟩
      · exact ⟨x, .double x⟩
      · exact ⟨x, .string x⟩
      · obtain ⟨m', read⟩ := fits
        exact ⟨m', .message read⟩
    | pointer text =>
      cases text with
      | none => exact fits.elim
      | some text =>
        cases τ <;> try exact fits.elim
        exact ⟨text, .pointer text⟩

/-- A list of arguments is acceptable if their number is right and each of them fits. -/
theorem exists_carriesAll_iff {args : List Argument} {τs : List RpcType} :
    (∃ xs, CarriesAll args τs xs) ↔ List.Forall₂ Fits args τs := by
  constructor
  · rintro ⟨xs, carried⟩
    induction carried with
    | nil => exact .nil
    | cons head _ ih => exact .cons (exists_carries_iff.mp ⟨_, head⟩) ih
  · intro fits
    induction fits with
    | nil => exact ⟨(), .nil⟩
    | cons head _ ih =>
      obtain ⟨x, head⟩ := exists_carries_iff.mpr head
      obtain ⟨xs, tail⟩ := ih
      exact ⟨(x, xs), .cons head tail⟩

end KVRPC
