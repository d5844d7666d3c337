import Mathlib.Tactic

/-!
# Byte strings, network byte order and unsigned arithmetic

Byte strings are lists of octets. `beBytes k n` writes the low `k` octets of `n`
most significant first, as `htons` and `htonl` followed by a copy do, and `beNat`
reads such a field back.
-/
namespace KVRPC.Library

abbrev Bytes := List UInt8

/-- Subtraction of `size_t` values. -/
def usub (a b : Nat) : Nat := if b ≤ a then a - b else 2 ^ 64 - (b - a)

theorem usub_of_le {a b : Nat} (h : b ≤ a) : usub a b = a - b := if_pos h

/-- The low `k` octets of `n`, most significant first. -/
def beBytes : Nat → Nat → Bytes
  | 0, _ => []
  | k + 1, n => UInt8.ofNat (n / 256 ^ k) :: beBytes k n

/-- The number a big-endian field denotes. -/
def beNat : Bytes → Nat
  | [] => 0
  | b :: bs => b.toNat * 256 ^ bs.length + beNat bs

@[simp] theorem length_beBytes (k n : Nat) : (beBytes k n).length = k := by
  induction k with
  | zero => rfl
  | succ k ih => simp [beBytes, ih]

theorem beNat_lt (bs : Bytes) : beNat bs < 256 ^ bs.length := by
  induction bs with
  | nil => simp [beNat]
  | cons b bs ih =>
    have hb := b.toNat_lt
    calc beNat (b :: bs) < b.toNat * 256 ^ bs.length + 256 ^ bs.length := by
          simp only [beNat]; omega
      _ = (b.toNat + 1) * 256 ^ bs.length := by ring
      _ ≤ 256 * 256 ^ bs.length := Nat.mul_le_mul_right _ (by omega)
      _ = 256 ^ (b :: bs).length := by rw [List.length_cons, pow_succ]; ring

theorem beNat_beBytes (k n : Nat) : beNat (beBytes k n) = n % 256 ^ k := by
  induction k with
  | zero => simp [beBytes, beNat, Nat.mod_one]
  | succ k ih =>
    have byte : (UInt8.ofNat (n / 256 ^ k)).toNat = n / 256 ^ k % 256 := by simp
    rw [beBytes, beNat, length_beBytes, ih, byte, Nat.mod_pow_succ]
    ring

theorem beNat_beBytes_of_lt {k n : Nat} (h : n < 256 ^ k) : beNat (beBytes k n) = n := by
  rw [beNat_beBytes, Nat.mod_eq_of_lt h]

theorem beBytes_add_mul (k n q : Nat) : beBytes k (n + q * 256 ^ k) = beBytes k n := by
  induction k generalizing q with
  | zero => rfl
  | succ k ih =>
    have hq : n + q * 256 ^ (k + 1) = n + q * 256 * 256 ^ k := by rw [pow_succ]; ring
    simp only [beBytes, hq, ih]
    rw [Nat.add_mul_div_right _ _ (by positivity)]
    congr 1
    apply UInt8.toNat_inj.mp
    simp only [UInt8.toNat_ofNat']
    omega

/-- Reading a field loses nothing: writing the number back gives the same octets. -/
theorem beBytes_beNat (bs : Bytes) : beBytes bs.length (beNat bs) = bs := by
  induction bs with
  | nil => rfl
  | cons b bs ih =>
    have hlt := beNat_lt bs
    have hdiv : (b.toNat * 256 ^ bs.length + beNat bs) / 256 ^ bs.length = b.toNat := by
      rw [Nat.mul_comm, Nat.mul_add_div (by positivity), Nat.div_eq_of_lt hlt, Nat.add_zero]
    simp only [List.length_cons, beBytes, beNat, hdiv, UInt8.ofNat_toNat]
    rw [Nat.add_comm, beBytes_add_mul, ih]

end KVRPC.Library
