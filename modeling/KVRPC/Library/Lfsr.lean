import Mathlib.Tactic

/-!
# Reflected shift-register remainders

A cyclic redundancy check is a linear feedback shift register that absorbs its
message a symbol at a time. The register has `w` bits, the feedback word `poly` is
in reflected order, and a symbol of `k` bits enters at the low end.

1. One shift is linear over exclusive or (`step_xor`).
2. When the feedback word has its top bit set, a shift loses nothing (`steps_injective`).
3. Two messages of one length that differ only in symbols spanning at most `w` bits
   leave different remainders (`absorb_burst_ne`).
4. Absorbing a symbol is absorbing its bits one at a time, lowest first (`steps_xor_eq_foldl`).
-/
namespace KVRPC.Library.Lfsr

variable {w : Nat}

/-- Shift the register down one place, feeding `poly` back when a one falls out. -/
def step (poly c : BitVec w) : BitVec w :=
  (c >>> 1) ^^^ (if c.getLsbD 0 then poly else 0#w)

def steps (poly : BitVec w) : Nat → BitVec w → BitVec w
  | 0, c => c
  | n + 1, c => steps poly n (step poly c)

/-- Absorb a message of `k`-bit symbols. -/
def absorb (poly : BitVec w) (k : Nat) : BitVec w → List (BitVec w) → BitVec w
  | c, [] => c
  | c, d :: ds => absorb poly k (steps poly k (c ^^^ d)) ds

/-- Absorb one bit of a message: it joins the bit that falls out. -/
def feed (poly c : BitVec w) (bit : Bool) : BitVec w :=
  (c >>> 1) ^^^ (if c.getLsbD 0 ^^ bit then poly else 0#w)

/-- The low `k` bits of a symbol, lowest first. -/
def bits (k : Nat) (d : BitVec w) : List Bool := (List.range k).map d.getLsbD

/-! ## Linearity -/

theorem step_xor (poly a b : BitVec w) :
    step poly (a ^^^ b) = step poly a ^^^ step poly b := by
  unfold step
  rw [BitVec.getLsbD_xor, BitVec.ushiftRight_xor_distrib]
  have regroup : ∀ x y p q : BitVec w, (x ^^^ p) ^^^ (y ^^^ q) = (x ^^^ y) ^^^ (p ^^^ q) := by
    intro x y p q
    ac_rfl
  rw [regroup]
  congr 1
  cases a.getLsbD 0 <;> cases b.getLsbD 0 <;> simp

theorem steps_xor (poly : BitVec w) (n : Nat) (a b : BitVec w) :
    steps poly n (a ^^^ b) = steps poly n a ^^^ steps poly n b := by
  induction n generalizing a b with
  | zero => rfl
  | succ n ih => rw [steps, step_xor, ih]; rfl

theorem absorb_xor (poly : BitVec w) (k : Nat) (a b : BitVec w) (xs ys : List (BitVec w))
    (hl : xs.length = ys.length) :
    absorb poly k a xs ^^^ absorb poly k b ys =
      absorb poly k (a ^^^ b) (List.zipWith (· ^^^ ·) xs ys) := by
  induction xs generalizing a b ys with
  | nil =>
    obtain rfl := List.length_eq_zero_iff.mp hl.symm
    rfl
  | cons x xs ih =>
    obtain _ | ⟨y, ys⟩ := ys
    · simp at hl
    · have regroup : (a ^^^ b) ^^^ (x ^^^ y) = (a ^^^ x) ^^^ (b ^^^ y) := by ac_rfl
      simp only [absorb, List.zipWith_cons_cons]
      rw [ih _ _ _ (by simpa using hl), ← steps_xor, regroup]

theorem absorb_append (poly : BitVec w) (k : Nat) (c : BitVec w) (xs ys : List (BitVec w)) :
    absorb poly k c (xs ++ ys) = absorb poly k (absorb poly k c xs) ys := by
  induction xs generalizing c with
  | nil => rfl
  | cons x xs ih => exact ih _

/-! ## Shifts lose nothing -/

theorem msb_ushiftRight_one (c : BitVec w) : (c >>> 1).msb = false := by
  simp [BitVec.msb_ushiftRight]

theorem step_eq_zero {poly c : BitVec w} (hp : poly.msb = true) (h : step poly c = 0#w) :
    c = 0#w := by
  unfold step at h
  have shifted := BitVec.xor_eq_zero_iff.mp h
  cases low : c.getLsbD 0 with
  | true =>
    -- The bit that fell out put `poly` back, and a shifted register has no top bit.
    rw [low, if_pos rfl] at shifted
    have := msb_ushiftRight_one c
    rw [shifted, hp] at this
    cases this
  | false =>
    rw [low, if_neg (by simp)] at shifted
    apply BitVec.eq_of_getLsbD_eq
    intro i _
    cases i with
    | zero => simpa using low
    | succ i =>
      have bit := congrArg (fun x => BitVec.getLsbD x i) shifted
      simpa [BitVec.getLsbD_ushiftRight, Nat.add_comm] using bit

theorem steps_eq_zero {poly : BitVec w} (hp : poly.msb = true) (n : Nat) {c : BitVec w}
    (h : steps poly n c = 0#w) : c = 0#w := by
  induction n generalizing c with
  | zero => exact h
  | succ n ih => exact step_eq_zero hp (ih h)

theorem steps_injective {poly : BitVec w} (hp : poly.msb = true) (n : Nat) {a b : BitVec w}
    (h : steps poly n a = steps poly n b) : a = b := by
  rw [← BitVec.xor_eq_zero_iff, ← steps_xor] at h
  exact BitVec.xor_eq_zero_iff.mp (steps_eq_zero hp n h)

/-- On equal messages the remainder remembers the register it started from. -/
theorem absorb_injective {poly : BitVec w} (hp : poly.msb = true) (k : Nat) {a b : BitVec w}
    (ds : List (BitVec w)) (h : absorb poly k a ds = absorb poly k b ds) : a = b := by
  induction ds generalizing a b with
  | nil => exact h
  | cons d ds ih =>
    have := steps_injective hp k (ih h)
    simpa using congrArg (· ^^^ d) this

/-! ## Bursts -/

/-- A register with `n` clear low bits only moves down through `n` shifts. -/
theorem steps_shiftLeft (poly : BitVec w) (n : Nat) (y : BitVec w)
    (h : y.toNat * 2 ^ n < 2 ^ w) : steps poly n (y <<< n) = y := by
  induction n generalizing y with
  | zero => simp [steps]
  | succ n ih =>
    have small : y.toNat * 2 ^ n < 2 ^ w := by
      rw [pow_succ, ← Nat.mul_assoc] at h
      omega
    have even : (y <<< (n + 1)).getLsbD 0 = false := by simp
    have down : step poly (y <<< (n + 1)) = y <<< n := by
      apply BitVec.eq_of_toNat_eq
      simp only [step, even, Bool.false_eq_true, if_false, BitVec.xor_zero,
        BitVec.toNat_ushiftRight, BitVec.toNat_shiftLeft, Nat.shiftLeft_eq,
        Nat.shiftRight_eq_div_pow, Nat.mod_eq_of_lt h, Nat.mod_eq_of_lt small]
      rw [pow_succ, ← Nat.mul_assoc, Nat.pow_one, Nat.mul_div_cancel _ (by omega)]
    rw [steps, down, ih y small]

/-- `n` shifts act on the low `n` bits alone; the rest of the register moves down. -/
theorem steps_split (poly : BitVec w) (n : Nat) (x : BitVec w) :
    steps poly n x = steps poly n (BitVec.ofNat w (x.toNat % 2 ^ n)) ^^^ (x >>> n) := by
  have high : (x >>> n).toNat * 2 ^ n < 2 ^ w := by
    have := Nat.div_mul_le_self x.toNat (2 ^ n)
    rw [BitVec.toNat_ushiftRight, Nat.shiftRight_eq_div_pow]
    exact this.trans_lt x.isLt
  have parts : x = BitVec.ofNat w (x.toNat % 2 ^ n) ^^^ ((x >>> n) <<< n) := by
    apply BitVec.eq_of_getLsbD_eq
    intro i hi
    simp only [BitVec.getLsbD_xor, BitVec.getLsbD_ofNat, BitVec.getLsbD_shiftLeft,
      BitVec.getLsbD_ushiftRight, Nat.testBit_mod_two_pow, BitVec.testBit_toNat]
    by_cases hin : i < n
    · simp [hi, hin]
    · have : n + (i - n) = i := by omega
      simp [hi, hin, this]
  conv_lhs => rw [parts, steps_xor, steps_shiftLeft poly n _ high]

/-- A run of symbols read as one little-endian word. -/
def word (k : Nat) : List (BitVec w) → BitVec w
  | [] => 0#w
  | d :: ds => d ^^^ (word k ds <<< k)

theorem word_lt (k : Nat) (ds : List (BitVec w)) (hd : ∀ d ∈ ds, d.toNat < 2 ^ k)
    (hw : k * ds.length ≤ w) : (word k ds).toNat < 2 ^ (k * ds.length) := by
  induction ds with
  | nil => simp [word]
  | cons d ds ih =>
    have len : k * (d :: ds).length = k * ds.length + k := by simp [Nat.mul_succ]
    have tail := ih (fun x hx => hd x (by simp [hx])) (by omega)
    have moved : (word k ds).toNat * 2 ^ k < 2 ^ (k * (d :: ds).length) := by
      rw [len, pow_add]
      exact (Nat.mul_lt_mul_right (by positivity)).mpr tail
    have room := moved.trans_le (Nat.pow_le_pow_right (by omega) hw)
    simp only [word, BitVec.toNat_xor, BitVec.toNat_shiftLeft, Nat.shiftLeft_eq,
      Nat.mod_eq_of_lt room]
    refine Nat.xor_lt_two_pow ((hd d (by simp)).trans_le ?_) moved
    exact Nat.pow_le_pow_right (by omega) (by omega)

theorem word_shift_lt {k : Nat} {d : BitVec w} {ds : List (BitVec w)}
    (hd : ∀ x ∈ d :: ds, x.toNat < 2 ^ k) (hw : k * (d :: ds).length ≤ w) :
    (word k ds).toNat * 2 ^ k < 2 ^ w := by
  have len : k * (d :: ds).length = k * ds.length + k := by simp [Nat.mul_succ]
  have tail := word_lt k ds (fun x hx => hd x (by simp [hx])) (by omega)
  calc (word k ds).toNat * 2 ^ k < 2 ^ (k * ds.length) * 2 ^ k :=
        (Nat.mul_lt_mul_right (by positivity)).mpr tail
    _ = 2 ^ (k * (d :: ds).length) := by rw [len, pow_add]
    _ ≤ 2 ^ w := Nat.pow_le_pow_right (by omega) hw

/-- Only the burst itself, loaded into the register, is cancelled by absorbing it. -/
theorem absorb_eq_zero {poly : BitVec w} (hp : poly.msb = true) (k : Nat) (c : BitVec w)
    (ds : List (BitVec w)) (hd : ∀ d ∈ ds, d.toNat < 2 ^ k) (hw : k * ds.length ≤ w)
    (h : absorb poly k c ds = 0#w) : c = word k ds := by
  induction ds generalizing c with
  | nil => exact h
  | cons d ds ih =>
    have len : k * (d :: ds).length = k * ds.length + k := by simp [Nat.mul_succ]
    have tail := ih _ (fun x hx => hd x (by simp [hx])) (by omega) h
    rw [← steps_shiftLeft poly k (word k ds) (word_shift_lt hd hw)] at tail
    have loaded := steps_injective hp k tail
    calc c = (c ^^^ d) ^^^ d := by rw [BitVec.xor_assoc, BitVec.xor_self, BitVec.xor_zero]
      _ = word k (d :: ds) := by rw [loaded, word, BitVec.xor_comm]

theorem word_eq_zero (k : Nat) (ds : List (BitVec w)) (hd : ∀ d ∈ ds, d.toNat < 2 ^ k)
    (hw : k * ds.length ≤ w) (h : word k ds = 0#w) : ∀ d ∈ ds, d = 0#w := by
  induction ds with
  | nil => simp
  | cons d ds ih =>
    have len : k * (d :: ds).length = k * ds.length + k := by simp [Nat.mul_succ]
    have room := word_shift_lt hd hw
    have eq : d.toNat = (word k ds).toNat * 2 ^ k := by
      have := congrArg BitVec.toNat (BitVec.xor_eq_zero_iff.mp h)
      simpa [Nat.shiftLeft_eq, Nat.mod_eq_of_lt room] using this
    have rest : (word k ds).toNat = 0 := by
      by_contra ne
      have small := hd d (by simp)
      have : 1 * 2 ^ k ≤ (word k ds).toNat * 2 ^ k := Nat.mul_le_mul_right _ (by omega)
      omega
    intro x hx
    rcases List.mem_cons.mp hx with rfl | hx
    · apply BitVec.eq_of_toNat_eq
      simp [eq, rest]
    · exact ih (fun y hy => hd y (by simp [hy])) (by omega)
        (BitVec.eq_of_toNat_eq (by simpa using rest)) x hx

theorem zipWith_xor_eq_zero {xs ys : List (BitVec w)} (hl : xs.length = ys.length)
    (h : ∀ d ∈ List.zipWith (· ^^^ ·) xs ys, d = 0#w) : xs = ys := by
  induction xs generalizing ys with
  | nil => exact (List.length_eq_zero_iff.mp hl.symm).symm
  | cons x xs ih =>
    obtain _ | ⟨y, ys⟩ := ys
    · simp at hl
    · simp only [List.zipWith_cons_cons, List.forall_mem_cons] at h
      rw [BitVec.xor_eq_zero_iff.mp h.1, ih (by simpa using hl) h.2]

/-- Within a burst no longer than the register, different symbols give different remainders. -/
theorem absorb_short_injective {poly : BitVec w} (hp : poly.msb = true) (k : Nat) (c : BitVec w)
    {xs ys : List (BitVec w)} (hl : xs.length = ys.length)
    (hx : ∀ d ∈ xs, d.toNat < 2 ^ k) (hy : ∀ d ∈ ys, d.toNat < 2 ^ k)
    (hw : k * xs.length ≤ w) (h : absorb poly k c xs = absorb poly k c ys) : xs = ys := by
  have small : ∀ d ∈ List.zipWith (· ^^^ ·) xs ys, d.toNat < 2 ^ k := by
    intro d hd
    rw [← List.map_uncurry_zip_eq_zipWith] at hd
    obtain ⟨⟨x, y⟩, hz, rfl⟩ := List.mem_map.mp hd
    obtain ⟨hxm, hym⟩ := List.of_mem_zip hz
    rw [Function.uncurry_apply_pair, BitVec.toNat_xor]
    exact Nat.xor_lt_two_pow (hx x hxm) (hy y hym)
  have len : (List.zipWith (· ^^^ ·) xs ys).length = xs.length := by simp [hl]
  rw [← BitVec.xor_eq_zero_iff, absorb_xor _ _ _ _ _ _ hl, BitVec.xor_self] at h
  have zero := absorb_eq_zero hp k _ _ small (by rw [len]; exact hw) h
  exact zipWith_xor_eq_zero hl (word_eq_zero k _ small (by rw [len]; exact hw) zero.symm)

/-- **Burst detection.** Changing a run of symbols that spans at most the register's width,
anywhere in a message, changes the remainder. -/
theorem absorb_burst_ne {poly : BitVec w} (hp : poly.msb = true) (k : Nat) (c : BitVec w)
    (before after : List (BitVec w)) {xs ys : List (BitVec w)} (hl : xs.length = ys.length)
    (hx : ∀ d ∈ xs, d.toNat < 2 ^ k) (hy : ∀ d ∈ ys, d.toNat < 2 ^ k)
    (hw : k * xs.length ≤ w) (hne : xs ≠ ys) :
    absorb poly k c (before ++ xs ++ after) ≠ absorb poly k c (before ++ ys ++ after) := by
  intro h
  simp only [absorb_append] at h
  exact hne (absorb_short_injective hp k _ hl hx hy hw (absorb_injective hp k after h))

/-! ## Bit by bit -/

theorem step_xor_eq_feed (poly c d : BitVec w) :
    step poly (c ^^^ d) = feed poly c (d.getLsbD 0) ^^^ (d >>> 1) := by
  unfold step feed
  rw [BitVec.getLsbD_xor, BitVec.ushiftRight_xor_distrib]
  ac_rfl

theorem bits_succ (k : Nat) (d : BitVec w) : bits (k + 1) d = d.getLsbD 0 :: bits k (d >>> 1) := by
  simp [bits, List.range_succ_eq_map, Function.comp_def, Nat.add_comm]

/-- A symbol enters bit by bit. -/
theorem steps_xor_eq_foldl (poly : BitVec w) (k : Nat) (c d : BitVec w) (h : d.toNat < 2 ^ k) :
    steps poly k (c ^^^ d) = (bits k d).foldl (feed poly) c := by
  induction k generalizing c d with
  | zero =>
    obtain rfl : d = 0#w := BitVec.eq_of_toNat_eq (by simpa using h)
    simp [steps, bits]
  | succ k ih =>
    have lower : (d >>> 1).toNat < 2 ^ k := by
      rw [BitVec.toNat_ushiftRight, Nat.shiftRight_eq_div_pow]
      omega
    rw [steps, step_xor_eq_feed, bits_succ, List.foldl_cons, ih _ _ lower]

end KVRPC.Library.Lfsr
