import KVRPC.Library.Lfsr
import KVRPC.Library.Bytes

/-!
# The record checksum

`Crc` of `aof.cpp` reads a table of 256 words. Each table step is eight shifts of the
register of `Library.Lfsr` with the reflected CRC-32 polynomial, so burst detection
carries over from there.
-/
namespace KVRPC.Aof

open Library

/-- The inner loop that fills `table[i]`. -/
def crcEntryLoop : Nat → UInt32 → UInt32
  | 0, c => c
  | j + 1, c => crcEntryLoop j ((c >>> 1) ^^^ (0xedb88320 &&& (0 - (c &&& 1))))

def crcTable : Vector UInt32 256 := Vector.ofFn fun i => crcEntryLoop 8 (UInt32.ofNat i)

theorem crcTable_get (i : Fin 256) : crcTable.get i = crcEntryLoop 8 (UInt32.ofNat i) :=
  Vector.getElem_ofFn i.isLt

theorem crcIndex_lt (c : UInt32) : (c &&& 255).toNat < 256 := by
  rw [UInt32.toNat_and]
  exact Nat.and_lt_two_pow _ (n := 8) (by decide)

/-- One round of the loop over the data. -/
def crcStep (crc : UInt32) (b : UInt8) : UInt32 :=
  crcTable.get ⟨((crc ^^^ b.toUInt32) &&& 255).toNat, crcIndex_lt _⟩ ^^^ (crc >>> 8)

def crc (data : Bytes) : UInt32 := ~~~ data.foldl crcStep (~~~ 0)

def crcPoly : BitVec 32 := 0xedb88320#32

theorem crcPoly_msb : crcPoly.msb = true := by decide

/-- A data octet as a register symbol. -/
def crcSymbol (b : UInt8) : BitVec 32 := b.toBitVec.setWidth 32

theorem crcSymbol_lt (b : UInt8) : (crcSymbol b).toNat < 2 ^ 8 := by
  have := b.toNat_lt
  simp [crcSymbol]
  omega

theorem crcSymbol_injective : Function.Injective crcSymbol := by
  intro a b h
  apply UInt8.toNat_inj.mp
  have := congrArg BitVec.toNat h
  simpa [crcSymbol] using this

theorem low_bit_mask (c : UInt32) :
    (0xedb88320 &&& (0 - (c &&& 1)) : UInt32).toBitVec =
      if c.toBitVec.getLsbD 0 then crcPoly else 0#32 := by
  have bit : (c &&& 1).toBitVec = BitVec.setWidth 32 (BitVec.ofBool (c.toBitVec.getLsbD 0)) := by
    rw [UInt32.toBitVec_and]
    exact BitVec.and_one_eq_setWidth_ofBool_getLsbD
  rw [UInt32.toBitVec_and, UInt32.toBitVec_sub, bit]
  cases c.toBitVec.getLsbD 0 <;> decide

theorem crcEntryLoop_toBitVec (n : Nat) (c : UInt32) :
    (crcEntryLoop n c).toBitVec = Lfsr.steps crcPoly n c.toBitVec := by
  induction n generalizing c with
  | zero => rfl
  | succ n ih =>
    rw [crcEntryLoop, ih, Lfsr.steps, UInt32.toBitVec_xor, low_bit_mask]
    rfl

/-- One table step is eight shifts of the register with the octet added. -/
theorem crcStep_toBitVec (c : UInt32) (b : UInt8) :
    (crcStep c b).toBitVec = Lfsr.steps crcPoly 8 (c.toBitVec ^^^ crcSymbol b) := by
  have symbol : b.toUInt32.toBitVec = crcSymbol b := rfl
  have index : (UInt32.ofNat ((c ^^^ b.toUInt32) &&& 255).toNat).toBitVec =
      BitVec.ofNat 32 ((c.toBitVec ^^^ crcSymbol b).toNat % 2 ^ 8) := by
    rw [UInt32.ofNat_toNat]
    apply BitVec.eq_of_toNat_eq
    have mask : ((255 : UInt32).toBitVec).toNat = 2 ^ 8 - 1 := rfl
    rw [UInt32.toBitVec_and, BitVec.toNat_and, mask, Nat.and_two_pow_sub_one_eq_mod,
      UInt32.toBitVec_xor, symbol, BitVec.toNat_ofNat]
    omega
  have high : (c.toBitVec ^^^ crcSymbol b) >>> 8 = c.toBitVec >>> 8 := by
    have none : crcSymbol b >>> 8 = 0#32 := by
      apply BitVec.eq_of_toNat_eq
      have := crcSymbol_lt b
      rw [BitVec.toNat_ushiftRight, Nat.shiftRight_eq_div_pow, Nat.div_eq_of_lt this]
      rfl
    rw [BitVec.ushiftRight_xor_distrib, none, BitVec.xor_zero]
  rw [Lfsr.steps_split, high, ← index, ← crcEntryLoop_toBitVec, crcStep, crcTable_get,
    UInt32.toBitVec_xor]
  rfl

theorem foldl_crcStep_toBitVec (c : UInt32) (data : Bytes) :
    (data.foldl crcStep c).toBitVec = Lfsr.absorb crcPoly 8 c.toBitVec (data.map crcSymbol) := by
  induction data generalizing c with
  | nil => rfl
  | cons b data ih => rw [List.foldl_cons, ih, crcStep_toBitVec]; rfl

/-- Changing at most four consecutive octets changes the checksum. -/
theorem crc_burst_ne (before after : Bytes) {xs ys : Bytes} (hl : xs.length = ys.length)
    (hw : xs.length ≤ 4) (hne : xs ≠ ys) :
    crc (before ++ xs ++ after) ≠ crc (before ++ ys ++ after) := by
  intro h
  have inner := congrArg (fun c : UInt32 => (~~~ c).toBitVec) h
  simp only [crc, UInt32.not_not, foldl_crcStep_toBitVec, List.map_append] at inner
  have symbols : ∀ zs : Bytes, ∀ d ∈ zs.map crcSymbol, d.toNat < 2 ^ 8 := by
    intro zs d hd
    obtain ⟨b, _, rfl⟩ := List.mem_map.mp hd
    exact crcSymbol_lt b
  refine Lfsr.absorb_burst_ne crcPoly_msb 8 _ _ _ (by simpa using hl) (symbols xs) (symbols ys)
    (by simp; omega) ?_ inner
  exact fun heq => hne (crcSymbol_injective.list_map heq)

/-! ## The checksum that is meant -/

/-- The bits of an octet, least significant first. -/
def octetBits (b : UInt8) : List Bool := Lfsr.bits 8 b.toBitVec

/-- Reflected CRC-32 with polynomial `0xEDB88320`, a bit at a time: the register starts as all
ones, every bit of the data is fed to it, and the result is inverted. -/
def bitSerialCrc (data : Bytes) : BitVec 32 :=
  (data.flatMap octetBits).foldl (Lfsr.feed crcPoly) (BitVec.allOnes 32) ^^^ BitVec.allOnes 32

theorem bits_crcSymbol (b : UInt8) : Lfsr.bits 8 (crcSymbol b) = octetBits b := by
  refine List.map_congr_left fun i mem => ?_
  have small : i < 8 := List.mem_range.mp mem
  rw [crcSymbol, BitVec.getLsbD_setWidth, decide_eq_true (by omega : i < 32), Bool.true_and]

theorem foldl_crcStep_eq_feed (c : UInt32) (data : Bytes) :
    (data.foldl crcStep c).toBitVec =
      (data.flatMap octetBits).foldl (Lfsr.feed crcPoly) c.toBitVec := by
  induction data generalizing c with
  | nil => rfl
  | cons b data ih =>
    rw [List.foldl_cons, ih, crcStep_toBitVec, Lfsr.steps_xor_eq_foldl _ _ _ _ (crcSymbol_lt b),
      bits_crcSymbol, List.flatMap_cons, List.foldl_append]

/-- The table does what the shift register does. -/
theorem crc_toBitVec (data : Bytes) : (crc data).toBitVec = bitSerialCrc data := by
  have start : (~~~ 0 : UInt32).toBitVec = BitVec.allOnes 32 := by decide
  rw [crc, UInt32.toBitVec_not, foldl_crcStep_eq_feed, start, bitSerialCrc, BitVec.not_def,
    BitVec.xor_comm]

/-- Two strings that agree outside a window, cut at the window. -/
theorem split_window {xs ys : Bytes} {start width : Nat}
    (outside : ∀ i, xs[i]? ≠ ys[i]? → start ≤ i ∧ i < start + width) :
    xs.take start = ys.take start ∧ (xs.drop start).drop width = (ys.drop start).drop width := by
  constructor
  · refine List.ext_getElem? fun i => ?_
    rw [List.getElem?_take, List.getElem?_take]
    split_ifs with early
    · by_contra differ
      have := outside i differ
      omega
    · rfl
  · refine List.ext_getElem? fun i => ?_
    rw [List.drop_drop, List.drop_drop, List.getElem?_drop, List.getElem?_drop]
    by_contra differ
    have := outside _ differ
    omega

/-- **The checksum.** `Crc` is the bit-serial reflected CRC-32 of its data, and it differs for any
two strings of one length that differ only within four consecutive octets. -/
theorem crc_correct :
    (∀ data, (crc data).toBitVec = bitSerialCrc data) ∧
    ∀ xs ys : Bytes, xs.length = ys.length → xs ≠ ys →
      ∀ start, (∀ i, xs[i]? ≠ ys[i]? → start ≤ i ∧ i < start + 4) → crc xs ≠ crc ys := by
  refine ⟨crc_toBitVec, fun xs ys same differ start outside => ?_⟩
  obtain ⟨front, back⟩ := split_window outside
  have parts : ∀ zs : Bytes,
      zs = zs.take start ++ (zs.drop start).take 4 ++ (zs.drop start).drop 4 := fun zs => by simp
  have inner : (xs.drop start).take 4 ≠ (ys.drop start).take 4 := by
    intro equal
    apply differ
    rw [parts xs, parts ys, front, back, equal]
  rw [parts xs, parts ys, front, back]
  exact crc_burst_ne _ _ (by simp [same]) (by simp) inner

/-- The check value of the standard, and a string with two octets changed. -/
theorem crc_correct_check :
    crc [0x31, 0x32, 0x33, 0x34, 0x35, 0x36, 0x37, 0x38, 0x39] = 0xcbf43926 ∧
    crc [1, 2, 3, 4, 5, 6] ≠ crc [1, 9, 3, 4, 8, 6] := by
  refine ⟨by decide +kernel, crc_correct.2 _ _ rfl (by decide) 1 fun i differ => ?_⟩
  by_contra out
  match i with
  | 0 => exact differ rfl
  | 1 | 2 | 3 | 4 => exact out (by omega)
  | _ + 5 => exact differ rfl

end KVRPC.Aof
