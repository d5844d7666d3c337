import KVRPC.Library.Bytes

/-!
# Byte orders

How a host keeps a number in memory, and what copying octets with the index reversed makes of it.
Portable code writes the octets of a number in one fixed order whatever the host does.
-/
namespace KVRPC.Library

inductive ByteOrder where
  | little
  | big
  deriving DecidableEq, Repr

/-- The low `k` octets of `n`, least significant first. -/
def leBytes (k n : Nat) : Bytes := (beBytes k n).reverse

/-- The number a little-endian field denotes. -/
def leNat (bytes : Bytes) : Nat := beNat bytes.reverse

@[simp] theorem length_leBytes (k n : Nat) : (leBytes k n).length = k := by simp [leBytes]

theorem leNat_leBytes_of_lt {k n : Nat} (h : n < 256 ^ k) : leNat (leBytes k n) = n := by
  rw [leNat, leBytes, List.reverse_reverse, beNat_beBytes_of_lt h]

theorem leBytes_leNat (bytes : Bytes) : leBytes bytes.length (leNat bytes) = bytes := by
  have same := beBytes_beNat bytes.reverse
  rw [List.length_reverse] at same
  rw [leBytes, leNat, same, List.reverse_reverse]

theorem leNat_lt (bytes : Bytes) : leNat bytes < 256 ^ bytes.length := by
  simpa [leNat] using beNat_lt bytes.reverse

namespace ByteOrder

/-- The object representation of a number of `size` octets. -/
def represent (order : ByteOrder) (size n : Nat) : Bytes :=
  match order with
  | .little => leBytes size n
  | .big => beBytes size n

/-- The number with an object representation. -/
def number (order : ByteOrder) (bytes : Bytes) : Nat :=
  match order with
  | .little => leNat bytes
  | .big => beNat bytes

end ByteOrder

/-! ## Copying with a permuted index -/

/-- Writes `f i` at position `σ i` for every `i` below `n`. -/
def scatter {α : Type*} (σ : Nat → Nat) (f : Nat → α) (n : Nat) (array : List α) : List α :=
  (List.range n).foldl (fun array i => array.set (σ i) (f i)) array

variable {α : Type*} {σ : Nat → Nat} {f : Nat → α} {n : Nat} {array : List α}

theorem scatter_succ (σ : Nat → Nat) (f : Nat → α) (n : Nat) (array : List α) :
    scatter σ f (n + 1) array = (scatter σ f n array).set (σ n) (f n) := by
  simp [scatter, List.range_succ]

@[simp] theorem length_scatter (σ : Nat → Nat) (f : Nat → α) (n : Nat) (array : List α) :
    (scatter σ f n array).length = array.length := by
  induction n with
  | zero => rfl
  | succ n ih => rw [scatter_succ, List.length_set, ih]

theorem scatter_congr {g : Nat → α} (same : ∀ i, i < n → f i = g i) :
    scatter σ f n array = scatter σ g n array := by
  induction n with
  | zero => rfl
  | succ n ih =>
    rw [scatter_succ, scatter_succ, ih fun i h => same i (by omega), same n (by omega)]

/-- No position is written twice. -/
theorem getElem?_scatter (inj : ∀ i j, i < n → j < n → σ i = σ j → i = j)
    (bound : ∀ i, i < n → σ i < array.length) {k : Nat} (h : k < n) :
    (scatter σ f n array)[σ k]? = some (f k) := by
  induction n with
  | zero => omega
  | succ n ih =>
    rw [scatter_succ]
    by_cases last : k = n
    · subst last
      rw [List.getElem?_set_self (by simpa using bound k h)]
    · have other : σ n ≠ σ k := fun same => last (inj n k (by omega) h same).symm
      rw [List.getElem?_set_ne other]
      exact ih (fun i j hi hj => inj i j (by omega) (by omega)) (fun i hi => bound i (by omega))
        (by omega)

/-- Filling an array from front to back. -/
theorem scatter_id (f : Nat → α) (full : array.length = n) :
    scatter id f n array = (List.range n).map f := by
  refine List.ext_getElem? fun k => ?_
  by_cases h : k < n
  · have wrote : (scatter id f n array)[id k]? = some (f k) :=
      getElem?_scatter (fun i j _ _ same => same) (fun i hi => by simpa [full] using hi) h
    rw [id] at wrote
    simp [wrote, h]
  · rw [List.getElem?_eq_none (by simp; omega), List.getElem?_eq_none (by simp; omega)]

/-- Filling an array from back to front. -/
theorem scatter_reverse (f : Nat → α) (full : array.length = n) :
    scatter (fun i => n - 1 - i) f n array = ((List.range n).map f).reverse := by
  refine List.ext_getElem? fun k => ?_
  by_cases h : k < n
  · have wrote : (scatter (fun i => n - 1 - i) f n array)[n - 1 - (n - 1 - k)]? =
        some (f (n - 1 - k)) :=
      getElem?_scatter (fun i j hi hj same => by omega) (fun i hi => by omega) (by omega)
    rw [show n - 1 - (n - 1 - k) = k by omega] at wrote
    rw [wrote, List.getElem?_reverse (by simpa using h)]
    simp [show n - 1 - k < n by omega]
  · rw [List.getElem?_eq_none (by simp; omega), List.getElem?_eq_none (by simp; omega)]

/-- Reading an array from front to back. -/
theorem map_getD_range (array : List α) (default : α) :
    (List.range array.length).map (array.getD · default) = array := by
  refine List.ext_getElem (by simp) fun i _ h => ?_
  simp [h]

/-- Reading an array from back to front. -/
theorem map_getD_range_reverse (array : List α) (default : α) :
    (List.range array.length).map (fun i => array.getD (array.length - 1 - i) default) =
      array.reverse := by
  refine List.ext_getElem (by simp) fun i _ h => ?_
  have : array.length - 1 - i < array.length := by simp at h; omega
  simp [this]

end KVRPC.Library
