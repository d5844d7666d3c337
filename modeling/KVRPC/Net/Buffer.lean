import KVRPC.Library.Bytes

/-!
# The receive buffer

`Buffer` of `buffer.h`: a vector with a read cursor. `append` first drops the octets before
the cursor when they are at least half of the vector, and `consume` empties the vector when
the cursor reaches its end. Seen through `contents`, none of that is visible.
-/
namespace KVRPC.Net

open Library

structure Buffer where
  bytes : Bytes := []
  read : Nat := 0
  deriving DecidableEq, Repr

namespace Buffer

def size (b : Buffer) : Nat := usub b.bytes.length b.read

/-- The octets from the cursor on. -/
def contents (b : Buffer) : Bytes := b.bytes.drop b.read

def append (b : Buffer) (data : Bytes) : Buffer :=
  let b := if b.read ≠ 0 ∧ b.read ≥ b.bytes.length / 2 then ⟨b.bytes.drop b.read, 0⟩ else b
  { b with bytes := b.bytes ++ data }

def consume (b : Buffer) (n : Nat) : Buffer :=
  if b.read + n = b.bytes.length then {} else { b with read := b.read + n }

def copy (b : Buffer) (n : Nat) : Bytes := b.contents.take n

/-- The cursor is within the vector. -/
def Valid (b : Buffer) : Prop := b.read ≤ b.bytes.length

variable {b : Buffer}

theorem valid_empty : Valid {} := Nat.le_refl 0

theorem size_eq (h : b.Valid) : b.size = b.contents.length := by
  rw [size, usub_of_le h, contents, List.length_drop]

theorem Valid.append (h : b.Valid) (data : Bytes) : (b.append data).Valid := by
  unfold Valid at *
  unfold Buffer.append
  split <;> simp
  omega

theorem contents_append (h : b.Valid) (data : Bytes) :
    (b.append data).contents = b.contents ++ data := by
  unfold Valid at h
  unfold Buffer.append contents
  split
  · simp
  · exact List.drop_append_of_le_length h

theorem Valid.consume (h : b.Valid) {n : Nat} (available : n ≤ b.contents.length) :
    (b.consume n).Valid := by
  unfold Valid contents at *
  rw [List.length_drop] at available
  unfold Buffer.consume
  split <;> simp
  omega

theorem contents_consume (n : Nat) : (b.consume n).contents = b.contents.drop n := by
  unfold Buffer.consume contents
  rw [List.drop_drop]
  split
  case isTrue at_end => simp [at_end]
  case isFalse => rfl

end Buffer
end KVRPC.Net
