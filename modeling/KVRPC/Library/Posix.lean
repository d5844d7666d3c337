import KVRPC.Library.Bytes

/-!
# Files, names and descriptors

A file system keeps file contents by inode, names that refer to inodes and a table of
open descriptions. Writing through a description opened for appending goes to the end
of the file; any other write goes to the description's offset, which reads, writes and
seeks move. Renaming rebinds a name in one step.
-/
namespace KVRPC.Library

structure OpenFile where
  inode : Nat
  append : Bool
  offset : Nat

@[ext] structure Fs where
  data : Nat → Bytes
  names : String → Option Nat
  files : Nat → OpenFile
  /-- The next unused inode and descriptor number. -/
  fresh : Nat

/-- Replace what stands at `pos`, filling a gap with zeros and growing the file if needed. -/
def splice (old : Bytes) (pos : Nat) (new : Bytes) : Bytes :=
  old.take pos ++ List.replicate (pos - old.length) 0 ++ new ++ old.drop (pos + new.length)

theorem splice_end (old new : Bytes) : splice old old.length new = old ++ new := by
  simp [splice]

theorem length_splice {old : Bytes} {pos : Nat} (new : Bytes) (h : pos ≤ old.length) :
    (splice old pos new).length = max old.length (pos + new.length) := by
  simp [splice, Nat.sub_eq_zero_of_le h]
  omega

/-- Two adjacent replacements are one. -/
theorem splice_splice {old : Bytes} {pos : Nat} (xs ys : Bytes) (h : pos ≤ old.length) :
    splice (splice old pos xs) (pos + xs.length) ys = splice old pos (xs ++ ys) := by
  have gap : pos - old.length = 0 := by omega
  have head : (old.take pos).length = pos := by simp [h]
  have inner : splice old pos xs = (old.take pos ++ xs) ++ old.drop (pos + xs.length) := by
    simp [splice, gap]
  have front : (old.take pos ++ xs).length = pos + xs.length := by simp [head]
  rw [inner]
  unfold splice
  have room :
      pos + xs.length - ((old.take pos ++ xs) ++ old.drop (pos + xs.length)).length = 0 := by
    simp; omega
  rw [room, gap, List.take_left' front, List.drop_append, front, List.drop_of_length_le (by omega),
    List.drop_drop]
  simp [Nat.add_assoc]

namespace Fs

/-- The contents of the file behind a descriptor. -/
def content (fs : Fs) (fd : Nat) : Bytes := fs.data (fs.files fd).inode

/-- The contents of the file a name refers to. -/
def named (fs : Fs) (name : String) : Option Bytes := (fs.names name).map fs.data

/-- Where the next write through `fd` goes. -/
def position (fs : Fs) (fd : Nat) : Nat :=
  if (fs.files fd).append then (fs.content fd).length else (fs.files fd).offset

def setOffset (fs : Fs) (fd pos : Nat) : Fs :=
  { fs with files := Function.update fs.files fd { fs.files fd with offset := pos } }

/-- `write(fd, bytes)` when all of `bytes` is accepted. -/
def write (fs : Fs) (fd : Nat) (bytes : Bytes) : Fs :=
  { fs.setOffset fd (fs.position fd + bytes.length) with
    data := Function.update fs.data (fs.files fd).inode
      (splice (fs.content fd) (fs.position fd) bytes) }

/-- The octets a read of at most `n` can return. -/
def peek (fs : Fs) (fd n : Nat) : Bytes := ((fs.content fd).drop (fs.files fd).offset).take n

/-- `read(fd, n)` moves the offset over what it returns. -/
def advance (fs : Fs) (fd n : Nat) : Fs :=
  fs.setOffset fd ((fs.files fd).offset + (fs.peek fd n).length)

/-- The inode `open` with `O_CREAT` reaches, and the file system with the file created. -/
def create (fs : Fs) (name : String) : Nat × Fs :=
  match fs.names name with
  | some inode => (inode, fs)
  | none => (fs.fresh, { fs with
      data := Function.update fs.data fs.fresh []
      names := Function.update fs.names name (some fs.fresh)
      fresh := fs.fresh + 1 })

/-- `open(name, O_CREAT | O_RDWR | ...)`; the descriptor is the new `fresh - 1`. -/
def openFile (fs : Fs) (name : String) (append : Bool) : Fs :=
  { (fs.create name).2 with
    files := Function.update fs.files (fs.create name).2.fresh ⟨(fs.create name).1, append, 0⟩
    fresh := (fs.create name).2.fresh + 1 }

/-- `mkstemp` with the name it settled on; the descriptor is the new `fresh - 1`. -/
def mkstemp (fs : Fs) (name : String) : Fs where
  data := Function.update fs.data fs.fresh []
  names := Function.update fs.names name (some fs.fresh)
  files := Function.update fs.files (fs.fresh + 1) ⟨fs.fresh, false, 0⟩
  fresh := fs.fresh + 2

def rename (fs : Fs) (source target : String) : Fs :=
  { fs with names :=
      Function.update (Function.update fs.names source none) target (fs.names source) }

def unlink (fs : Fs) (name : String) : Fs :=
  { fs with names := Function.update fs.names name none }

/-! ## Offsets -/

@[simp] theorem setOffset_data (fs : Fs) (fd pos : Nat) :
    (fs.setOffset fd pos).data = fs.data := rfl

@[simp] theorem setOffset_names (fs : Fs) (fd pos : Nat) :
    (fs.setOffset fd pos).names = fs.names := rfl

@[simp] theorem setOffset_fresh (fs : Fs) (fd pos : Nat) :
    (fs.setOffset fd pos).fresh = fs.fresh := rfl

@[simp] theorem setOffset_inode (fs : Fs) (fd pos d : Nat) :
    ((fs.setOffset fd pos).files d).inode = (fs.files d).inode := by
  by_cases h : d = fd
  · subst h; simp [setOffset]
  · simp [setOffset, h]

@[simp] theorem setOffset_append (fs : Fs) (fd pos d : Nat) :
    ((fs.setOffset fd pos).files d).append = (fs.files d).append := by
  by_cases h : d = fd
  · subst h; simp [setOffset]
  · simp [setOffset, h]

@[simp] theorem setOffset_offset (fs : Fs) (fd pos : Nat) :
    ((fs.setOffset fd pos).files fd).offset = pos := by
  simp [setOffset]

@[simp] theorem setOffset_content (fs : Fs) (fd pos d : Nat) :
    (fs.setOffset fd pos).content d = fs.content d := by
  simp [content]

@[simp] theorem setOffset_setOffset (fs : Fs) (fd p q : Nat) :
    (fs.setOffset fd p).setOffset fd q = fs.setOffset fd q := by
  simp [setOffset]

@[simp] theorem setOffset_self (fs : Fs) (fd : Nat) :
    fs.setOffset fd (fs.files fd).offset = fs := by
  simp [setOffset]

/-! ## Reading -/

theorem length_peek (fs : Fs) (fd n : Nat) :
    (fs.peek fd n).length = min n ((fs.content fd).length - (fs.files fd).offset) := by
  simp [peek]

theorem peek_eq (fs : Fs) (fd n : Nat) :
    fs.peek fd n = ((fs.content fd).drop (fs.files fd).offset).take n := rfl

theorem advance_eq (fs : Fs) (fd n : Nat) :
    fs.advance fd n = fs.setOffset fd ((fs.files fd).offset + (fs.peek fd n).length) := rfl

/-- A read that returns less than asked for leaves the rest to the next one. -/
theorem peek_append {fs : Fs} {fd want n : Nat} (h : want ≤ n) :
    fs.peek fd want ++ ((fs.content fd).drop ((fs.files fd).offset + (fs.peek fd want).length)).take
      (n - (fs.peek fd want).length) = fs.peek fd n := by
  rw [← List.drop_drop, peek_eq, peek_eq]
  generalize (fs.content fd).drop (fs.files fd).offset = rest
  rcases le_total want rest.length with fits | short
  · rw [List.length_take_of_le fits, ← List.take_add, Nat.add_sub_cancel' h]
  · simp [List.take_of_length_le short, List.take_of_length_le (short.trans h)]

/-! ## Writing -/

@[simp] theorem write_inode (fs : Fs) (fd : Nat) (bytes : Bytes) (d : Nat) :
    ((fs.write fd bytes).files d).inode = (fs.files d).inode :=
  setOffset_inode _ _ _ _

@[simp] theorem write_append (fs : Fs) (fd : Nat) (bytes : Bytes) (d : Nat) :
    ((fs.write fd bytes).files d).append = (fs.files d).append :=
  setOffset_append _ _ _ _

@[simp] theorem write_offset (fs : Fs) (fd : Nat) (bytes : Bytes) :
    ((fs.write fd bytes).files fd).offset = fs.position fd + bytes.length :=
  setOffset_offset _ _ _

@[simp] theorem write_content (fs : Fs) (fd : Nat) (bytes : Bytes) :
    (fs.write fd bytes).content fd = splice (fs.content fd) (fs.position fd) bytes := by
  have : ((fs.write fd bytes).files fd).inode = (fs.files fd).inode := write_inode _ _ _ _
  rw [content, this]
  simp [write]

theorem write_data_of_ne (fs : Fs) (fd : Nat) (bytes : Bytes) {inode : Nat}
    (h : inode ≠ (fs.files fd).inode) : (fs.write fd bytes).data inode = fs.data inode := by
  simp [write, h]

/-- The next write through `fd` extends the file. -/
def AtEnd (fs : Fs) (fd : Nat) : Prop := fs.position fd = (fs.content fd).length

instance (fs : Fs) (fd : Nat) : Decidable (fs.AtEnd fd) :=
  inferInstanceAs (Decidable (fs.position fd = (fs.content fd).length))

theorem write_content_of_atEnd {fs : Fs} {fd : Nat} (h : fs.AtEnd fd) (bytes : Bytes) :
    (fs.write fd bytes).content fd = fs.content fd ++ bytes := by
  rw [write_content, h, splice_end]

theorem AtEnd.write {fs : Fs} {fd : Nat} (h : fs.AtEnd fd) (bytes : Bytes) :
    (fs.write fd bytes).AtEnd fd := by
  have pos : fs.position fd = (fs.content fd).length := h
  unfold AtEnd position
  rw [write_append, write_offset, write_content_of_atEnd h]
  split <;> simp [pos]

theorem position_le {fs : Fs} {fd : Nat} (h : (fs.files fd).offset ≤ (fs.content fd).length) :
    fs.position fd ≤ (fs.content fd).length := by
  unfold position
  split
  · exact le_rfl
  · exact h

theorem length_write_le {fs : Fs} {fd : Nat}
    (h : (fs.files fd).offset ≤ (fs.content fd).length) (bytes : Bytes) :
    ((fs.write fd bytes).content fd).length ≤ (fs.content fd).length + bytes.length := by
  have pos := position_le h
  rw [write_content, length_splice _ pos]
  omega

theorem offset_write_le {fs : Fs} {fd : Nat}
    (h : (fs.files fd).offset ≤ (fs.content fd).length) (bytes : Bytes) :
    ((fs.write fd bytes).files fd).offset ≤ ((fs.write fd bytes).content fd).length := by
  rw [write_offset, write_content, length_splice _ (position_le h)]
  omega

/-! ## Writing in pieces -/

theorem position_write {fs : Fs} {fd : Nat}
    (h : (fs.files fd).offset ≤ (fs.content fd).length) (bytes : Bytes) :
    (fs.write fd bytes).position fd = fs.position fd + bytes.length := by
  have pos := position_le h
  unfold position at pos ⊢
  rw [write_append, write_offset, write_content, length_splice _ (position_le h)]
  unfold position
  split <;> simp_all

theorem write_write {fs : Fs} {fd : Nat} (h : (fs.files fd).offset ≤ (fs.content fd).length)
    (xs ys : Bytes) : (fs.write fd xs).write fd ys = fs.write fd (xs ++ ys) := by
  refine Fs.ext ?_ rfl ?_ rfl
  · have := splice_splice xs ys (position_le h)
    rw [← position_write h xs, ← write_content] at this
    simp only [write] at this ⊢
    simp only [setOffset_inode, Function.update_idem]
    rw [← this]
  · have := position_write h xs
    simp only [write, setOffset] at this ⊢
    simp [this, Nat.add_assoc]

/-- What a sequence of writes through `fd` leaves behind; without any, nothing changes. -/
def wrote (fs : Fs) (fd : Nat) (bytes : Bytes) : Fs :=
  if bytes = [] then fs else fs.write fd bytes

@[simp] theorem wrote_nil (fs : Fs) (fd : Nat) : fs.wrote fd [] = fs := if_pos rfl

theorem offset_wrote_le {fs : Fs} {fd : Nat}
    (h : (fs.files fd).offset ≤ (fs.content fd).length) (bytes : Bytes) :
    ((fs.wrote fd bytes).files fd).offset ≤ ((fs.wrote fd bytes).content fd).length := by
  unfold wrote
  split
  · exact h
  · exact offset_write_le h bytes

theorem length_wrote_le {fs : Fs} {fd : Nat}
    (h : (fs.files fd).offset ≤ (fs.content fd).length) (bytes : Bytes) :
    ((fs.wrote fd bytes).content fd).length ≤ (fs.content fd).length + bytes.length := by
  unfold wrote
  split
  · omega
  · exact length_write_le h bytes

theorem wrote_wrote {fs : Fs} {fd : Nat} (h : (fs.files fd).offset ≤ (fs.content fd).length)
    (xs ys : Bytes) : (fs.wrote fd xs).wrote fd ys = fs.wrote fd (xs ++ ys) := by
  by_cases hx : xs = []
  · simp [hx]
  · by_cases hy : ys = []
    · simp [hy]
    · simp [wrote, hx, hy, write_write h]

theorem wrote_content_of_atEnd {fs : Fs} {fd : Nat} (h : fs.AtEnd fd) (bytes : Bytes) :
    (fs.wrote fd bytes).content fd = fs.content fd ++ bytes := by
  unfold wrote
  split
  · simp [*]
  · exact write_content_of_atEnd h bytes

theorem AtEnd.wrote {fs : Fs} {fd : Nat} (h : fs.AtEnd fd) (bytes : Bytes) :
    (fs.wrote fd bytes).AtEnd fd := by
  unfold Fs.wrote
  split
  · exact h
  · exact h.write bytes

@[simp] theorem wrote_names (fs : Fs) (fd : Nat) (bytes : Bytes) :
    (fs.wrote fd bytes).names = fs.names := by
  unfold wrote
  split <;> rfl

@[simp] theorem wrote_fresh (fs : Fs) (fd : Nat) (bytes : Bytes) :
    (fs.wrote fd bytes).fresh = fs.fresh := by
  unfold wrote
  split <;> rfl

@[simp] theorem wrote_inode (fs : Fs) (fd : Nat) (bytes : Bytes) (d : Nat) :
    ((fs.wrote fd bytes).files d).inode = (fs.files d).inode := by
  unfold wrote
  split <;> simp

@[simp] theorem wrote_append (fs : Fs) (fd : Nat) (bytes : Bytes) (d : Nat) :
    ((fs.wrote fd bytes).files d).append = (fs.files d).append := by
  unfold wrote
  split <;> simp

/-- Something that is written elsewhere than at the end replaces octets. -/
theorem atEnd_of_wrote_content {fs : Fs} {fd : Nat}
    (h : (fs.files fd).offset ≤ (fs.content fd).length) {bytes : Bytes} (some_written : bytes ≠ [])
    (grown : (fs.wrote fd bytes).content fd = fs.content fd ++ bytes) : fs.AtEnd fd := by
  have length := congrArg List.length grown
  have position := position_le h
  have positive := List.length_pos_iff.mpr some_written
  rw [wrote, if_neg some_written, write_content, length_splice _ position,
    List.length_append] at length
  unfold AtEnd
  omega

/-! ## Opening by name -/

/-- The file a name refers to, if any, is older than the next one created. -/
def Bound (fs : Fs) (name : String) : Prop := ∀ inode, fs.names name = some inode → inode < fs.fresh

theorem create_lt {fs : Fs} {name : String} (h : fs.Bound name) :
    (fs.create name).1 < (fs.create name).2.fresh := by
  unfold create
  split
  · exact h _ ‹_›
  · simp

theorem create_name (fs : Fs) (name : String) :
    (fs.create name).2.names name = some (fs.create name).1 := by
  unfold create
  split
  · assumption
  · simp

theorem create_data (fs : Fs) (name : String) :
    (fs.create name).2.data (fs.create name).1 = (fs.named name).getD [] := by
  unfold create named
  split <;> simp [*]

/-- Opening one name leaves every other name and its file alone. -/
theorem openFile_named_of_ne {fs : Fs} {name other : String} (append : Bool) (hne : other ≠ name)
    (h : fs.Bound name) : (fs.openFile other append).named name = fs.named name := by
  unfold openFile create named
  split
  · rfl
  · simp only [Function.update_of_ne hne.symm]
    cases hn : fs.names name with
    | none => rfl
    | some inode => simp [Function.update_of_ne (Nat.ne_of_lt (h inode hn))]

theorem openFile_bound_of_ne {fs : Fs} {name other : String} (append : Bool) (hne : other ≠ name)
    (h : fs.Bound name) : (fs.openFile other append).Bound name := by
  intro inode
  unfold openFile create
  split
  · intro hi
    exact (h inode hi).trans (Nat.lt_succ_self _)
  · simp only [Function.update_of_ne hne.symm]
    intro hi
    have := h inode hi
    omega

/-! ### The descriptor `openFile` returns -/

@[simp] theorem openFile_file (fs : Fs) (name : String) (append : Bool) :
    (fs.openFile name append).files (fs.create name).2.fresh = ⟨(fs.create name).1, append, 0⟩ := by
  simp [openFile]

theorem openFile_content (fs : Fs) (name : String) (append : Bool) :
    (fs.openFile name append).content (fs.create name).2.fresh = (fs.named name).getD [] := by
  rw [content, openFile_file]
  exact create_data fs name

theorem openFile_name (fs : Fs) (name : String) (append : Bool) :
    (fs.openFile name append).names name = some (fs.create name).1 := create_name fs name

/-! ## What a step leaves alone -/

/-- The descriptor `fd`, its file and the name `name` are as before. -/
structure Keeps (fs fs' : Fs) (name : String) (fd : Nat) : Prop where
  file : fs'.files fd = fs.files fd
  data : fs'.data (fs.files fd).inode = fs.data (fs.files fd).inode
  name : fs'.names name = fs.names name
  fresh : fs.fresh ≤ fs'.fresh

theorem Keeps.refl (fs : Fs) (name : String) (fd : Nat) : Keeps fs fs name fd :=
  ⟨rfl, rfl, rfl, le_rfl⟩

theorem Keeps.trans {fs fs' fs'' : Fs} {name : String} {fd : Nat} (h : Keeps fs fs' name fd)
    (g : Keeps fs' fs'' name fd) : Keeps fs fs'' name fd :=
  ⟨g.file.trans h.file, (by have := g.data; rw [h.file] at this; exact this.trans h.data),
    g.name.trans h.name, h.fresh.trans g.fresh⟩

theorem Keeps.content {fs fs' : Fs} {name : String} {fd : Nat} (h : Keeps fs fs' name fd) :
    fs'.content fd = fs.content fd := by
  rw [Fs.content, h.file]
  exact h.data

theorem Keeps.wrote {fs : Fs} {name : String} {fd d : Nat} (hd : d ≠ fd)
    (hi : (fs.files d).inode ≠ (fs.files fd).inode) (bytes : Bytes) :
    Keeps fs (fs.wrote d bytes) name fd := by
  refine ⟨?_, ?_, by simp, by simp⟩
  · unfold Fs.wrote
    split
    · rfl
    · simp [Fs.write, setOffset, Ne.symm hd]
  · unfold Fs.wrote
    split
    · rfl
    · exact write_data_of_ne fs d bytes (Ne.symm hi)

end Fs
end KVRPC.Library
