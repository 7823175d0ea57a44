/-
# The state of a mounted filesystem

What the kernel keeps while a simplefs is mounted: the device through its buffer cache, the
inode bitmap of `struct simplefs_sb_info`, and the dentries.  A dentry holds its parent, its
name, the private inode that `d_inode->i_private` points at, and the directory cache in
`d_fsdata` (`none` is `NULL`).  `linked` is false once the VFS has unhashed the dentry of an
unlinked file; the dentry then only lives on behind the handles that are still open on it.

The kernel's buffers are taken to be one with the device, but for one thing: a copy from the user
that fails has changed a buffer that is then not marked dirty.  What the device still has of such a
block is in `torn`, and an unmount drops the buffer.

`sb_info->sb` points into the buffer of block 0, so the superblock needs no component of its
own.  The reference counts, `i_ino`, the times and `i_op`/`i_fop` are left out: no simplefs
function reads them.
-/
import Simplefs.Bitmap
import Simplefs.Cache
import Simplefs.Lib.Machine

namespace Simplefs

/-- A dentry and the inode it is attached to. -/
structure Dentry where
  parent : Nat
  name : Name
  inode : SfsInode
  fsdata : Option DirCache
  linked : Bool

/-- The state of a mounted filesystem.  Dentries are numbered as they are made; `next` is the
first number not in use.  `past` is the word that follows the inode store's buffer in memory
at the place where slot 128 would keep its inode number: `simplefs_inode_search` reads it.
`torn` has the blocks whose buffer is newer than the device. -/
structure Fs where
  dev : Device
  imap : BitVec 64
  dentries : Nat → Option Dentry
  next : Nat
  past : BitVec 64
  torn : Nat → Option Block

/-- The three mutexes of `simple.c`. -/
inductive Lock where
  | childrenUpdate
  | inodesMgmt
  | sb
  deriving DecidableEq

/-- The calls of `mutex_lock_interruptible`, by the function they stand in. -/
inductive Site where
  | addMgmt
  | addSb
  | delMgmt
  | delSb
  | getAFreeblock
  | getObjectsCount
  | getInode
  | save
  | write
  | createChildren
  | createMgmt
  deriving DecidableEq

/-- Undefined behaviour and deliberate crashes. -/
inductive Fault where
  /-- `BUG_ON(!dir_cache)`. -/
  | bugOn
  /-- A list walk on a `NULL` cache. -/
  | nullCache
  /-- A `NULL` cache entry or a `NULL` inode is dereferenced. -/
  | nullEntry
  /-- `list_first_entry` of an empty free list. -/
  | emptyFreeList
  /-- A read or write outside the 4096 bytes of a buffer. -/
  | outOfBlock
  /-- A bit of `imap` beyond its 64, or `ffz` of a word without a zero bit. -/
  | outOfImap
  /-- The VFS passed a dentry that does not exist. -/
  | noDentry
  deriving DecidableEq

/-- What a running operation publishes about itself: the directory it works in, the inode
number and the block a create has picked, and whether that inode has reached the store. -/
structure Progress where
  dir : Nat
  ino : Option Nat
  blk : Option Nat
  added : Bool
  deriving DecidableEq

/-- An operation in directory `d` that has not begun. -/
def Progress.start (d : Nat) : Progress := ⟨d, none, none, false⟩

/-- Kernel code over the state. -/
abbrev Code := Prog Fs Progress Lock Site Fault

/-! ## Buffers -/

namespace Fs

/-- The buffer of block `b` after a copy into it.  If the copy has come to its end the buffer is
marked dirty and synced; otherwise the device keeps what it had. -/
def tear (fs : Fs) (b : Nat) (ok : Bool) : Nat → Option Block :=
  Function.update fs.torn b (if ok then none else some ((fs.torn b).getD (fs.dev.blocks b)))

/-- What is on the device. -/
def flushed (fs : Fs) : Device := Device.ofBlocks fun b => (fs.torn b).getD (fs.dev.blocks b)

/-- The buffers that the device does not have are dropped. -/
def restored (fs : Fs) : Fs := { fs with dev := fs.flushed, torn := fun _ => none }

theorem blocks_flushed {fs : Fs} {b : Nat} (h : fs.torn b = none) :
    fs.flushed.blocks b = fs.dev.blocks b := by
  rw [flushed, Device.blocks_ofBlocks, h, Option.getD_none]

theorem flushed_of_whole {fs : Fs} (h : ∀ b, fs.torn b = none) : fs.flushed = fs.dev := by
  simp only [flushed, h, Option.getD_none]
  exact Device.ofBlocks_blocks fs.dev

theorem tear_ne (fs : Fs) {b b' : Nat} (ok : Bool) (h : b' ≠ b) : fs.tear b ok b' = fs.torn b' :=
  Function.update_of_ne h _ _

/-- A copy that comes to its end mends the block, and one that does not tears it. -/
theorem tear_self (fs : Fs) (b n m : Nat) :
    fs.tear b (decide (n ≤ m)) b =
      if m < n then some ((fs.torn b).getD (fs.dev.blocks b)) else none := by
  rw [tear, Function.update_self]
  by_cases h : m < n
  · rw [if_pos h, decide_eq_false (Nat.not_le.mpr h), if_neg Bool.false_ne_true]
  · rw [if_neg h, decide_eq_true (Nat.not_lt.mp h), if_pos rfl]

/-- Only data blocks are torn. -/
def DataTorn (fs : Fs) : Prop := ∀ b, fs.torn b ≠ none → 2 ≤ b

namespace DataTorn

variable {fs : Fs} {b : Nat}

theorem whole (h : fs.DataTorn) (hb : b < 2) : fs.torn b = none := by
  by_contra hno
  have := h b hno
  omega

theorem tear (h : fs.DataTorn) (hb : 2 ≤ b) (ok : Bool) (b' : Nat) (hno : fs.tear b ok b' ≠ none) :
    2 ≤ b' := by
  by_cases hbb : b' = b
  · exact hbb ▸ hb
  · rw [fs.tear_ne ok hbb] at hno
    exact h b' hno

theorem bytes (h : fs.DataTorn) (hb : b < 2) (a : Nat) (ha : a / 4096 = b) :
    fs.flushed a = fs.dev a :=
  Device.bytes_of_blocks (blocks_flushed (h.whole hb)) a ha

/-- The superblock and the inode store are on the device as they are in memory. -/
theorem super (h : fs.DataTorn) : SameSuper fs.dev fs.flushed := .of_bytes (h.bytes (by omega))

theorem inodesCount (h : fs.DataTorn) : fs.flushed.inodesCount = fs.dev.inodesCount :=
  Device.inodesCount_of_bytes (h.bytes (by omega))

theorem slot (h : fs.DataTorn) {i : Nat} (hi : i < slotsPerBlock) :
    fs.flushed.slot i = fs.dev.slot i :=
  Device.slot_of_bytes (h.bytes (by omega)) hi

end DataTorn

end Fs

/-! ## Reading and writing dentries -/

namespace Fs

/-- The dentry of a number. -/
def dentry (fs : Fs) (d : Nat) : Except Fault Dentry :=
  match fs.dentries d with
  | some x => .ok x
  | none => .error .noDentry

/-- Overwrite a dentry. -/
def setDentry (fs : Fs) (d : Nat) (x : Dentry) : Fs :=
  { fs with dentries := Function.update fs.dentries d (some x) }

/-- `d_add`: attach a new dentry. -/
def dAdd (fs : Fs) (parent : Nat) (name : Name) (inode : SfsInode) : Fs :=
  { fs with
    dentries := Function.update fs.dentries fs.next (some ⟨parent, name, inode, none, true⟩)
    next := fs.next + 1 }

theorem dentry_of_eq {fs : Fs} {d : Nat} {x : Dentry} (h : fs.dentries d = some x) :
    fs.dentry d = .ok x := by rw [dentry, h]

/-- Code that starts by looking at a dentry. -/
theorem of_bind_dentry {fs : Fs} {d : Nat} {β : Type} {f : Dentry → Except Fault β} {r : β}
    (h : (fs.dentry d >>= f) = .ok r) : ∃ x, fs.dentries d = some x ∧ f x = .ok r := by
  rw [dentry] at h
  cases hx : fs.dentries d with
  | none =>
    rw [hx] at h
    cases h
  | some x =>
    rw [hx] at h
    exact ⟨x, rfl, h⟩

theorem setDentry_dentries (fs : Fs) (d : Nat) (x : Dentry) (e : Nat) :
    (fs.setDentry d x).dentries e = if e = d then some x else fs.dentries e :=
  Function.update_apply _ _ _ _

@[simp] theorem setDentry_dev (fs : Fs) (d : Nat) (x : Dentry) : (fs.setDentry d x).dev = fs.dev :=
  rfl

theorem dAdd_dentries (fs : Fs) (p : Nat) (name : Name) (v : SfsInode) (e : Nat) :
    (fs.dAdd p name v).dentries e =
      if e = fs.next then some ⟨p, name, v, none, true⟩ else fs.dentries e :=
  Function.update_apply _ _ _ _

/-- The dentries that are left once `d` is released. -/
theorem of_update_none {fs : Fs} {d e : Nat} {y : Dentry}
    (h : Function.update fs.dentries d none e = some y) : e ≠ d ∧ fs.dentries e = some y := by
  rw [Function.update_apply] at h
  split at h
  · cases h
  · rename_i hne
    exact ⟨hne, h⟩

end Fs

end Simplefs
