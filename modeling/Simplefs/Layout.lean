/-
# The on-disk layout

`simple.h` puts three structures on the device, in blocks of
`SIMPLEFS_DEFAULT_BLOCK_SIZE` = 4096 bytes:

* block 0, `struct simplefs_super_block`: five 64-bit words at offsets 0, 8, 16, 24, 32;
* block 1, the inode store: 128 slots of `struct simplefs_inode`, 32 bytes each (a 32-bit mode,
  four bytes of padding, three 64-bit words);
* every directory's data block: 15 records of `struct simplefs_dir_record`, 264 bytes each (255
  bytes of name, one byte of padding, a 64-bit inode number), and 136 bytes nobody uses.

The device is one byte-addressed memory, and the buffer cache is taken to be coherent with it:
`sb_bread` returns a view of the same bytes every time.  This file defines the views and the
updates, and says which view each update can change.  After it no proof looks at a byte of the
superblock, of the inode store or of a record again.
-/
import Mathlib.Data.List.GetD
import Simplefs.Lib.ByteMem

namespace Simplefs

/-- The block device. -/
abbrev Device := ByteMem

/-- `SIMPLEFS_MAX_FILESYSTEM_OBJECTS_SUPPORTED`. -/
abbrev maxObjects : Nat := 64

/-- `SIMPLEFS_DEFAULT_BLOCK_SIZE / sizeof(struct simplefs_dir_record)`. -/
abbrev recordsPerBlock : Nat := 15

/-- `SIMPLEFS_DEFAULT_BLOCK_SIZE / sizeof(struct simplefs_inode)`. -/
abbrev slotsPerBlock : Nat := 128

/-- `SIMPLEFS_MAGIC`. -/
abbrev superMagic : BitVec 64 := 0x10032013

/-- `SIMPLEFS_ROOTDIR_INODE_NUMBER`. -/
abbrev rootInodeNumber : Nat := 1

/-- `SIMPLEFS_ROOTDIR_DATABLOCK_NUMBER`. -/
abbrev rootDataBlockNumber : Nat := 2

/-! ## 1. Inodes -/

/-- `struct simplefs_inode`.  `fileSize` is the union of `file_size` and
`dir_children_count`. -/
@[ext] structure SfsInode where
  mode : BitVec 32
  inodeNo : BitVec 64
  dataBlockNumber : BitVec 64
  fileSize : BitVec 64
  deriving DecidableEq

/-- The block of an inode, as an index. -/
def SfsInode.block (v : SfsInode) : Nat := v.dataBlockNumber.toNat

/-- The other reading of the union: the number of children of a directory. -/
abbrev SfsInode.dirChildrenCount (v : SfsInode) : BitVec 64 := v.fileSize

/-- `S_ISDIR`. -/
def isDir (mode : BitVec 32) : Bool := mode &&& 0xF000 == 0x4000

/-- `S_ISREG`. -/
def isReg (mode : BitVec 32) : Bool := mode &&& 0xF000 == 0x8000

/-- A file is no directory. -/
theorem not_isDir_of_isReg {mode : BitVec 32} (h : isReg mode = true) : isDir mode = false := by
  simp only [isReg, beq_iff_eq] at h
  rw [isDir, h]
  decide

/-- Read an inode at a byte address. -/
def inodeAt (m : ByteMem) (a : Nat) : SfsInode :=
  ⟨m.load32 a, m.load64 (a + 8), m.load64 (a + 16), m.load64 (a + 24)⟩

/-- Write an inode at a byte address; the padding is nobody's data. -/
def storeInode (m : ByteMem) (a : Nat) (v : SfsInode) : ByteMem :=
  (((m.store32 a v.mode).store64 (a + 8) v.inodeNo).store64 (a + 16)
    v.dataBlockNumber).store64 (a + 24) v.fileSize

theorem inodeAt_congr {m m' : ByteMem} {a : Nat}
    (h : ∀ x, a ≤ x → x < a + 32 → m' x = m x) : inodeAt m' a = inodeAt m a := by
  have h64 : ∀ o, o + 8 ≤ 32 → m'.load64 (a + o) = m.load64 (a + o) := fun o ho =>
    ByteMem.load64_congr fun i hi => h _ (by omega) (by omega)
  have h32 : m'.load32 a = m.load32 a :=
    ByteMem.load32_congr fun i hi => h _ (by omega) (by omega)
  simp only [inodeAt, h32, h64 8 (by omega), h64 16 (by omega), h64 24 (by omega)]

theorem inodeAt_storeInode (m : ByteMem) (a : Nat) (v : SfsInode) :
    inodeAt (storeInode m a v) a = v := by
  have h1 : (storeInode m a v).load32 a = v.mode := by
    simp only [storeInode, ByteMem.store64]
    rw [ByteMem.load32_patch _ _ (by omega), ByteMem.load32_patch _ _ (by omega),
      ByteMem.load32_patch _ _ (by omega), ByteMem.load32_store32]
  have h2 : (storeInode m a v).load64 (a + 8) = v.inodeNo := by
    simp only [storeInode, ByteMem.store64]
    rw [ByteMem.load64_patch _ _ (by omega), ByteMem.load64_patch _ _ (by omega)]
    exact ByteMem.load64_store64 _ _ _
  have h3 : (storeInode m a v).load64 (a + 16) = v.dataBlockNumber := by
    simp only [storeInode, ByteMem.store64]
    rw [ByteMem.load64_patch _ _ (by omega)]
    exact ByteMem.load64_store64 _ _ _
  have h4 : (storeInode m a v).load64 (a + 24) = v.fileSize := ByteMem.load64_store64 _ _ _
  simp only [inodeAt, h1, h2, h3, h4]

theorem storeInode_of_not_mem (m : ByteMem) {a x : Nat} (v : SfsInode)
    (h : x < a ∨ a + 32 ≤ x) : storeInode m a v x = m x := by
  simp only [storeInode, ByteMem.store64, ByteMem.store32]
  rw [ByteMem.patch_of_not_mem _ _ (by omega), ByteMem.patch_of_not_mem _ _ (by omega),
    ByteMem.patch_of_not_mem _ _ (by omega), ByteMem.patch_of_not_mem _ _ (by omega)]

/-- The inode of 32 zero bytes. -/
def SfsInode.zero : SfsInode := ⟨0, 0, 0, 0⟩

theorem inodeAt_of_zero {m : ByteMem} {a : Nat} (h : ∀ x, a ≤ x → x < a + 32 → m x = 0) :
    inodeAt m a = SfsInode.zero := by
  have h64 : ∀ o, o + 8 ≤ 32 → m.load64 (a + o) = 0 := fun o ho =>
    ByteMem.load64_of_zero fun i hi => h _ (by omega) (by omega)
  have h32 : m.load32 a = 0 := ByteMem.load32_of_zero fun i hi => h _ (by omega) (by omega)
  simp only [inodeAt, SfsInode.zero, h32, h64 8 (by omega), h64 16 (by omega), h64 24 (by omega)]

/-! ## 2. Directory records -/

/-- `struct simplefs_dir_record`: its 264 bytes.  A copy of the structure (`memcpy`) is a copy
of the bytes, the padding byte included. -/
@[ext] structure DirRecord where
  raw : ByteMem
  size : ∀ i, 264 ≤ i → raw i = 0

/-- `record->inode_no`. -/
def DirRecord.inodeNo (r : DirRecord) : BitVec 64 := r.raw.load64 256

/-- `record->filename`, read as the C string that `strcmp` sees.  A name without a NUL in the
264 bytes would run on into whatever follows the record; no such name equals a name of at most
263 bytes. -/
def DirRecord.filename (r : DirRecord) : List UInt8 := r.raw.cstr 0 264

/-- Read a record at a byte address. -/
def recordAt (m : ByteMem) (a : Nat) : DirRecord :=
  ⟨fun i => if i < 264 then m (a + i) else 0, fun i h => if_neg (by omega)⟩

theorem recordAt_congr {m m' : ByteMem} {a : Nat}
    (h : ∀ x, a ≤ x → x < a + 264 → m' x = m x) : recordAt m' a = recordAt m a := by
  refine DirRecord.ext (funext fun i => ?_)
  simp only [recordAt]
  split
  · rw [h _ (by omega) (by omega)]
  · rfl

theorem inodeNo_recordAt (m : ByteMem) (a : Nat) :
    (recordAt m a).inodeNo = m.load64 (a + 256) :=
  ByteMem.load64_congr fun i hi => by
    simp only [recordAt]
    rw [if_pos (by omega), Nat.add_assoc]

theorem filename_recordAt (m : ByteMem) (a : Nat) : (recordAt m a).filename = m.cstr a 264 :=
  ByteMem.cstr_congr fun i hi => by
    simp only [recordAt, Nat.zero_add]
    rw [if_pos hi]

/-- The record of 264 zero bytes. -/
def DirRecord.zero : DirRecord := ⟨fun _ => 0, fun _ _ => rfl⟩

@[simp] theorem DirRecord.inodeNo_zero : DirRecord.zero.inodeNo = 0#64 :=
  ByteMem.load64_of_zero fun _ _ => rfl

theorem recordAt_of_zero {m : ByteMem} {a : Nat} (h : ∀ x, a ≤ x → x < a + 264 → m x = 0) :
    recordAt m a = DirRecord.zero := by
  refine DirRecord.ext (funext fun i => ?_)
  simp only [recordAt, DirRecord.zero]
  split
  · exact h (a + i) (by omega) (by omega)
  · rfl

/-- The record of a name has the number it was given: the name stays out of `inode_no`, or it
is two bytes too long and happens to repeat the number. -/
def NameKeeps (name : List UInt8) (ino : BitVec 64) : Prop :=
  name.length ≤ 255 ∨ name.length = 257 ∧ (name.getD 256 0).toNat = ino.toNat

/-- No byte of a C string is zero before its NUL. -/
theorem getD_append_ne_zero {name : List UInt8} (h0 : 0 ∉ name) {i : Nat} (hi : i < name.length) :
    (name ++ [0]).getD i 0 ≠ 0 := by
  rw [List.getD_eq_getElem _ _ (by rw [List.length_append]; omega), List.getElem_append_left hi]
  intro hz
  exact h0 (hz ▸ List.getElem_mem hi)

/-! ## 3. The views of a device -/

namespace Device

variable (dev : Device)

/-- `sb->magic`. -/
def magic : BitVec 64 := dev.load64 8

/-- `sb->block_size`. -/
def blockSize : BitVec 64 := dev.load64 16

/-- `sb->inodes_count`. -/
def inodesCount : BitVec 64 := dev.load64 24

/-- `sb->free_blocks`. -/
def freeBlocks : BitVec 64 := dev.load64 32

/-- Slot `i` of the inode store, the place of inode `i + 1`. -/
def slot (i : Nat) : SfsInode := inodeAt dev (4096 + 32 * i)

/-- Record `j` of block `b`. -/
def record (b j : Nat) : DirRecord := recordAt dev (4096 * b + 264 * j)

/-- Byte `off` of block `b`. -/
def byte (b off : Nat) : UInt8 := dev (4096 * b + off)

/-- What `simplefs_fill_super` checks before it mounts. -/
def Formatted : Prop := dev.magic = superMagic ∧ dev.blockSize = 4096#64

/-- Every byte of block `b` is zero. -/
def ZeroBlock (b : Nat) : Prop := ∀ off, off < 4096 → dev.byte b off = 0

/-! ## 4. The updates -/

/-- Assign `sb->inodes_count`. -/
def setInodesCount (v : BitVec 64) : Device := dev.store64 24 v

/-- Assign `sb->free_blocks`. -/
def setFreeBlocks (v : BitVec 64) : Device := dev.store64 32 v

/-- `memcpy` an inode into slot `i`. -/
def setSlot (i : Nat) (v : SfsInode) : Device := storeInode dev (4096 + 32 * i) v

/-- `memset` slot `i` to zero. -/
def clearSlot (i : Nat) : Device := dev.fill (4096 + 32 * i) 32 0

/-- `record->inode_no = ino; strcpy(record->filename, name)`, at record `j` of block `b`. -/
def putRecord (b j : Nat) (ino : BitVec 64) (name : List UInt8) : Device :=
  (dev.store64 (4096 * b + 264 * j + 256) ino).store (4096 * b + 264 * j) (name ++ [0])

/-- `memset` record `j` of block `b` to zero. -/
def clearRecord (b j : Nat) : Device := dev.fill (4096 * b + 264 * j) 264 0

/-- Copy bytes into block `b` at offset `off`. -/
def putData (b off : Nat) (bs : List UInt8) : Device := dev.store (4096 * b + off) bs

end Device

/-! ## 5. What an update leaves alone

Each update touches one interval of bytes, and each view reads one. -/

/-- `dev'` differs from `dev` at most in the bytes `lo ≤ x < hi`. -/
def AgreeOff (lo hi : Nat) (dev dev' : Device) : Prop := ∀ x, x < lo ∨ hi ≤ x → dev' x = dev x

namespace Device

variable {dev dev' : Device} {lo hi : Nat}

theorem agreeOff_setInodesCount (dev : Device) (v : BitVec 64) :
    AgreeOff 24 32 dev (dev.setInodesCount v) := fun _ h =>
  ByteMem.patch_of_not_mem _ _ (by omega)

theorem agreeOff_setFreeBlocks (dev : Device) (v : BitVec 64) :
    AgreeOff 32 40 dev (dev.setFreeBlocks v) := fun _ h =>
  ByteMem.patch_of_not_mem _ _ (by omega)

theorem agreeOff_setSlot (dev : Device) (i : Nat) (v : SfsInode) :
    AgreeOff (4096 + 32 * i) (4096 + 32 * i + 32) dev (dev.setSlot i v) := fun _ h =>
  storeInode_of_not_mem _ _ h

theorem agreeOff_clearSlot (dev : Device) (i : Nat) :
    AgreeOff (4096 + 32 * i) (4096 + 32 * i + 32) dev (dev.clearSlot i) := fun _ h => by
  rw [clearSlot, ByteMem.fill, ByteMem.patch_of_not_mem _ _ h]

theorem agreeOff_clearRecord (dev : Device) (b j : Nat) :
    AgreeOff (4096 * b + 264 * j) (4096 * b + 264 * j + 264) dev (dev.clearRecord b j) :=
  fun _ h => by rw [clearRecord, ByteMem.fill, ByteMem.patch_of_not_mem _ _ h]

theorem agreeOff_putData (dev : Device) (b off : Nat) (bs : List UInt8) :
    AgreeOff (4096 * b + off) (4096 * b + off + bs.length) dev (dev.putData b off bs) :=
  fun _ h => by rw [putData, ByteMem.store, ByteMem.patch_of_not_mem _ _ h]

/-- The record and the name with its NUL, whichever is longer. -/
theorem agreeOff_putRecord_name (dev : Device) (b j : Nat) (ino : BitVec 64) (name : List UInt8) :
    AgreeOff (4096 * b + 264 * j) (4096 * b + 264 * j + max 264 (name.length + 1)) dev
      (dev.putRecord b j ino name) := by
  intro x h
  have hlen : (name ++ [0]).length = name.length + 1 := List.length_append
  simp only [putRecord, ByteMem.store, ByteMem.store64]
  rw [ByteMem.patch_of_not_mem _ _ (by omega), ByteMem.patch_of_not_mem _ _ (by omega)]

/-- A name of at most 263 bytes, with its NUL, stays inside the record. -/
theorem agreeOff_putRecord (dev : Device) (b j : Nat) (ino : BitVec 64) {name : List UInt8}
    (hn : name.length ≤ 263) :
    AgreeOff (4096 * b + 264 * j) (4096 * b + 264 * j + 264) dev (dev.putRecord b j ino name) :=
  fun x h => agreeOff_putRecord_name dev b j ino name x (by omega)

/-- A longer one may run over the records after it, but the record written and its name stay
inside the block. -/
theorem agreeOff_putRecord_block (dev : Device) (b : Nat) {j : Nat} (ino : BitVec 64)
    {name : List UInt8} (hj : j < 15) (hn : 264 * j + name.length + 1 ≤ 4096) :
    AgreeOff (4096 * b) (4096 * b + 4096) dev (dev.putRecord b j ino name) :=
  fun x h => agreeOff_putRecord_name dev b j ino name x (by omega)

theorem formatted_congr (h : AgreeOff lo hi dev dev') (hd : hi ≤ 8 ∨ 24 ≤ lo)
    (hf : dev.Formatted) : dev'.Formatted :=
  ⟨(ByteMem.load64_congr fun i hi => h _ (by omega)).trans hf.1,
    (ByteMem.load64_congr fun i hi => h _ (by omega)).trans hf.2⟩

theorem inodesCount_congr (h : AgreeOff lo hi dev dev') (hd : hi ≤ 24 ∨ 32 ≤ lo) :
    dev'.inodesCount = dev.inodesCount :=
  ByteMem.load64_congr fun i hi => h _ (by omega)

theorem freeBlocks_congr (h : AgreeOff lo hi dev dev') (hd : hi ≤ 32 ∨ 40 ≤ lo) :
    dev'.freeBlocks = dev.freeBlocks :=
  ByteMem.load64_congr fun i hi => h _ (by omega)

theorem slot_congr (h : AgreeOff lo hi dev dev') {i : Nat}
    (hd : hi ≤ 4096 + 32 * i ∨ 4096 + 32 * i + 32 ≤ lo) : dev'.slot i = dev.slot i :=
  inodeAt_congr fun _ _ _ => h _ (by omega)

theorem record_congr (h : AgreeOff lo hi dev dev') {b j : Nat}
    (hd : hi ≤ 4096 * b + 264 * j ∨ 4096 * b + 264 * j + 264 ≤ lo) :
    dev'.record b j = dev.record b j :=
  recordAt_congr fun _ _ _ => h _ (by omega)

theorem byte_congr (h : AgreeOff lo hi dev dev') {b off : Nat}
    (hd : hi ≤ 4096 * b + off ∨ 4096 * b + off < lo) : dev'.byte b off = dev.byte b off :=
  h _ (by omega)

theorem zeroBlock_congr (h : AgreeOff lo hi dev dev') {b : Nat}
    (hd : hi ≤ 4096 * b ∨ 4096 * b + 4096 ≤ lo) (hz : dev.ZeroBlock b) : dev'.ZeroBlock b :=
  fun off ho => by rw [byte_congr h (by omega), hz off ho]

/-- A record of a zero block is the zero record. -/
theorem record_of_zeroBlock {b j : Nat} (hz : dev.ZeroBlock b) (hj : j < 15) :
    dev.record b j = DirRecord.zero := by
  refine recordAt_of_zero fun x h1 h2 => ?_
  have := hz (x - 4096 * b) (by omega)
  rwa [byte, Nat.add_sub_cancel' (by omega)] at this

/-! ### The superblock words -/

@[simp] theorem inodesCount_setInodesCount (dev : Device) (v : BitVec 64) :
    (dev.setInodesCount v).inodesCount = v := ByteMem.load64_store64 _ _ _

@[simp] theorem freeBlocks_setFreeBlocks (dev : Device) (v : BitVec 64) :
    (dev.setFreeBlocks v).freeBlocks = v := ByteMem.load64_store64 _ _ _

@[simp] theorem freeBlocks_setInodesCount (dev : Device) (v : BitVec 64) :
    (dev.setInodesCount v).freeBlocks = dev.freeBlocks :=
  freeBlocks_congr (agreeOff_setInodesCount dev v) (by omega)

@[simp] theorem inodesCount_setFreeBlocks (dev : Device) (v : BitVec 64) :
    (dev.setFreeBlocks v).inodesCount = dev.inodesCount :=
  inodesCount_congr (agreeOff_setFreeBlocks dev v) (by omega)

@[simp] theorem slot_setInodesCount (dev : Device) (v : BitVec 64) (i : Nat) :
    (dev.setInodesCount v).slot i = dev.slot i :=
  slot_congr (agreeOff_setInodesCount dev v) (by omega)

@[simp] theorem slot_setFreeBlocks (dev : Device) (v : BitVec 64) (i : Nat) :
    (dev.setFreeBlocks v).slot i = dev.slot i :=
  slot_congr (agreeOff_setFreeBlocks dev v) (by omega)

theorem record_setInodesCount (dev : Device) (v : BitVec 64) {b : Nat} (j : Nat) (hb : 1 ≤ b) :
    (dev.setInodesCount v).record b j = dev.record b j :=
  record_congr (agreeOff_setInodesCount dev v) (by omega)

theorem record_setFreeBlocks (dev : Device) (v : BitVec 64) {b : Nat} (j : Nat) (hb : 1 ≤ b) :
    (dev.setFreeBlocks v).record b j = dev.record b j :=
  record_congr (agreeOff_setFreeBlocks dev v) (by omega)

/-! ### The inode store -/

theorem slot_setSlot (dev : Device) (i j : Nat) (v : SfsInode) :
    (dev.setSlot i v).slot j = if j = i then v else dev.slot j := by
  split
  · subst_vars; exact inodeAt_storeInode _ _ _
  · exact slot_congr (agreeOff_setSlot dev i v) (by omega)

theorem slot_clearSlot (dev : Device) (i j : Nat) :
    (dev.clearSlot i).slot j = if j = i then SfsInode.zero else dev.slot j := by
  split
  · subst_vars
    refine inodeAt_of_zero fun x h h' => ?_
    rw [clearSlot, ByteMem.fill, ByteMem.patch_of_mem _ _ h h']
  · exact slot_congr (agreeOff_clearSlot dev i) (by omega)

@[simp] theorem freeBlocks_setSlot (dev : Device) (i : Nat) (v : SfsInode) :
    (dev.setSlot i v).freeBlocks = dev.freeBlocks :=
  freeBlocks_congr (agreeOff_setSlot dev i v) (by omega)

@[simp] theorem freeBlocks_clearSlot (dev : Device) (i : Nat) :
    (dev.clearSlot i).freeBlocks = dev.freeBlocks :=
  freeBlocks_congr (agreeOff_clearSlot dev i) (by omega)

@[simp] theorem inodesCount_setSlot (dev : Device) (i : Nat) (v : SfsInode) :
    (dev.setSlot i v).inodesCount = dev.inodesCount :=
  inodesCount_congr (agreeOff_setSlot dev i v) (by omega)

@[simp] theorem inodesCount_clearSlot (dev : Device) (i : Nat) :
    (dev.clearSlot i).inodesCount = dev.inodesCount :=
  inodesCount_congr (agreeOff_clearSlot dev i) (by omega)

theorem record_setSlot (dev : Device) {i b : Nat} (v : SfsInode) (j : Nat) (hi : i < 128)
    (hb : 2 ≤ b) : (dev.setSlot i v).record b j = dev.record b j :=
  record_congr (agreeOff_setSlot dev i v) (by omega)

theorem record_clearSlot (dev : Device) {i b : Nat} (j : Nat) (hi : i < 128) (hb : 2 ≤ b) :
    (dev.clearSlot i).record b j = dev.record b j :=
  record_congr (agreeOff_clearSlot dev i) (by omega)

/-! ### Directory records -/

/-- Two different records do not overlap. -/
theorem record_disjoint {b j b' j' : Nat} (hj : j < 15) (hj' : j' < 15)
    (hne : ¬ (b' = b ∧ j' = j)) :
    4096 * b + 264 * j + 264 ≤ 4096 * b' + 264 * j' ∨
      4096 * b' + 264 * j' + 264 ≤ 4096 * b + 264 * j := by
  rcases Nat.lt_trichotomy b b' with h | rfl | h
  · omega
  · rcases Nat.lt_trichotomy j j' with h | rfl | h <;> omega
  · omega

theorem record_clearRecord (dev : Device) {b j b' j' : Nat} (hj : j < 15) (hj' : j' < 15) :
    (dev.clearRecord b j).record b' j' =
      if b' = b ∧ j' = j then DirRecord.zero else dev.record b' j' := by
  split
  · rename_i h
    obtain ⟨rfl, rfl⟩ := h
    refine recordAt_of_zero fun x h h' => ?_
    rw [clearRecord, ByteMem.fill, ByteMem.patch_of_mem _ _ h h']
  · rename_i h
    exact record_congr (agreeOff_clearRecord dev b j) (record_disjoint hj hj' h)

theorem record_putRecord_ne (dev : Device) {b j b' j' : Nat} (ino : BitVec 64)
    {name : List UInt8} (hn : name.length ≤ 263) (hj : j < 15) (hj' : j' < 15)
    (hne : ¬ (b' = b ∧ j' = j)) :
    (dev.putRecord b j ino name).record b' j' = dev.record b' j' :=
  record_congr (agreeOff_putRecord dev b j ino hn) (record_disjoint hj hj' hne)

/-- A name of at most 255 bytes, with its NUL, stays inside the record's name and padding. -/
theorem inodeNo_putRecord (dev : Device) (b j : Nat) (ino : BitVec 64) {name : List UInt8}
    (hn : name.length ≤ 255) : ((dev.putRecord b j ino name).record b j).inodeNo = ino := by
  rw [record, inodeNo_recordAt, putRecord, ByteMem.store, ByteMem.load64_patch]
  · exact ByteMem.load64_store64 _ _ _
  · simp only [List.length_append, List.length_singleton]; omega

theorem filename_putRecord (dev : Device) (b j : Nat) (ino : BitVec 64) {name : List UInt8}
    (hn : name.length ≤ 263) (h0 : 0 ∉ name) :
    ((dev.putRecord b j ino name).record b j).filename = name := by
  rw [record, filename_recordAt]
  refine ByteMem.cstr_of_store (by omega) h0 ?_ ?_
  · intro i hi
    rw [putRecord, ByteMem.store, ByteMem.patch_add _ _ (by simp; omega)]
    simp [List.getD, List.getElem?_append_left hi]
  · rw [putRecord, ByteMem.store, ByteMem.patch_add _ _ (by simp)]
    simp [List.getD]

/-- The bytes that `strcpy` writes. -/
theorem putRecord_of_le (dev : Device) (b j : Nat) (ino : BitVec 64) {name : List UInt8} {i : Nat}
    (hi : i ≤ name.length) :
    dev.putRecord b j ino name (4096 * b + 264 * j + i) = (name ++ [0]).getD i 0 := by
  rw [putRecord, ByteMem.store, ByteMem.patch_add]
  rw [List.length_append, List.length_singleton]
  omega

/-- The two low bytes of `inode_no` after a name that reaches them. -/
theorem toNat_inodeNo_putRecord (dev : Device) (b j : Nat) (ino : BitVec 64) {name : List UInt8}
    (hn : 256 ≤ name.length) :
    ∃ r, ((dev.putRecord b j ino name).record b j).inodeNo.toNat =
      ((name ++ [0]).getD 256 0).toNat + 256 *
        ((dev.putRecord b j ino name (4096 * b + 264 * j + 257)).toNat + 256 * r) := by
  rw [record, inodeNo_recordAt, ByteMem.toNat_load64, putRecord_of_le _ _ _ _ hn]
  exact ⟨_, rfl⟩

/-- A name of 257 bytes or more does not leave `inode_no` zero. -/
theorem inodeNo_putRecord_ne_zero (dev : Device) (b j : Nat) (ino : BitVec 64)
    {name : List UInt8} (h0 : 0 ∉ name) (hn : 257 ≤ name.length) :
    ((dev.putRecord b j ino name).record b j).inodeNo ≠ 0#64 := by
  intro hz
  obtain ⟨r, hr⟩ := toNat_inodeNo_putRecord dev b j ino (show 256 ≤ name.length by omega)
  rw [hz, BitVec.toNat_ofNat] at hr
  have hbyte : ((name ++ [0]).getD 256 0).toNat = 0 := by omega
  exact getD_append_ne_zero h0 (show 256 < name.length by omega) (UInt8.toNat_inj.mp hbyte)

/-- **When a record keeps the number it was given.** -/
theorem inodeNo_putRecord_iff (dev : Device) (b j : Nat) {ino : BitVec 64} {name : List UInt8}
    (h0 : 0 ∉ name) (hino : 0 < ino.toNat) (hlt : ino.toNat < 256) :
    ((dev.putRecord b j ino name).record b j).inodeNo = ino ↔ NameKeeps name ino := by
  constructor
  · intro h
    rcases Nat.lt_or_ge name.length 256 with hshort | hlong
    · exact Or.inl (by omega)
    obtain ⟨r, hr⟩ := toNat_inodeNo_putRecord dev b j ino hlong
    rw [h] at hr
    -- the NUL is at 257: at 256 it would make the number zero, beyond 257 it would be too big
    have h256 : name.length ≠ 256 := by
      intro heq
      have hnul : (name ++ [0]).getD 256 0 = 0 := by
        rw [← heq, List.getD_append_right _ _ _ _ (Nat.le_refl _), Nat.sub_self]
        rfl
      rw [hnul] at hr
      simp only [UInt8.toNat_zero] at hr
      omega
    have h257 : name.length ≤ 257 := by
      by_contra hgt
      rw [putRecord_of_le _ _ _ _ (show 257 ≤ name.length by omega)] at hr
      have hbyte : ((name ++ [0]).getD 257 0).toNat = 0 := by omega
      exact getD_append_ne_zero h0 (show 257 < name.length by omega) (UInt8.toNat_inj.mp hbyte)
    refine Or.inr ⟨by omega, ?_⟩
    rw [List.getD_append _ _ _ _ (by omega)] at hr
    omega
  · rintro (hshort | ⟨hlen, hbyte⟩)
    · exact inodeNo_putRecord dev b j ino hshort
    · rw [record, inodeNo_recordAt]
      refine ByteMem.load64_of_leByte fun i hi => ?_
      rcases Nat.lt_or_ge i 2 with h2 | h2
      · rw [Nat.add_assoc, putRecord_of_le _ _ _ _ (by omega)]
        rcases Nat.lt_or_ge i 1 with h1 | h1
        · rw [show i = 0 by omega, List.getD_append _ _ _ _ (by omega)]
          refine UInt8.toNat_inj.mp ?_
          rw [hbyte]
          simp only [ByteMem.leByte, Nat.pow_zero, Nat.div_one, UInt8.toNat_ofNat']
          omega
        · rw [show i = 1 by omega, List.getD_append_right _ _ _ _ (by omega), hlen]
          simp only [ByteMem.leByte, Nat.pow_one, Nat.div_eq_of_lt hlt]
          rfl
      · rw [putRecord, ByteMem.store, ByteMem.patch_of_not_mem, ByteMem.store64,
          ByteMem.patch_add _ _ hi]
        rw [List.length_append, List.length_singleton]
        omega

end Device

/-! ## 6. Blocks -/

section Blocks

variable {dev dev' : Device} {b : Nat}

/-- What a block holds. -/
abbrev Block := Fin 4096 → UInt8

namespace Device

/-- The blocks of a device. -/
def blocks (dev : Device) (b : Nat) : Block := fun off => dev.byte b off

/-- The device that is made of blocks. -/
def ofBlocks (disk : Nat → Block) : Device := fun a =>
  disk (a / 4096) ⟨a % 4096, Nat.mod_lt _ (by decide)⟩

theorem byte_ofBlocks (disk : Nat → Block) (b : Nat) {off : Nat} (h : off < 4096) :
    (ofBlocks disk).byte b off = disk b ⟨off, h⟩ := by
  have h1 : (4096 * b + off) / 4096 = b := by omega
  have h2 : (4096 * b + off) % 4096 = off := by omega
  simp only [byte, ofBlocks, h1, h2]

@[simp] theorem ofBlocks_blocks (dev : Device) : ofBlocks dev.blocks = dev := by
  funext a
  change dev (4096 * (a / 4096) + a % 4096) = dev a
  rw [Nat.div_add_mod]

theorem blocks_ofBlocks (disk : Nat → Block) : (ofBlocks disk).blocks = disk := by
  funext b off
  exact byte_ofBlocks disk b off.isLt

/-- A block, byte by byte. -/
theorem ofBlocks_of_eq {disk disk' : Nat → Block} (h : disk b = disk' b) {a : Nat}
    (ha : a / 4096 = b) : ofBlocks disk a = ofBlocks disk' a := by
  subst ha
  change disk (a / 4096) _ = disk' (a / 4096) _
  rw [h]

theorem bytes_of_blocks (h : dev'.blocks b = dev.blocks b) (a : Nat) (ha : a / 4096 = b) :
    dev' a = dev a := by
  rw [← ofBlocks_blocks dev', ← ofBlocks_blocks dev]
  exact ofBlocks_of_eq h ha

theorem byte_of_blocks (h : dev'.blocks b = dev.blocks b) {off : Nat} (hoff : off < 4096) :
    dev'.byte b off = dev.byte b off :=
  congrFun h ⟨off, hoff⟩

theorem blocks_of_byte (h : ∀ off, off < 4096 → dev'.byte b off = dev.byte b off) :
    dev'.blocks b = dev.blocks b :=
  funext fun off => h off off.isLt

/-- A write elsewhere. -/
theorem blocks_congr {lo hi : Nat} (h : AgreeOff lo hi dev dev')
    (hd : 4096 * b + 4096 ≤ lo ∨ hi ≤ 4096 * b) : dev'.blocks b = dev.blocks b :=
  blocks_of_byte fun off hoff => h (4096 * b + off) (by omega)

/-- The inode store is block 1. -/
theorem slot_of_bytes (h : ∀ a, a / 4096 = 1 → dev' a = dev a) {i : Nat}
    (hi : i < slotsPerBlock) : dev'.slot i = dev.slot i := by
  have hi' : i < 128 := hi
  exact inodeAt_congr fun a _ _ => h a (by omega)

theorem inodesCount_of_bytes (h : ∀ a, a / 4096 = 0 → dev' a = dev a) :
    dev'.inodesCount = dev.inodesCount :=
  ByteMem.load64_congr fun _ _ => h _ (by omega)

theorem record_of_bytes (h : ∀ a, a / 4096 = b → dev' a = dev a) {j : Nat}
    (hj : j < recordsPerBlock) : dev'.record b j = dev.record b j := by
  have hj' : j < 15 := hj
  exact recordAt_congr fun a _ _ => h a (by omega)

end Device

/-- The map and what a mount checks are as they were. -/
structure SameSuper (dev dev' : Device) : Prop where
  free : dev'.freeBlocks = dev.freeBlocks
  formatted : dev.Formatted → dev'.Formatted

theorem SameSuper.refl (dev : Device) : SameSuper dev dev := ⟨rfl, id⟩

/-- A write elsewhere. -/
theorem SameSuper.of_agreeOff {lo hi : Nat} (h : AgreeOff lo hi dev dev') (hlo : 40 ≤ lo) :
    SameSuper dev dev' :=
  ⟨Device.freeBlocks_congr h (by omega), Device.formatted_congr h (by omega)⟩

/-- The superblock is block 0. -/
theorem SameSuper.of_bytes (h : ∀ a, a / 4096 = 0 → dev' a = dev a) : SameSuper dev dev' :=
  ⟨ByteMem.load64_congr fun _ _ => h _ (by omega), fun hf =>
    ⟨Eq.trans (ByteMem.load64_congr fun _ _ => h _ (by omega)) hf.1,
      Eq.trans (ByteMem.load64_congr fun _ _ => h _ (by omega)) hf.2⟩⟩

end Blocks

end Simplefs
