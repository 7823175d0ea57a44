/-
# Formatting

`mkfs-simplefs.c`: a sequence of `write` and `lseek` calls on the device.  A `write` that meets
the end of the device is short, and each function checks for that.  The bytes written are the
images of the C structures; their padding is taken to be zero, and nothing reads it.

On a device of zeros the result is the smallest state that satisfies the invariants: the root,
and one welcome file in it.
-/
import Simplefs.Tree

namespace Simplefs

/-! ## 1. The program -/

/-- An open block device: its contents, its length, and the file offset. -/
structure File where
  dev : Device
  size : Nat
  off : Nat

/-- `write(fd, img, len)`: the number of bytes written. -/
def File.write (f : File) (img : ByteMem) (len : Nat) : Nat × File :=
  (min len (f.size - f.off),
    { f with
      dev := f.dev.patch f.off (min len (f.size - f.off)) img
      off := f.off + min len (f.size - f.off) })

/-- `lseek(fd, n, SEEK_CUR)`. -/
def File.seek (f : File) (n : Nat) : File := { f with off := f.off + n }

/-- `WELCOMEFILE_DATABLOCK_NUMBER`. -/
abbrev welcomefileDatablockNumber : Nat := 3

/-- `WELCOMEFILE_INODE_NUMBER`. -/
abbrev welcomefileInodeNumber : Nat := 2

/-- A buffer of zeros. -/
def zeroMem : ByteMem := fun _ => 0

/-- `(~0) & ~(1 << WELCOMEFILE_DATABLOCK_NUMBER)`, an `int`, as a `uint64_t`. -/
def initialFreeBlocks : BitVec 64 :=
  (~~~0#32 &&& ~~~(1#32 <<< welcomefileDatablockNumber)).signExtend 64

/-- The `struct simplefs_super_block` of `write_superblock`. -/
def superImage : ByteMem :=
  ((((zeroMem.store64 0 1).store64 8 superMagic).store64 16 4096).store64 24 2).store64 32
    initialFreeBlocks

/-- `root_inode` of `write_inode_store`. -/
def rootInode : SfsInode :=
  ⟨0x4000, BitVec.ofNat 64 rootInodeNumber, BitVec.ofNat 64 rootDataBlockNumber, 1⟩

/-- `welcomefile_body`, its NUL included. -/
def welcomefileBody : List UInt8 :=
  "Love is God. God is Love. Anbe Murugan.\n".toUTF8.toList ++ [0]

/-- `welcome` of `main`. -/
def welcomeInode : SfsInode :=
  ⟨0x8000, BitVec.ofNat 64 welcomefileInodeNumber, BitVec.ofNat 64 welcomefileDatablockNumber,
    BitVec.ofNat 64 welcomefileBody.length⟩

/-- `"vanakkam"`. -/
def vanakkam : List UInt8 := [118, 97, 110, 97, 107, 107, 97, 109]

/-- `record` of `main`. -/
def recordImage : ByteMem :=
  (zeroMem.store64 256 (BitVec.ofNat 64 welcomefileInodeNumber)).store 0 (vanakkam ++ [0])

/-- What the five functions have in common: a `write` that must not come out short, then an
`lseek` over the padding. -/
def writeAndSkip (f : File) (img : ByteMem) (len skip : Nat) : Int × File :=
  let r := f.write img len
  if r.1 ≠ len then (-1, r.2) else (0, r.2.seek skip)

/-- `write_superblock`. -/
def writeSuperblock (f : File) : Int × File := writeAndSkip f superImage 4096 0

/-- `write_inode_store`. -/
def writeInodeStore (f : File) : Int × File :=
  writeAndSkip f (storeInode zeroMem 0 rootInode) 32 0

/-- `write_inode`. -/
def writeInode (f : File) (i : SfsInode) : Int × File :=
  writeAndSkip f (storeInode zeroMem 0 i) 32 (4096 - 32 - 32)

/-- `write_dirent`. -/
def writeDirent (f : File) (record : ByteMem) : Int × File :=
  writeAndSkip f record 264 (4096 - 264)

/-- `write_block`. -/
def writeBlock (f : File) (block : List UInt8) (len : Nat) : Int × File :=
  writeAndSkip f (zeroMem.store 0 block) len 0

/-- `main`, the device opened: what it returns, and the device afterwards. -/
def mkfs (dev : Device) (size : Nat) : Int × Device :=
  let r := writeSuperblock ⟨dev, size, 0⟩
  if r.1 ≠ 0 then (1, r.2.dev) else
  let r := writeInodeStore r.2
  if r.1 ≠ 0 then (1, r.2.dev) else
  let r := writeInode r.2 welcomeInode
  if r.1 ≠ 0 then (1, r.2.dev) else
  let r := writeDirent r.2 recordImage
  if r.1 ≠ 0 then (1, r.2.dev) else
  let r := writeBlock r.2 welcomefileBody welcomefileBody.length
  if r.1 ≠ 0 then (1, r.2.dev) else (0, r.2.dev)

/-! ## 2. What it writes -/

theorem writeAndSkip_ok {f : File} {img : ByteMem} {len skip : Nat}
    (h : (writeAndSkip f img len skip).1 = 0) : (writeAndSkip f img len skip).2 =
      ⟨f.dev.patch f.off len img, f.size, f.off + len + skip⟩ := by
  unfold writeAndSkip at h ⊢
  simp only at h ⊢
  split at h
  · cases h
  · rename_i hlen
    rw [if_neg hlen]
    unfold File.write at hlen ⊢
    simp only [not_not] at hlen
    simp only [hlen, File.seek]

theorem writeAndSkip_room {f : File} {img : ByteMem} {len skip : Nat} (h : f.off + len ≤ f.size) :
    (writeAndSkip f img len skip).1 = 0 := by
  unfold writeAndSkip File.write
  simp only
  rw [if_neg]
  omega

theorem writeAndSkip_full {f : File} {img : ByteMem} {len skip : Nat} (h : f.off + len ≤ f.size) :
    writeAndSkip f img len skip = (0, ⟨f.dev.patch f.off len img, f.size, f.off + len + skip⟩) :=
  Prod.ext (writeAndSkip_room h) (writeAndSkip_ok (writeAndSkip_room h))

/-- The device after all five writes. -/
def formatDevice (dev : Device) : Device :=
  ((((dev.patch 0 4096 superImage).patch 4096 32 (storeInode zeroMem 0 rootInode)).patch 4128 32
    (storeInode zeroMem 0 welcomeInode)).patch 8192 264 recordImage).patch 12288
    welcomefileBody.length (zeroMem.store 0 welcomefileBody)

theorem length_welcomefileBody : welcomefileBody.length = 41 := by decide +kernel

/-- `main`, as long as every write comes out full. -/
theorem mkfs_cases (dev : Device) (size : Nat) :
    (mkfs dev size).1 = 1 ∨ mkfs dev size = (0, formatDevice dev) := by
  obtain ⟨f, hf⟩ : ∃ f, f = (⟨dev, size, 0⟩ : File) := ⟨_, rfl⟩
  obtain ⟨r1, hr1⟩ : ∃ r, r = writeSuperblock f := ⟨_, rfl⟩
  obtain ⟨r2, hr2⟩ : ∃ r, r = writeInodeStore r1.2 := ⟨_, rfl⟩
  obtain ⟨r3, hr3⟩ : ∃ r, r = writeInode r2.2 welcomeInode := ⟨_, rfl⟩
  obtain ⟨r4, hr4⟩ : ∃ r, r = writeDirent r3.2 recordImage := ⟨_, rfl⟩
  obtain ⟨r5, hr5⟩ : ∃ r, r = writeBlock r4.2 welcomefileBody welcomefileBody.length := ⟨_, rfl⟩
  unfold mkfs
  simp only [← hf, ← hr1, ← hr2, ← hr3, ← hr4, ← hr5]
  split
  · exact Or.inl rfl
  split
  · exact Or.inl rfl
  split
  · exact Or.inl rfl
  split
  · exact Or.inl rfl
  split
  · exact Or.inl rfl
  rename_i h1 h2 h3 h4 h5
  rw [not_not] at h1 h2 h3 h4 h5
  have e1 : r1.2 = ⟨dev.patch 0 4096 superImage, size, 4096⟩ := by
    rw [hr1, writeSuperblock] at h1 ⊢
    rw [writeAndSkip_ok h1, hf]
  have e2 : r2.2 = ⟨r1.2.dev.patch 4096 32 (storeInode zeroMem 0 rootInode), size, 4128⟩ := by
    rw [hr2, writeInodeStore] at h2 ⊢
    rw [writeAndSkip_ok h2, e1]
  have e3 : r3.2 = ⟨r2.2.dev.patch 4128 32 (storeInode zeroMem 0 welcomeInode), size, 8192⟩ := by
    rw [hr3, writeInode] at h3 ⊢
    rw [writeAndSkip_ok h3, e2]
  have e4 : r4.2 = ⟨r3.2.dev.patch 8192 264 recordImage, size, 12288⟩ := by
    rw [hr4, writeDirent] at h4 ⊢
    rw [writeAndSkip_ok h4, e3]
  have e5 : r5.2.dev = r4.2.dev.patch 12288 welcomefileBody.length
      (zeroMem.store 0 welcomefileBody) := by
    rw [hr5, writeBlock] at h5 ⊢
    rw [writeAndSkip_ok h5, e4]
  refine Or.inr ?_
  rw [e5, e4, e3, e2, e1, formatDevice]

/-- **What `mkfs` leaves behind**, whenever it returns 0. -/
theorem mkfs_ok {dev dev' : Device} {size : Nat} (h : mkfs dev size = (0, dev')) :
    dev' = formatDevice dev := by
  rcases mkfs_cases dev size with h1 | h1
  · rw [h] at h1
    cases h1
  · rw [h] at h1
    exact congrArg Prod.snd h1

/-- On a device with room for the welcome file's text it does return 0. -/
theorem mkfs_room {dev : Device} {size : Nat} (h : 12329 ≤ size) :
    mkfs dev size = (0, formatDevice dev) := by
  obtain ⟨body, hbody⟩ : ∃ body, body = welcomefileBody := ⟨_, rfl⟩
  have hlen : body.length = 41 := by rw [hbody, length_welcomefileBody]
  unfold mkfs formatDevice
  simp only [← hbody, hlen]
  rw [show writeSuperblock ⟨dev, size, 0⟩ = _ from
    writeAndSkip_full (show 0 + 4096 ≤ size by omega)]
  simp only [ne_eq, not_true_eq_false, if_false]
  rw [show writeInodeStore ⟨dev.patch 0 4096 superImage, size, 0 + 4096 + 0⟩ = _ from
    writeAndSkip_full (show 0 + 4096 + 0 + 32 ≤ size by omega)]
  simp only [not_true_eq_false, if_false]
  rw [writeInode, writeAndSkip_full (by simp only; omega)]
  simp only [not_true_eq_false, if_false]
  rw [writeDirent, writeAndSkip_full (by simp only; omega)]
  simp only [not_true_eq_false, if_false]
  rw [writeBlock, writeAndSkip_full (by simp only; omega)]
  simp only [not_true_eq_false, if_false]

/-! ## 3. What it leaves behind

The superblock, two slots of the inode store, one record of the root's block and the text of the
welcome file are written; the rest of the inode store and of the root's block is passed over. -/

/-- An inode image that was written at `a`. -/
theorem inodeAt_patch (m : ByteMem) (a : Nat) (v : SfsInode) :
    inodeAt (m.patch a 32 (storeInode zeroMem 0 v)) a = v := by
  have h64 : ∀ o, o + 8 ≤ 32 → (m.patch a 32 (storeInode zeroMem 0 v)).load64 (a + o) =
      (storeInode zeroMem 0 v).load64 (0 + o) := fun o ho =>
    ByteMem.load64_congr fun i hi => by
      rw [Nat.add_assoc, ByteMem.patch_add _ _ (by omega), Nat.zero_add]
  have h32 : (m.patch a 32 (storeInode zeroMem 0 v)).load32 a =
      (storeInode zeroMem 0 v).load32 0 :=
    ByteMem.load32_congr fun i hi => by rw [ByteMem.patch_add _ _ (by omega), Nat.zero_add]
  have hshift : inodeAt (m.patch a 32 (storeInode zeroMem 0 v)) a =
      inodeAt (storeInode zeroMem 0 v) 0 := by
    simp only [inodeAt, h32, h64 8 (by omega), h64 16 (by omega), h64 24 (by omega)]
  exact hshift.trans (inodeAt_storeInode zeroMem 0 v)

namespace formatDevice

variable (dev : Device)

/-- Bytes that no write touched are what they were. -/
theorem eq_old {x : Nat} (h0 : 4096 ≤ x) (h1 : x < 4096 ∨ 4160 ≤ x)
    (h2 : x < 8192 ∨ 8456 ≤ x) (h3 : x < 12288 ∨ 12329 ≤ x) : formatDevice dev x = dev x := by
  unfold formatDevice
  rw [length_welcomefileBody, ByteMem.patch_of_not_mem _ _ (by omega),
    ByteMem.patch_of_not_mem _ _ (by omega), ByteMem.patch_of_not_mem _ _ (by omega),
    ByteMem.patch_of_not_mem _ _ (by omega), ByteMem.patch_of_not_mem _ _ (by omega)]

/-- The superblock. -/
theorem load64_super {a : Nat} (ha : a + 8 ≤ 4096) :
    ByteMem.load64 (formatDevice dev) a = superImage.load64 a := by
  refine ByteMem.load64_congr fun i hi => ?_
  unfold formatDevice
  rw [ByteMem.patch_of_not_mem _ _ (by omega), ByteMem.patch_of_not_mem _ _ (by omega),
    ByteMem.patch_of_not_mem _ _ (by omega), ByteMem.patch_of_not_mem _ _ (by omega),
    ByteMem.patch_of_mem _ _ (by omega) (by omega), Nat.sub_zero]

theorem formatted : (formatDevice dev).Formatted := by
  constructor
  · rw [Device.magic, load64_super dev (by omega), superImage]
    simp only [ByteMem.store64]
    rw [ByteMem.load64_patch _ _ (by omega), ByteMem.load64_patch _ _ (by omega),
      ByteMem.load64_patch _ _ (by omega)]
    exact ByteMem.load64_store64 _ _ _
  · rw [Device.blockSize, load64_super dev (by omega), superImage]
    simp only [ByteMem.store64]
    rw [ByteMem.load64_patch _ _ (by omega), ByteMem.load64_patch _ _ (by omega)]
    exact ByteMem.load64_store64 _ _ _

theorem inodesCount : (formatDevice dev).inodesCount = 2#64 := by
  rw [Device.inodesCount, load64_super dev (by omega), superImage]
  simp only [ByteMem.store64]
  rw [ByteMem.load64_patch _ _ (by omega)]
  exact ByteMem.load64_store64 _ _ _

theorem freeBlocks : (formatDevice dev).freeBlocks = initialFreeBlocks := by
  rw [Device.freeBlocks, load64_super dev (by omega), superImage]
  exact ByteMem.load64_store64 _ _ _

theorem slot_zero : (formatDevice dev).slot 0 = rootInode := by
  rw [Device.slot, ← inodeAt_patch (dev.patch 0 4096 superImage) 4096 rootInode]
  refine inodeAt_congr fun x h h' => ?_
  unfold formatDevice
  rw [ByteMem.patch_of_not_mem _ _ (by omega), ByteMem.patch_of_not_mem _ _ (by omega),
    ByteMem.patch_of_not_mem _ _ (by omega)]

theorem slot_one : (formatDevice dev).slot 1 = welcomeInode := by
  rw [Device.slot, ← inodeAt_patch ((dev.patch 0 4096 superImage).patch 4096 32
    (storeInode zeroMem 0 rootInode)) 4128 welcomeInode]
  refine inodeAt_congr fun x h h' => ?_
  unfold formatDevice
  rw [ByteMem.patch_of_not_mem _ _ (by omega), ByteMem.patch_of_not_mem _ _ (by omega)]

theorem slot_rest {i : Nat} (h2 : 2 ≤ i) (h : i < 128) :
    (formatDevice dev).slot i = dev.slot i :=
  inodeAt_congr fun x hx hx' => eq_old dev (by omega) (by omega) (by omega) (by omega)

/-- Record 0 of the root's block. -/
theorem record_zero : ((formatDevice dev).record 2 0).inodeNo = 2#64 ∧
    ((formatDevice dev).record 2 0).filename = vanakkam := by
  have hb : ∀ i, i < 264 → formatDevice dev (8192 + i) = recordImage (0 + i) := by
    intro i hi
    unfold formatDevice
    rw [ByteMem.patch_of_not_mem _ _ (by omega), ByteMem.patch_add _ _ hi, Nat.zero_add]
  constructor
  · rw [Device.record, inodeNo_recordAt, ← show recordImage.load64 256 = 2#64 from ?_]
    · refine ByteMem.load64_congr fun i hi => ?_
      have := hb (256 + i) (by omega)
      rw [Nat.zero_add] at this
      rw [← this, ← Nat.add_assoc]
    · rw [recordImage, ByteMem.store, ByteMem.load64_patch _ _ (by decide)]
      exact ByteMem.load64_store64 _ _ _
  · rw [Device.record, filename_recordAt, ByteMem.cstr_congr hb]
    refine ByteMem.cstr_of_store (by decide) (by decide) ?_ ?_
    · intro i hi
      have hi' : i < (vanakkam ++ [0]).length := by
        rw [List.length_append]
        exact Nat.lt_add_right _ hi
      rw [recordImage, ByteMem.store, ByteMem.patch_add _ _ hi', List.getD_eq_getElem?_getD,
        List.getD_eq_getElem?_getD, List.getElem?_append_left hi]
    · rw [recordImage, ByteMem.store, ByteMem.patch_add _ _ (by decide)]
      decide

theorem record_rest {j : Nat} (h : 1 ≤ j) (hj : j < 15) :
    (formatDevice dev).record 2 j = dev.record 2 j :=
  recordAt_congr fun x hx hx' => eq_old dev (by omega) (by omega) (by omega) (by omega)

/-- The welcome file's bytes. -/
theorem byte_three {i : Nat} (hi : i < 41) :
    (formatDevice dev).byte 3 i = welcomefileBody.getD i 0 := by
  have hi' : i < welcomefileBody.length := by rwa [length_welcomefileBody]
  rw [Device.byte, formatDevice, ByteMem.patch_add _ _ hi']
  have := ByteMem.patch_add zeroMem (fun j => welcomefileBody.getD j 0) hi' (a := 0)
  rwa [Nat.zero_add] at this

end formatDevice

/-- What `mkfs` makes of a device of zeros. -/
def freshDevice : Device := formatDevice zeroMem

namespace freshDevice

theorem formatted : freshDevice.Formatted := formatDevice.formatted zeroMem

theorem inodesCount : freshDevice.inodesCount = 2#64 := formatDevice.inodesCount zeroMem

theorem freeBlocks : freshDevice.freeBlocks = initialFreeBlocks := formatDevice.freeBlocks zeroMem

theorem slot_zero : freshDevice.slot 0 = rootInode := formatDevice.slot_zero zeroMem

theorem slot_one : freshDevice.slot 1 = welcomeInode := formatDevice.slot_one zeroMem

theorem slot_rest {i : Nat} (h2 : 2 ≤ i) (h : i < 128) : freshDevice.slot i = SfsInode.zero :=
  (formatDevice.slot_rest zeroMem h2 h).trans (inodeAt_of_zero fun _ _ _ => rfl)

theorem record_zero : (freshDevice.record 2 0).inodeNo = 2#64 ∧
    (freshDevice.record 2 0).filename = vanakkam := formatDevice.record_zero zeroMem

theorem record_rest {j : Nat} (h : 1 ≤ j) (hj : j < 15) :
    freshDevice.record 2 j = DirRecord.zero :=
  (formatDevice.record_rest zeroMem h hj).trans (recordAt_of_zero fun _ _ _ => rfl)

/-- Blocks 4 and up are zero. -/
theorem byte_three {i : Nat} (hi : i < 41) : freshDevice.byte 3 i = welcomefileBody.getD i 0 :=
  formatDevice.byte_three zeroMem hi

theorem zeroBlock {b : Nat} (hb : 4 ≤ b) : freshDevice.ZeroBlock b := fun off _ =>
  formatDevice.eq_old zeroMem (by omega) (by omega) (by omega) (by omega)

theorem live_iff {i : Nat} : freshDevice.Live i ↔ i < 2 := by
  constructor
  · rintro ⟨hlt, hno⟩
    by_contra h2
    rw [slot_rest (by omega) hlt] at hno
    exact hno rfl
  · intro h
    refine ⟨show i < 128 by omega, ?_⟩
    obtain rfl | rfl : i = 0 ∨ i = 1 := by omega
    · rw [slot_zero]; decide
    · rw [slot_one, welcomeInode]; decide

/-! ## 4. On a device of zeros, the image satisfies the invariants -/

/-- The free-block word: bit 3 is clear and every other bit is set. -/
theorem getLsbD_initialFreeBlocks {j : Nat} (hj : j < 64) :
    initialFreeBlocks.getLsbD j = !decide (j = 3) := by
  have hall : ∀ j, j < 64 → initialFreeBlocks.getLsbD j = !decide (j = 3) := by decide
  exact hall j hj

theorem block_zero : (freshDevice.slot 0).block = 2 := by rw [slot_zero]; rfl

theorem block_one : (freshDevice.slot 1).block = 3 := by rw [slot_one]; rfl

theorem lt_two_cases {i : Nat} (h : i < 2) : i = 0 ∨ i = 1 := by omega

/-- **The image satisfies the store invariant**, with numbers 1 and 2 in use. -/
theorem store : StoreInv freshDevice 7#64 fun _ => False where
  formatted := formatted
  slots i hi := by
    rcases lt_two_cases (live_iff.mp hi) with rfl | rfl
    · rw [slot_zero]; exact ⟨rfl, by omega⟩
    · rw [slot_one]; exact ⟨rfl, by omega⟩
  imap_zero := rfl
  imap_iff i hi := by
    have hall : ∀ i, i < 63 → (7#64).getLsbD (i + 1) = decide (i < 2) := by decide
    rw [hall i hi, decide_eq_true_eq, live_iff]
  count := by
    have hset : freshDevice.liveSlots = {0, 1} := by
      ext i
      rw [Device.mem_liveSlots, live_iff, Finset.mem_insert, Finset.mem_singleton]
      omega
    rw [hset, inodesCount]
    rfl
  block i hi := by
    rcases lt_two_cases (live_iff.mp hi) with rfl | rfl
    · rw [block_zero]; omega
    · rw [block_one]; omega
  block_inj i j hi hj heq := by
    rcases lt_two_cases (live_iff.mp hi) with rfl | rfl <;>
      rcases lt_two_cases (live_iff.mp hj) with rfl | rfl
    · rfl
    · rw [block_zero, block_one] at heq; cases heq
    · rw [block_zero, block_one] at heq; cases heq
    · rfl
  high j hj hj' := by
    rw [freeBlocks, getLsbD_initialFreeBlocks hj', getLsbD_initialFreeBlocks (by omega)]
    exact congrArg _ (decide_eq_decide.mpr (by omega))
  avail b hb hb' ha := by
    have hne : b ≠ 3 := by
      rintro rfl
      rw [Avail, freeBlocks, getLsbD_initialFreeBlocks (by omega)] at ha
      exact absurd ha (by decide)
    refine ⟨id, fun i hi => ?_, zeroBlock (by omega)⟩
    rcases lt_two_cases (live_iff.mp hi) with rfl | rfl
    · rw [block_zero]; omega
    · rw [block_one]; omega
  pend b hb := hb.elim

/-- Only the root is a directory. -/
theorem dir_iff {i : Nat} : freshDevice.graph.dir i ↔ i = 0 := by
  constructor
  · rintro ⟨hl, hd⟩
    rcases lt_two_cases (live_iff.mp hl) with rfl | rfl
    · rfl
    · rw [slot_one] at hd
      exact absurd hd (by decide)
  · rintro rfl
    refine ⟨live_iff.mpr (by omega), ?_⟩
    rw [slot_zero]
    rfl

/-- Its one entry. -/
theorem entry_eq (j : Nat) :
    freshDevice.entry 0 j = if j = 0 then some (vanakkam, 1) else none := by
  split
  · rename_i hj
    rw [hj, Device.entry_eq_some (by omega) (by rw [block_zero]) (by rw [record_zero.1]; decide),
      record_zero.1, record_zero.2]
    rfl
  · rename_i hj
    by_cases h15 : j < 15
    · exact Device.entry_eq_none (by
        rw [block_zero, record_rest (by omega) h15, DirRecord.inodeNo_zero])
    · exact if_neg fun h => h15 h.1

theorem names_iff {i j k : Nat} : freshDevice.graph.Names i j k ↔ i = 0 ∧ j = 0 ∧ k = 1 := by
  constructor
  · rintro ⟨hd, l, he⟩
    obtain rfl := dir_iff.mp hd
    have he' : freshDevice.entry 0 j = some (l, k) := he
    rw [entry_eq] at he'
    split at he'
    · rename_i hj
      cases he'
      exact ⟨rfl, hj, rfl⟩
    · cases he'
  · rintro ⟨rfl, rfl, rfl⟩
    exact ⟨dir_iff.mpr rfl, vanakkam, entry_eq 0⟩

/-- **The image is a tree of names.** -/
theorem tree : TreeInv freshDevice fun _ => False where
  wf := by
    constructor
    case root_dir => exact dir_iff.mpr rfl
    case dir_live =>
      intro d hd
      exact hd.1
    case target =>
      intro d j k hn
      obtain ⟨-, -, rfl⟩ := names_iff.mp hn
      exact ⟨live_iff.mpr (by omega), by omega, id⟩
    case inj =>
      intro d j d' j' k hn hn'
      obtain ⟨rfl, rfl, -⟩ := names_iff.mp hn
      obtain ⟨rfl, rfl, -⟩ := names_iff.mp hn'
      exact ⟨rfl, rfl⟩
    case label =>
      intro d j j' l k k' hd he he'
      obtain ⟨-, rfl, -⟩ := names_iff.mp ⟨hd, l, he⟩
      obtain ⟨-, rfl, -⟩ := names_iff.mp ⟨hd, l, he'⟩
      rfl
    case named =>
      intro k hk hk0 _
      have hk2 := live_iff.mp hk
      exact ⟨0, 0, names_iff.mpr ⟨rfl, rfl, by omega⟩⟩
    case orphan_live =>
      intro k hk
      exact hk.elim
  kind i hi := by
    rcases lt_two_cases (live_iff.mp hi) with rfl | rfl
    · rw [slot_zero]; exact Or.inl rfl
    · rw [slot_one]; exact Or.inr rfl

end freshDevice

end Simplefs
