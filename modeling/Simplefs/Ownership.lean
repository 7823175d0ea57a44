/-
# No block has two owners, whatever fails

`simplefs_create_fs_object` gets its block first, and the superblock is synced before the inode
goes into the store: that is what the comment on its ordering relies on.  Here this is proved for
every run of `PowerStep`: any calls that the VFS may make, any of them interrupted anywhere, dirty
buffers written back at any time, and the power failing between any two pieces of code.

The invariant gives each data block one inode number for good.  A block gets its number when it is
taken from the map, before any inode has it; every inode that is in the store or in a dentry, in
memory or on the device, is of the number its block was given, and neither map has the block.

Number 1 stays with the root directory, and every number that is in the store has its bit: so what
a power failure leaves can always be mounted (`PowerRun.mounts`).
-/
import Simplefs.Power

namespace Simplefs

open Prog (LockState Passes)

/-! ## 1. The invariant -/

/-- Neither a file nor a directory. -/
def SfsInode.Kindless (v : SfsInode) : Prop := isDir v.mode = false ∧ isReg v.mode = false

/-- The inode has the number that its block was given, and its block, unless it is the root's, is
one of those that are taken.  Number 1 is the root's. -/
structure SfsInode.Owns (own : Nat → BitVec 64) (taken : Nat → Prop) (v : SfsInode) : Prop where
  number : v.inodeNo ≠ 0#64
  owner : own v.block = v.inodeNo
  range : 2 ≤ v.block ∧ v.block ≤ 34
  taken : v.block ≠ 2 → taken v.block
  root : v.inodeNo = 1#64 → isDir v.mode = true ∧ v.block = 2

/-- A slot is empty, or the inode in it has the slot's number, which the bitmap has a bit for. -/
def SlotOwns (own : Nat → BitVec 64) (taken : Nat → Prop) (i : Nat) (v : SfsInode) : Prop :=
  v.inodeNo = 0#64 ∧ v.Kindless ∨ (v.inodeNo = inoOf i ∧ i < 63) ∧ v.Owns own taken

/-- **What is on a device between mounts.** -/
structure DiskOwned (own : Nat → BitVec 64) (dev : Device) : Prop where
  formatted : dev.Formatted
  root : (dev.slot 0).inodeNo = 1#64
  high : HighTogether dev.freeBlocks
  slot : ∀ i, i < slotsPerBlock →
    SlotOwns own (fun b => ¬ Avail dev.freeBlocks b) i (dev.slot i)

/-- Neither the map in memory nor the one on the device has the block. -/
def Buf.Taken (c : Buf) (b : Nat) : Prop :=
  ¬ Avail c.mem.dev.freeBlocks b ∧ ¬ Avail c.device.freeBlocks b

/-- **The invariant**, with the number that each block was given. -/
structure Buf.Owned (own : Nat → BitVec 64) (c : Buf) : Prop where
  formatted : c.mem.dev.Formatted
  formattedDisk : c.device.Formatted
  root : (c.mem.dev.slot 0).inodeNo = 1#64
  rootDisk : (c.device.slot 0).inodeNo = 1#64
  high : HighTogether c.mem.dev.freeBlocks
  highDisk : HighTogether c.device.freeBlocks
  slot : ∀ i, i < slotsPerBlock → SlotOwns own c.Taken i (c.mem.dev.slot i)
  slotDisk : ∀ i, i < slotsPerBlock → SlotOwns own c.Taken i (c.device.slot i)
  dentry : ∀ d x, c.mem.dentries d = some x → x.inode.Kindless ∨ x.inode.Owns own c.Taken
  /-- Only directories have a cache. -/
  cached : ∀ d x cache, c.mem.dentries d = some x → x.fsdata = some cache →
    isDir x.inode.mode = true
  /-- Numbers 0 and 1 are never handed out. -/
  bits : c.mem.imap.getLsbD 0 = true ∧ c.mem.imap.getLsbD 1 = true

section Lemmas

variable {own own' : Nat → BitVec 64} {taken taken' : Nat → Prop} {v v' : SfsInode} {i b : Nat}

theorem SfsInode.Owns.mono (h : v.Owns own taken)
    (ht : ∀ b, 2 < b → b ≤ 34 → taken b → taken' b)
    (ho : v.block ≠ 2 → own' v.block = own v.block) (ho' : own' 2 = own 2) :
    v.Owns own' taken' := by
  refine ⟨h.number, ?_, h.range, fun hb => ?_, h.root⟩
  · by_cases hb : v.block = 2
    · rw [hb, ho', ← h.owner, hb]
    · rw [ho hb, h.owner]
  · have := h.range
    exact ht _ (by omega) (by omega) (h.taken hb)

theorem SfsInode.Owns.taken_mono (h : v.Owns own taken)
    (ht : ∀ b, 2 < b → b ≤ 34 → taken b → taken' b) : v.Owns own taken' :=
  h.mono ht (fun _ => rfl) rfl

theorem SlotOwns.taken_mono (h : SlotOwns own taken i v)
    (ht : ∀ b, 2 < b → b ≤ 34 → taken b → taken' b) : SlotOwns own taken' i v :=
  h.imp_right fun h => ⟨h.1, h.2.taken_mono ht⟩

theorem SlotOwns.inode (h : SlotOwns own taken i v) : v.Kindless ∨ v.Owns own taken :=
  h.imp And.right And.right

theorem slotOwns_zero : SlotOwns own taken i SfsInode.zero := Or.inl ⟨rfl, rfl, rfl⟩

/-- The size of an inode is nothing that its block depends on. -/
theorem owns_resize (h : v.Kindless ∨ v.Owns own taken) (size : BitVec 64) :
    SfsInode.Kindless { v with fileSize := size } ∨
      SfsInode.Owns own taken { v with fileSize := size } :=
  h.imp (fun h => ⟨h.1, h.2⟩) fun h => ⟨h.number, h.owner, h.range, h.taken, h.root⟩

theorem owns_of_kind (h : v.Kindless ∨ v.Owns own taken)
    (hk : isDir v.mode = true ∨ isReg v.mode = true) : v.Owns own taken := by
  refine h.resolve_left fun hno => ?_
  rw [hno.1, hno.2] at hk
  rcases hk with hk | hk <;> cases hk

end Lemmas

/-! ## 2. Write-backs -/

namespace Buf.Owned

variable {own : Nat → BitVec 64} {c : Buf} {v : SfsInode}

theorem of_eq (h : c.Owned own) {c' : Buf} (hm : c'.mem = c.mem) (hd : c'.disk = c.disk) :
    c'.Owned own := by
  have hdev : c'.device = c.device := congrArg Device.ofBlocks hd
  have htaken : c'.Taken = c.Taken := by
    funext b
    rw [Buf.Taken, Buf.Taken, hm, hdev]
  constructor
  case formatted => rw [hm]; exact h.formatted
  case formattedDisk => rw [hdev]; exact h.formattedDisk
  case root => rw [hm]; exact h.root
  case rootDisk => rw [hdev]; exact h.rootDisk
  case high => rw [hm]; exact h.high
  case highDisk => rw [hdev]; exact h.highDisk
  case slot => rw [hm, htaken]; exact h.slot
  case slotDisk => rw [hdev, htaken]; exact h.slotDisk
  case dentry => rw [hm, htaken]; exact h.dentry
  case cached => rw [hm]; exact h.cached
  case bits => rw [hm]; exact h.bits

/-- Blocks that are written back free no block ... -/
theorem taken_mixed {disk : Nat → Block} (hm : c.Mixed disk) {n : Nat} (ht : c.Taken n) :
    Buf.Taken { c with disk := disk } n := by
  refine ⟨ht.1, ?_⟩
  change ¬ Avail (Device.ofBlocks disk).freeBlocks n
  rcases hm.super with hs | hs
  · rw [hs.free]
    exact ht.1
  · rw [hs.free]
    exact ht.2

/-- ... and give none away, whichever blocks they are. -/
theorem mixed (h : c.Owned own) {disk : Nat → Block} (hm : c.Mixed disk) :
    Buf.Owned own { c with disk := disk } := by
  have htaken : ∀ n, 2 < n → n ≤ 34 → c.Taken n → Buf.Taken { c with disk := disk } n :=
    fun n _ _ => taken_mixed hm
  have hsuper : (Device.ofBlocks disk).Formatted ∧
      HighTogether (Device.ofBlocks disk).freeBlocks := by
    rcases hm.super with hs | hs
    · rw [hs.free]
      exact ⟨hs.formatted h.formatted, h.high⟩
    · rw [hs.free]
      exact ⟨hs.formatted h.formattedDisk, h.highDisk⟩
  constructor
  case formatted => exact h.formatted
  case formattedDisk => exact hsuper.1
  case root => exact h.root
  case rootDisk =>
    change ((Device.ofBlocks disk).slot 0).inodeNo = 1#64
    rcases hm.slots with hs | hs
    · rw [hs 0 (by decide)]
      exact h.root
    · rw [hs 0 (by decide)]
      exact h.rootDisk
  case high => exact h.high
  case highDisk => exact hsuper.2
  case slot => exact fun i hi => (h.slot i hi).taken_mono htaken
  case slotDisk =>
    intro i hi
    change SlotOwns own _ i ((Device.ofBlocks disk).slot i)
    rcases hm.slots with hs | hs
    · rw [hs i hi]
      exact (h.slot i hi).taken_mono htaken
    · rw [hs i hi]
      exact (h.slotDisk i hi).taken_mono htaken
  case dentry => exact fun d x hx => (h.dentry d x hx).imp_right fun h => h.taken_mono htaken
  case cached => exact h.cached
  case bits => exact h.bits

theorem taken_writeBack (b : Nat) {n : Nat} (ht : c.Taken n) : (c.writeBack b).Taken n :=
  taken_mixed (c.mixed_writeBack b) ht

theorem writeBack (h : c.Owned own) (b : Nat) : (c.writeBack b).Owned own :=
  (h.mixed (c.mixed_writeBack b)).of_eq rfl rfl

/-! ## 3. The pieces that store something -/

variable {own' : Nat → BitVec 64} {s : Fs} {d p : Nat} {name : Name}

/-- A store that leaves the map alone. -/
theorem store (h : c.Owned own) (s : Fs) (hsuper : SameSuper c.mem.dev s.dev)
    (hroot : (s.dev.slot 0).inodeNo = 1#64)
    (hslot : ∀ i, i < slotsPerBlock → SlotOwns own c.Taken i (s.dev.slot i))
    (hdentry : ∀ d x, s.dentries d = some x → x.inode.Kindless ∨ x.inode.Owns own c.Taken)
    (hcached : ∀ d x cache, s.dentries d = some x → x.fsdata = some cache →
      isDir x.inode.mode = true)
    (hbits : s.imap.getLsbD 0 = true ∧ s.imap.getLsbD 1 = true) :
    (c.store s).Owned own ∧ (c.store s).Taken = c.Taken := by
  have htaken : (c.store s).Taken = c.Taken := by
    funext b
    change (¬ Avail s.dev.freeBlocks b ∧ ¬ Avail c.device.freeBlocks b) = _
    rw [hsuper.free]
    rfl
  refine ⟨?_, htaken⟩
  constructor
  case formatted => exact hsuper.formatted h.formatted
  case formattedDisk => exact h.formattedDisk
  case root => exact hroot
  case rootDisk => exact h.rootDisk
  case high =>
    change HighTogether s.dev.freeBlocks
    rw [hsuper.free]
    exact h.high
  case highDisk => exact h.highDisk
  case slot => rw [htaken]; exact hslot
  case slotDisk => rw [htaken]; exact h.slotDisk
  case dentry => rw [htaken]; exact hdentry
  case cached => exact hcached
  case bits => exact hbits

/-- A store that changes one dentry. -/
theorem setDentry (h : c.Owned own) (fs : Fs) (d : Nat) (x' : Dentry)
    (hsuper : SameSuper c.mem.dev fs.dev)
    (hslot : ∀ i, i < slotsPerBlock → fs.dev.slot i = c.mem.dev.slot i)
    (hd : fs.dentries = c.mem.dentries) (himap : fs.imap = c.mem.imap)
    (hv : x'.inode.Kindless ∨ x'.inode.Owns own c.Taken)
    (hc : ∀ cache, x'.fsdata = some cache → isDir x'.inode.mode = true) :
    (c.store (fs.setDentry d x')).Owned own ∧
      (c.store (fs.setDentry d x')).Taken = c.Taken := by
  refine h.store (fs.setDentry d x') hsuper ?_ (fun i hi => ?_) ?_ ?_ ?_
  · change (fs.dev.slot 0).inodeNo = 1#64
    rw [hslot 0 (by decide)]
    exact h.root
  · change SlotOwns own c.Taken i (fs.dev.slot i)
    rw [hslot i hi]
    exact h.slot i hi
  · intro e y hy
    rw [Fs.setDentry_dentries, hd] at hy
    split at hy
    · cases hy
      exact hv
    · exact h.dentry e y hy
  · intro e y cache hy
    rw [Fs.setDentry_dentries, hd] at hy
    split at hy
    · cases hy
      exact hc cache
    · exact h.cached e y cache hy
  · change fs.imap.getLsbD 0 = true ∧ fs.imap.getLsbD 1 = true
    rw [himap]
    exact h.bits

/-- The data block of a directory or a file is no block of the superblock or the store. -/
theorem two_le (h : c.Owned own) {x : Dentry} (hx : c.mem.dentries d = some x)
    (hk : isDir x.inode.mode = true ∨ isReg x.inode.mode = true) : 2 ≤ x.inode.block :=
  (owns_of_kind (h.dentry d x hx) hk).range.1

/-- A write inside a data block. -/
theorem slot_block {dev dev' : Device} {b i : Nat} (hb : 2 ≤ b)
    (hagree : AgreeOff (4096 * b) (4096 * b + 4096) dev dev') (hi : i < slotsPerBlock) :
    dev'.slot i = dev.slot i ∧ SameSuper dev dev' := by
  have hi' : i < 128 := hi
  exact ⟨Device.slot_congr hagree (by omega), .of_agreeOff hagree (by omega)⟩

theorem iterate (h : c.Owned own) {x : Dentry} (hx : c.mem.DirAt d x) {pos : Nat}
    {r : Nat × List DirRecord} (hr : Simplefs.iterate d pos c.mem = .ok (r, s)) :
    (c.store s).Owned own := by
  rw [iterate_eq hx.1 pos] at hr
  cases hr
  exact (h.setDentry c.mem d { x with fsdata := some (dirCacheOf c.mem x) } (.refl _)
    (fun _ _ => rfl) rfl rfl (h.dentry d x hx.1) fun _ _ => hx.2.2).1

theorem addRecord (h : c.Owned own) {ino : BitVec 64}
    (hr : Simplefs.addRecord p name ino c.mem = .ok ((), s)) :
    (c.store s).Owned own ∧ (c.store s).Taken = c.Taken ∧
      s.IsDirAt p := by
  obtain ⟨x, cache, e, hx, hc, -, hlt, rfl⟩ := addRecord_ok hr
  have hd := h.cached p x cache hx hc
  have hb := Device.agreeOff_putRecord_block c.mem.dev x.inode.block ino hlt.1 hlt.2
  have h2 := h.two_le hx (Or.inl hd)
  obtain ⟨h1, ht⟩ := h.setDentry
    { c.mem with dev := c.mem.dev.putRecord x.inode.block e.entryNo ino name.bytes } p
    { x with fsdata := some ⟨cache.dirChildrenCount, cacheEntryInsert cache.used
      ⟨(c.mem.dev.putRecord x.inode.block e.entryNo ino name.bytes).record x.inode.block e.entryNo,
        e.entryNo⟩, listDel e cache.free⟩ }
    (slot_block h2 hb (i := 0) (by decide)).2
    (fun i hi => (slot_block h2 hb hi).1) rfl rfl (h.dentry p x hx) fun _ _ => hd
  exact ⟨h1, ht, _, (Fs.setDentry_dentries _ _ _ _).trans (if_pos rfl), hd⟩

theorem countChild (h : c.Owned own) (hp : c.mem.IsDirAt p)
    (hr : Simplefs.countChild p c.mem = .ok ((), s)) :
    (c.store s).Owned own ∧ (c.store s).Taken = c.Taken ∧
      s.IsDirAt p := by
  obtain ⟨x, hx, hd⟩ := hp
  rw [countChild_eq hx] at hr
  cases hr
  obtain ⟨h1, ht⟩ := h.setDentry c.mem p
    { x with inode := { x.inode with fileSize := x.inode.fileSize + 1 } } (.refl _)
    (fun _ _ => rfl) rfl rfl (owns_resize (h.dentry p x hx) _) fun _ _ => hd
  exact ⟨h1, ht, _, (Fs.setDentry_dentries _ _ _ _).trans (if_pos rfl), hd⟩

theorem removeRecord (h : c.Owned own) {e : Nat} {r : Nat × BitVec 64}
    (hr : Simplefs.removeRecord e c.mem = .ok (r, s)) :
    (c.store s).Owned own ∧ s.IsDirAt r.1 ∧
      ∃ y, c.mem.dentries e = some y ∧ r.2 = y.inode.inodeNo := by
  obtain ⟨y, x, cache, entry, ⟨hy, hx, hc, -, hlt⟩, rfl, rfl⟩ := removeRecord_ok hr
  have hlt' : entry.entryNo < 15 := hlt
  have hd := h.cached _ x cache hx hc
  have hagree : AgreeOff (4096 * x.inode.block) (4096 * x.inode.block + 4096) c.mem.dev
      (c.mem.dev.clearRecord x.inode.block entry.entryNo) := fun a ha =>
    Device.agreeOff_clearRecord c.mem.dev x.inode.block entry.entryNo a (by omega)
  have h2 := h.two_le hx (Or.inl hd)
  obtain ⟨h1, -⟩ := h.setDentry
    { c.mem with dev := c.mem.dev.clearRecord x.inode.block entry.entryNo } y.parent
    (x.without cache entry) (slot_block h2 hagree (i := 0) (by decide)).2
    (fun i hi => (slot_block h2 hagree hi).1) rfl rfl (owns_resize (h.dentry _ x hx) _)
    fun _ _ => hd
  exact ⟨h1, ⟨_, (Fs.setDentry_dentries _ _ _ _).trans (if_pos rfl), hd⟩, y, hy, rfl⟩

/-- The inode of a file or directory goes to the slot that has its number. -/
theorem saveInode (h : c.Owned own) {x : Dentry} (hx : c.mem.dentries d = some x)
    (hk : isDir x.inode.mode = true ∨ isReg x.inode.mode = true) {r : Bool}
    (hr : Simplefs.saveInode d c.mem = .ok (r, s)) :
    (c.store s).Owned own ∧ (c.store s).Taken = c.Taken ∧
      s.dentries = c.mem.dentries := by
  have hv := owns_of_kind (h.dentry d x hx) hk
  obtain ⟨x', hx', ⟨-, rfl⟩ | ⟨-, i, hi, hno, rfl⟩⟩ := saveInode_ok hr
  · exact ⟨h, rfl, rfl⟩
  cases hx.symm.trans hx'
  have hslot : ∀ k, k < slotsPerBlock →
      SlotOwns own c.Taken k ((c.mem.dev.setSlot i x.inode).slot k) := by
    intro k hk
    rw [Device.slot_setSlot]
    split
    · rename_i hki
      rcases h.slot i hi with ⟨h0, -⟩ | ⟨hslot, -⟩
      · exact absurd (hno.symm.trans h0) hv.number
      · exact Or.inr ⟨⟨by rw [hki, ← hno, hslot.1], hki ▸ hslot.2⟩, hv⟩
    · exact h.slot k hk
  have hroot : ((c.mem.dev.setSlot i x.inode).slot 0).inodeNo = 1#64 := by
    rw [Device.slot_setSlot]
    split
    · rename_i h0
      rw [← hno, ← h0]
      exact h.root
    · exact h.root
  obtain ⟨h1, ht⟩ := h.store { c.mem with dev := c.mem.dev.setSlot i x.inode }
    (.of_agreeOff (Device.agreeOff_setSlot _ _ _) (by omega)) hroot hslot h.dentry h.cached h.bits
  exact ⟨h1, ht, rfl⟩

theorem addInode (h : c.Owned own) (hv : v.Owns own c.Taken)
    (hr : Simplefs.addInode v c.mem = .ok ((), s)) :
    (c.store s).Owned own ∧ (c.store s).Taken = c.Taken := by
  obtain ⟨i, hi, hno, rfl⟩ := addInode_ok hr
  refine h.store _ ⟨Device.freeBlocks_addAt _ _ _, Device.formatted_addAt _ _⟩ ?_
    (fun k hk => ?_) h.dentry h.cached ?_
  · rw [Device.slot_addAt]
    split
    · rename_i h0
      rw [hno, ← h0]
      rfl
    · exact h.root
  · rw [Device.slot_addAt]
    split
    · rename_i hki
      exact Or.inr ⟨⟨hki ▸ hno, hki ▸ hi⟩, hv⟩
    · exact h.slot k hk
  · rw [getLsbD_setBit _ _ (by omega), getLsbD_setBit _ _ (by omega), h.bits.1, h.bits.2]
    exact ⟨rfl, rfl⟩

theorem delInode (h : c.Owned own) {ino : BitVec 64} (h1 : ino ≠ 1#64)
    (hr : Simplefs.delInode ino c.mem = .ok ((), s)) : (c.store s).Owned own := by
  obtain ⟨i, hi, hino, rfl⟩ := delInode_ok hr
  have hi0 : i ≠ 0 := by
    rintro rfl
    exact h1 hino
  refine (h.store { c.mem with
    dev := c.mem.dev.delAt i
    imap := clearBit c.mem.imap (i + 1) } ⟨Device.freeBlocks_delAt _ _, Device.formatted_delAt _⟩
    ?_ (fun k hk => ?_) h.dentry h.cached ?_).1
  · rw [Device.slot_delAt, if_neg hi0.symm]
    exact h.root
  · rw [Device.slot_delAt]
    split
    · exact slotOwns_zero
    · exact h.slot k hk
  · rw [getLsbD_clearBit _ _ (by omega), getLsbD_clearBit _ _ (by omega), h.bits.1, h.bits.2,
      decide_eq_false (by omega), decide_eq_false (by omega)]
    exact ⟨rfl, rfl⟩

/-- A dentry is made for an inode. -/
theorem dAdd (h : c.Owned own) (hv : v.Kindless ∨ v.Owns own c.Taken) :
    (c.store (c.mem.dAdd p name v)).Owned own := by
  refine (h.store (c.mem.dAdd p name v) (.refl _) h.root h.slot (fun e y hy => ?_)
    (fun e y cache hy hc => ?_) h.bits).1
  · rw [Fs.dAdd_dentries] at hy
    split at hy
    · cases hy
      exact hv
    · exact h.dentry e y hy
  · rw [Fs.dAdd_dentries] at hy
    split at hy
    · cases hy
      cases hc
    · exact h.cached e y cache hy hc

theorem release (h : c.Owned own)
    (hr : dentryRelease d c.mem = .ok ((), s)) : (c.store s).Owned own := by
  cases hr
  have hold : ∀ e y, Function.update c.mem.dentries d none e = some y →
      c.mem.dentries e = some y := fun _ _ hy => (Fs.of_update_none hy).2
  exact (h.store { c.mem with dentries := Function.update c.mem.dentries d none } (.refl _)
    h.root h.slot (fun e y hy => h.dentry e y (hold e y hy))
    (fun e y cache hy => h.cached e y cache (hold e y hy)) h.bits).1

/-- The data goes to a file's block. -/
theorem copyFromUser (h : c.Owned own) {x : Dentry} (hx : c.mem.dentries d = some x)
    (hreg : isReg x.inode.mode = true) {ppos copied : Nat} {data : List UInt8} {ok : Bool}
    (hr : Simplefs.copyFromUser d ppos data copied c.mem = .ok (ok, s)) :
    (c.store s).Owned own ∧ s.dentries d = some x := by
  rw [copyFromUser_eq hx] at hr
  split at hr
  swap
  · cases hr
  rename_i hfit
  cases hr
  have h2 := h.two_le hx (Or.inr hreg)
  have hagree : AgreeOff (4096 * x.inode.block) (4096 * x.inode.block + 4096) c.mem.dev
      (c.mem.copiedIn x ppos data copied).dev := by
    intro a ha
    have hlen := length_copiedBytes data copied
    have hfit' : data.length = 0 ∨ ppos + data.length ≤ 4096 := hfit
    rcases hfit' with h0 | hle
    · -- nothing is copied
      refine Device.agreeOff_putData _ _ _ _ a ?_
      rcases Nat.lt_or_ge a (4096 * x.inode.block + ppos) with hlt | hge
      · exact Or.inl hlt
      · exact Or.inr (by rw [hlen, h0]; omega)
    · exact Device.agreeOff_putData _ _ _ _ a (by rw [hlen]; omega)
  obtain ⟨h0, hsuper⟩ := slot_block h2 hagree (i := 0) (by decide)
  refine ⟨(h.store _ hsuper (h0 ▸ h.root) (fun i hi => ?_) h.dentry h.cached h.bits).1, hx⟩
  rw [(slot_block h2 hagree hi).1]
  exact h.slot i hi

end Buf.Owned

/-! ## 4. A block is given to a number -/

section Take

variable {own : Nat → BitVec 64} {taken taken' : Nat → Prop} {v : SfsInode} {c : Buf} {b : Nat}

/-- What owns another block goes on owning it. -/
theorem SfsInode.Owns.give (h : v.Owns own taken) (hb : 3 ≤ b) (hfree : ¬ taken b) (n : BitVec 64)
    (ht : ∀ b, 2 < b → b ≤ 34 → taken b → taken' b) :
    v.Owns (Function.update own b n) taken' := by
  refine h.mono ht (fun hb2 => Function.update_of_ne ?_ _ _) (Function.update_of_ne (by omega) _ _)
  rintro rfl
  exact hfree (h.taken hb2)

theorem SlotOwns.give {i : Nat} (h : SlotOwns own taken i v) (hb : 3 ≤ b) (hfree : ¬ taken b)
    (n : BitVec 64) (ht : ∀ b, 2 < b → b ≤ 34 → taken b → taken' b) :
    SlotOwns (Function.update own b n) taken' i v :=
  h.imp_right fun h => ⟨h.1, h.2.give hb hfree n ht⟩

/-- **The block that the scan finds** may be given to any number: nobody has it. -/
theorem Buf.Owned.take (h : c.Owned own) (n : BitVec 64)
    (hscan : freeBlockScan c.mem.dev.freeBlocks = some b) :
    3 ≤ b ∧ b ≤ 34 ∧ (c.store (c.mem.taken b)).Owned (Function.update own b n) ∧
      ¬ Avail (c.mem.taken b).dev.freeBlocks b := by
  obtain ⟨h3, h34, hav⟩ := h.high.scan_some hscan
  have hfree : ¬ c.Taken b := fun ht => ht.1 hav
  have hword : (c.mem.taken b).dev.freeBlocks = takeBlock c.mem.dev.freeBlocks b :=
    Device.freeBlocks_setFreeBlocks _ _
  have htaken : ∀ k, 2 < k → k ≤ 34 → c.Taken k → (c.store (c.mem.taken b)).Taken k := by
    intro k h2 hk ht
    refine ⟨fun hk' => ?_, ht.2⟩
    rw [hword, avail_takeBlock h3 h34 h2 hk] at hk'
    exact ht.1 hk'.1
  refine ⟨h3, h34, ?_, fun hb => ?_⟩
  · constructor
    case formatted =>
      exact Device.formatted_congr (Device.agreeOff_setFreeBlocks _ _) (by omega) h.formatted
    case formattedDisk => exact h.formattedDisk
    case root =>
      change ((c.mem.dev.setFreeBlocks _).slot 0).inodeNo = 1#64
      rw [Device.slot_setFreeBlocks]
      exact h.root
    case rootDisk => exact h.rootDisk
    case high =>
      change HighTogether (c.mem.taken b).dev.freeBlocks
      rw [hword]
      exact h.high.takeBlock b
    case highDisk => exact h.highDisk
    case slot =>
      intro i hi
      change SlotOwns _ _ i ((c.mem.dev.setFreeBlocks _).slot i)
      rw [Device.slot_setFreeBlocks]
      exact (h.slot i hi).give h3 hfree n htaken
    case slotDisk => exact fun i hi => (h.slotDisk i hi).give h3 hfree n htaken
    case dentry => exact fun d x hx => (h.dentry d x hx).imp_right fun h => h.give h3 hfree n htaken
    case cached => exact h.cached
    case bits => exact h.bits
  · rw [hword, avail_takeBlock h3 h34 h3 h34] at hb
    exact hb.2 rfl

end Take

/-! ## 5. The calls -/

/-- The blocks have owners. -/
def Buf.HasOwners (c : Buf) : Prop := ∃ own, c.Owned own

/-- ... and the block of `v` has been given to `v`. -/
def Buf.HasOwnersFor (v : SfsInode) (c : Buf) : Prop :=
  ∃ own, c.Owned own ∧ v.Owns own c.Taken

/-- What a power failure leaves. -/
def Buf.LeavesOwners (c : Buf) : Prop := ∃ own, DiskOwned own c.device

section Calls

variable {c : Buf} {v : SfsInode} {intr : Site → Bool} {p : Nat} {name : Name}

theorem Buf.Owned.disk {own : Nat → BitVec 64} (h : c.Owned own) : DiskOwned own c.device :=
  ⟨h.formattedDisk, h.rootDisk, h.highDisk, fun i hi =>
    (h.slotDisk i hi).taken_mono fun _ _ _ ht => ht.2⟩

theorem Buf.HasOwners.leaves (h : c.HasOwners) : c.LeavesOwners := by
  obtain ⟨own, h⟩ := h
  exact ⟨own, h.disk⟩

/-- An unmount writes some blocks back. -/
theorem Buf.Owned.flushed {own : Nat → BitVec 64} (h : c.Owned own) :
    DiskOwned own (Device.ofBlocks c.flushed) :=
  (h.mixed c.mixed_flushed).disk

theorem Buf.steady_hasOwners : Buf.Steady Buf.HasOwners :=
  .of_images (fun _ _ hm hd ⟨own, h⟩ => ⟨own, h.of_eq hm hd⟩)
    fun _ b ⟨own, h⟩ => ⟨own, h.writeBack b⟩

theorem Buf.steady_hasOwnersFor (v : SfsInode) :
    Buf.Steady (Buf.HasOwnersFor v) := by
  refine .of_images (fun c c' hm hd ⟨own, h, hv⟩ => ⟨own, h.of_eq hm hd, ?_⟩)
    fun c b ⟨own, h, hv⟩ => ⟨own, h.writeBack b, hv.taken_mono fun n _ _ => ?_⟩
  · have hdev : Buf.device c' = Buf.device c := congrArg Device.ofBlocks hd
    refine hv.taken_mono fun n _ _ ht => ?_
    rw [Buf.Taken, hm, hdev]
    exact ht
  · exact Buf.Owned.taken_writeBack b

/-- Whatever implies that the blocks have owners, and is steady, may be the last thing known. -/
theorem Buf.safe_owners {P : Buf → Prop} (h : Buf.Steady P)
    (hP : ∀ c, P c → c.HasOwners) : Buf.Safe Buf.LeavesOwners P :=
  ⟨h, fun c hc => (hP c hc).leaves⟩

theorem Buf.safe_hasOwners : Buf.Safe Buf.LeavesOwners Buf.HasOwners :=
  Buf.safe_owners Buf.steady_hasOwners fun _ h => h

theorem Buf.safe_hasOwnersFor (v : SfsInode) :
    Buf.Safe Buf.LeavesOwners (Buf.HasOwnersFor v) :=
  Buf.safe_owners (Buf.steady_hasOwnersFor v) fun _ ⟨own, h, _⟩ => ⟨own, h⟩

/-- With the owners and something that is known of what is in memory. -/
theorem Buf.safe_and {P : Buf → Prop} (h : Buf.Safe Buf.LeavesOwners P) (R : Fs → Prop) :
    Buf.Safe Buf.LeavesOwners fun c => P c ∧ R c.mem :=
  h.and (Prog.Steady.inMemory R)

/-- The new inode of a create, once the block is taken and the map has been synced. -/
theorem Buf.owns_newInode {own : Nat → BitVec 64} {mode : BitVec 16} {ino b : Nat}
    (h3 : 3 ≤ b) (h34 : b ≤ 34) (hino : BitVec.ofNat 64 ino ≠ 0#64 ∧ BitVec.ofNat 64 ino ≠ 1#64)
    (hown : own b = BitVec.ofNat 64 ino) (hav : ¬ Avail c.mem.dev.freeBlocks b)
    (hset : Buf.Settled 0 c) : (newInode mode ino b).Owns own c.Taken := by
  have hb : (newInode mode ino b).block = b := by
    simp only [newInode, SfsInode.block, BitVec.toNat_ofNat]
    omega
  refine ⟨hino.1, by rw [hb, hown]; rfl, by rw [hb]; omega, fun _ => ?_, fun h => absurd h hino.2⟩
  rw [hb]
  refine ⟨hav, ?_⟩
  rw [Buf.freeBlocks_of_settled hset]
  exact hav

/-- The end of a create. -/
theorem Buf.owners_createTail (h : c.HasOwnersFor v) (p : Nat) (name : Name) :
    Buf.wpc intr Buf.LeavesOwners (Buf.createTail p name v) (fun _ => Buf.HasOwners) c := by
  obtain ⟨P, hP⟩ : ∃ P : Buf → Prop, P = fun c' => c'.HasOwnersFor v ∧ c'.mem.IsDirAt p := ⟨_, rfl⟩
  have hs : Buf.Safe Buf.LeavesOwners P := by
    rw [hP]
    exact Buf.safe_and (Buf.safe_hasOwnersFor v) fun fs => fs.IsDirAt p
  have howners : ∀ c', P c' → c'.HasOwners := by
    rw [hP]
    rintro c' ⟨⟨own, h, -⟩, -⟩
    exact ⟨own, h⟩
  refine Prog.wpc_mono (Buf.wpc_createTail
    (Buf.safe_and (Buf.safe_hasOwnersFor v) fun fs => fs = c.mem) hs hs hs hs hs hs
    Buf.safe_hasOwners (fun _ _ => trivial) trivial ⟨h, rfl⟩ (fun _ h => h.2) ?_
    (fun _ h _ => h) ?_ ?_ (fun _ h _ => h) (fun _ h _ => h) ?_) (fun _ h => h) ?_
  · rintro c' s ⟨⟨own, h, hv⟩, hm⟩ hr
    rw [← hm] at hr
    obtain ⟨h', ht, hd⟩ := h.addRecord hr
    rw [hP]
    exact ⟨⟨own, h', by rw [ht]; exact hv⟩, hd⟩
  · rw [hP]
    rintro c' s ⟨⟨own, h, hv⟩, hd⟩ hr
    obtain ⟨h', ht, hd'⟩ := h.countChild hd hr
    exact ⟨⟨own, h', by rw [ht]; exact hv⟩, hd'⟩
  · rw [hP]
    rintro c' s ⟨⟨own, h, hv⟩, x, hx, hd⟩ hr
    obtain ⟨h', ht, hden⟩ := h.saveInode hx (Or.inl hd) hr
    exact ⟨⟨own, h', by rw [ht]; exact hv⟩, x, hden ▸ hx, hd⟩
  · rw [hP]
    rintro c' ⟨⟨own, h, hv⟩, -⟩
    exact ⟨own, h.dAdd (Or.inr hv)⟩
  · rintro ret c' (⟨h, -⟩ | h | ⟨-, h⟩)
    · exact howners c' h
    · exact howners c' h
    · exact h

/-- `simplefs_create_fs_object`. -/
theorem Buf.owners_create (h : c.HasOwners) (p : Nat) (name : Name) (mode : BitVec 16) :
    Buf.wpc intr Buf.LeavesOwners (Buf.simplefsCreateFsObject p name mode)
      (fun _ => Buf.HasOwners) c := by
  -- between the scan and the sync the block is given, but the map on the device still has it
  obtain ⟨Q, hQ⟩ : ∃ Q : Nat → Nat → Buf → Prop, Q = fun ino b c' =>
      (∃ own, c'.Owned own ∧ own b = BitVec.ofNat 64 ino) ∧
        ((3 ≤ b ∧ b ≤ 34) ∧ (BitVec.ofNat 64 ino ≠ 0#64 ∧ BitVec.ofNat 64 ino ≠ 1#64) ∧
          ¬ Avail c'.mem.dev.freeBlocks b) := ⟨_, rfl⟩
  have hsQ : ∀ ino b, Buf.Safe Buf.LeavesOwners (Q ino b) := by
    intro ino b
    rw [hQ]
    refine Buf.safe_and (Buf.safe_owners (.of_images ?_ ?_) ?_) fun fs : Fs =>
      (3 ≤ b ∧ b ≤ 34) ∧ (BitVec.ofNat 64 ino ≠ 0#64 ∧ BitVec.ofNat 64 ino ≠ 1#64) ∧
        ¬ Avail fs.dev.freeBlocks b
    · rintro c c' hm hd ⟨own, h, hown⟩
      exact ⟨own, h.of_eq hm hd, hown⟩
    · rintro c k ⟨own, h, hown⟩
      exact ⟨own, h.writeBack k, hown⟩
    · rintro c ⟨own, h, -⟩
      exact ⟨own, h⟩
  refine Prog.wpc_mono (Buf.wpc_create
    (Buf.safe_and Buf.safe_hasOwners fun fs => fs = c.mem) hsQ (fun _ _ => Buf.safe_hasOwnersFor _)
    (fun _ _ => Buf.safe_hasOwnersFor _) (fun _ _ => Buf.safe_hasOwnersFor _)
    (fun _ _ => trivial) ⟨h, rfl⟩ (fun _ h => h.2) ?_ ?_ ?_ (fun _ _ _ h _ _ => h)
    (fun _ _ _ h _ => h) (fun _ _ _ h => Buf.owners_createTail h p name)) (fun _ h => h) ?_
  · rintro c' ino b ⟨⟨own, h⟩, hm⟩ - - hino hb
    rw [← hm] at hino hb ⊢
    obtain ⟨hlt, hbit⟩ := ffz_some hino
    obtain ⟨h3, h34, h', hav⟩ := h.take (BitVec.ofNat 64 ino) hb
    rw [hQ]
    -- the bits of numbers 0 and 1 are set
    have hne : ∀ k : Nat, k < 64 → c'.mem.imap.getLsbD k = true →
        BitVec.ofNat 64 ino ≠ BitVec.ofNat 64 k := by
      intro k hk hset heq
      have hnat := congrArg BitVec.toNat heq
      rw [BitVec.toNat_ofNat, BitVec.toNat_ofNat, Nat.mod_eq_of_lt (by omega),
        Nat.mod_eq_of_lt (by omega)] at hnat
      rw [hnat, hset] at hbit
      cases hbit
    exact ⟨⟨_, h', Function.update_self ..⟩, ⟨h3, h34⟩,
      ⟨hne 0 (by omega) h.bits.1, hne 1 (by omega) h.bits.2⟩, hav⟩
  · rw [hQ]
    rintro ino b c' ⟨⟨own, h, hown⟩, ⟨h3, h34⟩, hne, hav⟩ hset
    exact ⟨own, h, Buf.owns_newInode h3 h34 hne hown hav hset⟩
  · rintro ino b c' s ⟨own, h, hv⟩ hr
    obtain ⟨h', ht⟩ := h.addInode hv hr
    exact ⟨own, h', by rw [ht]; exact hv⟩
  · rintro _ c' (⟨h, -⟩ | h)
    · exact h.1
    · exact h

/-- `vfs_unlink`: the root is no file. -/
theorem Buf.owners_unlink (h : c.HasOwners) {e : Nat} {y : Dentry}
    (hy : c.mem.dentries e = some y) (hreg : isReg y.inode.mode = true) :
    Buf.wpc intr Buf.LeavesOwners (Buf.vfsUnlink e) (fun _ => Buf.HasOwners) c := by
  obtain ⟨P, hP⟩ : ∃ P : Nat × BitVec 64 → Buf → Prop,
      P = fun r c' => c'.HasOwners ∧ (c'.mem.IsDirAt r.1 ∧ r.2 ≠ 1#64) := ⟨_, rfl⟩
  have hs : ∀ r, Buf.Safe Buf.LeavesOwners (P r) := by
    intro r
    rw [hP]
    exact Buf.safe_and Buf.safe_hasOwners fun fs => fs.IsDirAt r.1 ∧ r.2 ≠ 1#64
  refine Buf.wpc_unlink
    (Buf.safe_and Buf.safe_hasOwners fun fs => fs = c.mem) hs hs hs hs
    (fun _ => Buf.safe_hasOwners) (fun _ => Buf.safe_hasOwners) Buf.safe_hasOwners
    (fun _ _ => trivial) trivial ⟨h, rfl⟩
    (fun _ h => h.2) ?_ (fun _ _ h _ => h) ?_ (fun _ _ h _ => h) (fun _ _ h _ => h) ?_
    (fun _ _ h _ _ => h) ?_ ?_
  · rintro c' r s ⟨⟨own, h⟩, hm⟩ hr
    rw [← hm] at hr hy
    obtain ⟨h', hd, y', hy', hino⟩ := h.removeRecord hr
    cases hy.symm.trans hy'
    rw [hP]
    refine ⟨⟨own, h'⟩, hd, fun h1 => ?_⟩
    have hroot := (owns_of_kind (h.dentry e y hy) (Or.inr hreg)).root (hino ▸ h1)
    exact not_isReg_of_isDir hroot.1 hreg
  · rw [hP]
    rintro r c' s ⟨⟨own, h⟩, ⟨x, hx, hd⟩, hne⟩ hr
    obtain ⟨h', -, hden⟩ := h.saveInode hx (Or.inl hd) hr
    exact ⟨⟨own, h'⟩, ⟨x, hden ▸ hx, hd⟩, hne⟩
  · rw [hP]
    rintro r c' s ⟨⟨own, h⟩, -, hne⟩ hr
    exact ⟨own, h.delInode hne hr⟩
  · rw [hP]
    rintro r c' ⟨h, -⟩ -
    exact h
  · rintro r c' y ⟨own, h⟩ hy
    exact ⟨own, (h.setDentry c'.mem e { y with linked := false } (.refl _) (fun _ _ => rfl) rfl rfl
      (h.dentry e y hy) fun cache hc => h.cached e y cache hy hc).1⟩

/-- `simplefs_write`. -/
theorem Buf.owners_write (h : c.HasOwners) {d : Nat} {x : Dentry} (hx : c.mem.dentries d = some x)
    (hreg : isReg x.inode.mode = true) (ppos : Nat) (data : List UInt8) (copied : Nat) :
    Buf.wpc intr Buf.LeavesOwners (Buf.simplefsWrite d ppos data copied)
      (fun _ => Buf.HasOwners) c := by
  obtain ⟨P, hP⟩ : ∃ P : Buf → Prop, P = fun c' => c'.HasOwners ∧
      ∃ y, c'.mem.dentries d = some y ∧ isReg y.inode.mode = true := ⟨_, rfl⟩
  have hs : Buf.Safe Buf.LeavesOwners P := by
    rw [hP]
    exact Buf.safe_and Buf.safe_hasOwners fun fs : Fs =>
      ∃ y, fs.dentries d = some y ∧ isReg y.inode.mode = true
  have hcopy : ∀ (c' : Buf) (ok : Bool) (s : Fs), c'.HasOwners ∧ c'.mem = c.mem →
      copyFromUser d ppos data copied c.mem = .ok (ok, s) → P (c'.store s) := by
    rintro c' ok s ⟨⟨own, h⟩, hm⟩ hr
    rw [← hm] at hr hx
    obtain ⟨h', hx'⟩ := h.copyFromUser hx hreg hr
    rw [hP]
    exact ⟨⟨own, h'⟩, x, hx', hreg⟩
  refine Prog.wpc_mono (Buf.wpc_write
    (Buf.safe_and Buf.safe_hasOwners fun fs => fs = c.mem) hs hs hs hs hs hs hs
    (fun _ _ => trivial) trivial ⟨h, rfl⟩ (fun _ h => h.2) (fun c' => hcopy c' true)
    (fun c' => hcopy c' false) (fun _ h _ _ => h) ?_ ?_ (fun _ h _ => h) (fun _ h _ => h))
    (fun _ h => h) ?_
  · rw [hP]
    rintro c' s ⟨⟨own, h⟩, y, hy, hreg⟩ hr
    rw [setFileSize_eq hy] at hr
    cases hr
    have h' := (h.setDentry c'.mem d (y.resized (ppos + data.length)) (.refl _) (fun _ _ => rfl)
      rfl rfl (owns_resize (h.dentry d y hy) _) fun cache hc => h.cached d y cache hy hc).1
    exact ⟨⟨own, h'⟩, _, (Fs.setDentry_dentries _ _ _ _).trans (if_pos rfl), hreg⟩
  · rw [hP]
    rintro c' s ⟨⟨own, h⟩, y, hy, hreg⟩ hr
    obtain ⟨h', -, hden⟩ := h.saveInode hy (Or.inr hreg) hr
    exact ⟨⟨own, h'⟩, y, hden ▸ hy, hreg⟩
  · rw [hP]
    rintro _ c' (h | ⟨h, -⟩ | h | h) <;> exact h.1

/-- **Every call.** -/
theorem Op.owners {op : Op} (h : c.HasOwners) (ha : op.Allowed c.mem) :
    Buf.wpc intr Buf.LeavesOwners op.bufCode (fun _ => Buf.HasOwners) c := by
  have hP : c.HasOwners ∧ c.mem = c.mem := ⟨h, rfl⟩
  have hs := Buf.safe_and Buf.safe_hasOwners fun fs => fs = c.mem
  cases op with
  | iterate d pos =>
    obtain ⟨x, hx⟩ := ha
    refine Buf.wpc_discard
      (Buf.wpc_iterate hs Buf.safe_hasOwners hP fun c' r s hc' hr => ?_)
    obtain ⟨⟨own, h⟩, hm⟩ := hc'
    rw [← hm] at hx
    exact ⟨own, h.iterate hx hr⟩
  | lookup p name =>
    refine Buf.wpc_discard
      (Prog.wpc_mono (Buf.wpc_lookup hs Buf.safe_hasOwners hP (fun _ h => h.2)
        ?_) (fun _ h => h) ?_)
    · rintro c' x cache e ⟨⟨own, h⟩, hm⟩ hx hc he hlt
      rw [← hm]
      exact ⟨own, h.dAdd (h.slot _ hlt).inode⟩
    · rintro _ c' (h | h)
      · exact h.1
      · exact h
  | create p name mode =>
    exact Buf.wpc_discard (Buf.owners_create h p name mode)
  | mkdir p name mode =>
    exact Buf.wpc_discard (Buf.owners_create h p name (0x4000 ||| mode))
  | unlink e =>
    obtain ⟨-, y, hy, -, hreg⟩ := ha
    exact Buf.owners_unlink h hy hreg
  | read d ppos len userOk =>
    exact Buf.wpc_discard (Buf.wpc_read Buf.safe_hasOwners h)
  | write d ppos data copied =>
    obtain ⟨x, hx, hreg⟩ := ha
    exact Buf.wpc_discard (Buf.owners_write h hx hreg ppos data copied)
  | release d =>
    refine Prog.wpc_inMemory (k := pure) Buf.safe_hasOwners h fun c' r s hc' hr => ?_
    obtain ⟨own, h⟩ := hc'
    exact Prog.wpc_return Buf.safe_hasOwners ⟨own, h.release hr⟩ fun _ h => h

end Calls

/-! ## 6. Mounts and runs -/

/-- The bitmap that `fill_imap` makes of such a device. -/
theorem DiskOwned.fillImap {own : Nat → BitVec 64} {dev : Device} (h : DiskOwned own dev) :
    ∃ w, Simplefs.fillImap dev.slot = .ok w ∧ (w.getLsbD 0 = true ∧ w.getLsbD 1 = true) ∧
      ∀ i, i < 63 → (w.getLsbD (i + 1) = true ↔ dev.Live i) := by
  obtain ⟨w, hw, h0, hbits⟩ := fillImap_bits fun i hl =>
    ((h.slot i hl.1).resolve_left fun hz => hl.2 hz.1).1
  refine ⟨w, hw, ⟨h0, (hbits 0 (by omega)).mpr ⟨by decide, ?_⟩⟩, hbits⟩
  rw [h.root]
  decide

/-- What is known while a device is mounted: nothing has been written. -/
def Buf.Fresh (disk : Nat → Block) (c : Buf) : Prop :=
  c.mem.dev = Device.ofBlocks disk ∧ c.disk = disk

theorem Buf.steady_fresh {marks : Nat → Prop} (disk : Nat → Block) :
    Prog.Steady Fs.blocks marks (Buf.Fresh disk) := by
  refine .of_images (fun c c' hm hd ⟨h1, h2⟩ => ⟨hm ▸ h1, hd.trans h2⟩) fun c b ⟨h1, h2⟩ =>
    ⟨h1, ?_⟩
  change Function.update c.disk b (c.mem.dev.blocks b) = disk
  rw [h1, Device.blocks_ofBlocks, h2, Function.update_eq_self]

theorem Buf.Fresh.device {disk : Nat → Block} {c : Buf} (h : c.Fresh disk) :
    c.device = c.mem.dev := by
  rw [h.1]
  exact congrArg Device.ofBlocks h.2

/-- The root of a device whose blocks have owners. -/
theorem DiskOwned.mounted {own : Nat → BitVec 64} {dev : Device} (h : DiskOwned own dev) {c : Buf}
    (hdev : c.mem.dev = dev) (hdisk : c.device = dev)
    (hd : ∀ e y, c.mem.dentries e = some y → y.inode = dev.slot 0 ∧ y.fsdata = none)
    (hb : c.mem.imap.getLsbD 0 = true ∧ c.mem.imap.getLsbD 1 = true) : c.Owned own := by
  have hslot : ∀ i, i < slotsPerBlock → SlotOwns own c.Taken i (dev.slot i) := fun i hi =>
    (h.slot i hi).taken_mono fun b _ _ hb => by
      rw [Buf.Taken, hdev, hdisk]
      exact ⟨hb, hb⟩
  constructor
  case formatted => rw [hdev]; exact h.formatted
  case formattedDisk => rw [hdisk]; exact h.formatted
  case root => rw [hdev]; exact h.root
  case rootDisk => rw [hdisk]; exact h.root
  case high => rw [hdev]; exact h.high
  case highDisk => rw [hdisk]; exact h.high
  case slot => rw [hdev]; exact hslot
  case slotDisk => rw [hdisk]; exact hslot
  case dentry =>
    intro e y hy
    rw [(hd e y hy).1]
    exact (hslot 0 (by decide)).inode
  case cached =>
    intro e y cache hy hc
    rw [(hd e y hy).2] at hc
    cases hc
  case bits => exact hb

/-- **A mount.** -/
theorem Buf.owners_fillSuper {own : Nat → BitVec 64} {disk : Nat → Block} {intr : Site → Bool}
    (h : DiskOwned own (Device.ofBlocks disk)) (past : BitVec 64) :
    Buf.wpc intr Buf.LeavesOwners Buf.simplefsFillSuper
      (fun ret c' => ret ≠ 0 ∧ c'.LeavesOwners ∧ c'.Fresh disk ∨ ret = 0 ∧ c'.HasOwners)
      (Buf.blank disk past) := by
  have hleaves : ∀ c, Buf.Fresh disk c → c.LeavesOwners := by
    intro c hc
    refine ⟨own, ?_⟩
    rw [hc.device, hc.1]
    exact h
  have hs : ∀ R : Fs → Prop, Buf.Safe Buf.LeavesOwners fun c => c.Fresh disk ∧ R c.mem := by
    intro R
    exact ⟨(Buf.steady_fresh disk).and (Prog.Steady.inMemory R), fun c hc => hleaves c hc.1⟩
  refine Prog.wpc_mono (Buf.wpc_fillSuper (hs fun fs => ∀ e, fs.dentries e = none)
    (hs fun fs => (∀ e, fs.dentries e = none) ∧ fs.imap.getLsbD 0 = true ∧
      fs.imap.getLsbD 1 = true) Buf.safe_hasOwners
    ⟨⟨rfl, rfl⟩, fun _ => rfl⟩ ?_ (fun c' hc' => hc'.1.1) ?_) (fun _ h => h) ?_
  · rintro c s ⟨hc, hd⟩ hr
    unfold fillImapStep at hr
    obtain ⟨w, hw, hbits, -⟩ := h.fillImap
    rw [hc.1, hw] at hr
    cases hr
    exact ⟨⟨rfl, hc.2⟩, hd, hbits⟩
  · rintro c s ⟨hc, hd, hz⟩ hr
    cases hr
    have hdev : c.device = Device.ofBlocks disk := by rw [hc.device, hc.1]
    refine ⟨own, h.mounted hc.1 hdev (fun e y hy => ?_) hz⟩
    change Function.update c.mem.dentries 0 _ e = some y at hy
    rw [Function.update_apply] at hy
    split at hy
    · cases hy
      exact ⟨rfl, rfl⟩
    · rw [hd e] at hy
      cases hy
  · rintro ret c (⟨hret, hc, -⟩ | ⟨hret, hc⟩)
    · exact Or.inl ⟨hret, hleaves c hc, hc⟩
    · exact Or.inr ⟨hret, hc⟩

/-- The blocks of a system have owners. -/
def BufSys.HasOwners (s : BufSys) : Prop :=
  match s.mnt with
  | .offline disk => ∃ own, DiskOwned own (Device.ofBlocks disk)
  | .mounted c => c.HasOwners

/-- **One step**, a power failure or not. -/
theorem PowerStep.hasOwners {s s' : BufSys} (hstep : PowerStep s s') (h : s.HasOwners) :
    s'.HasOwners := by
  cases hstep with
  | @mount lk lk' disk past c ret intr hpass =>
    obtain ⟨own, h⟩ := h
    have hend := Prog.wpc_returns hpass (Buf.owners_fillSuper h past)
    rcases hend with ⟨hret, -, hfresh⟩ | ⟨rfl, hown⟩
    · rw [if_neg hret]
      have hflush : c.flushed = disk := by
        funext b
        rw [Buf.flushed]
        split
        · change c.mem.dev.blocks b = disk b
          rw [hfresh.1, Device.blocks_ofBlocks]
        · rw [hfresh.2]
      exact ⟨own, hflush ▸ h⟩
    · rw [if_pos rfl]
      exact hown
  | umount =>
    obtain ⟨own, h⟩ := h
    exact ⟨own, Buf.Owned.flushed h⟩
  | call ha hpass =>
    have hend := Prog.wpc_returns hpass (Op.owners h ha)
    exact hend
  | background hbg => exact Buf.steady_hasOwners.stable _ _ h hbg
  | fail => exact Buf.HasOwners.leaves h
  | failOffline => exact h
  | failIn ha hpass =>
    have hend := Prog.wpc_here (Prog.wpc_passes hpass (Op.owners h ha))
    exact hend

theorem PowerRun.hasOwners {s s' : BufSys} (hrun : PowerRun s s') (h : s.HasOwners) :
    s'.HasOwners := by
  induction hrun with
  | refl => exact h
  | tail _ hstep ih => exact hstep.hasOwners ih

/-- The inodes that a system knows of: those in the store, in memory and on the device, and those
of the dentries of files and directories. -/
def BufSys.Knows (s : BufSys) (v : SfsInode) : Prop :=
  match s.mnt with
  | .offline disk => ∃ i, (Device.ofBlocks disk).Live i ∧ v = (Device.ofBlocks disk).slot i
  | .mounted c => (∃ i, c.mem.dev.Live i ∧ v = c.mem.dev.slot i) ∨
      (∃ i, c.device.Live i ∧ v = c.device.slot i) ∨
      ∃ d x, c.mem.dentries d = some x ∧ v = x.inode ∧
        (isDir v.mode = true ∨ isReg v.mode = true)

/-- A block that some map says can be handed out. -/
def BufSys.Free (s : BufSys) (b : Nat) : Prop :=
  match s.mnt with
  | .offline disk => Avail (Device.ofBlocks disk).freeBlocks b
  | .mounted c => Avail c.mem.dev.freeBlocks b ∨ Avail c.device.freeBlocks b

theorem SlotOwns.of_live {own : Nat → BitVec 64} {taken : Nat → Prop} {dev : Device} {i : Nat}
    (h : ∀ i, i < slotsPerBlock → SlotOwns own taken i (dev.slot i)) (hl : dev.Live i) :
    (dev.slot i).Owns own taken := by
  rcases h i hl.1 with ⟨h0, -⟩ | ⟨-, h⟩
  · exact absurd h0 hl.2
  · exact h

/-- What the system knows of owns its block. -/
theorem BufSys.HasOwners.knows {s : BufSys} (h : s.HasOwners) :
    ∃ own, ∀ v, s.Knows v → v.Owns own fun b => ¬ s.Free b := by
  obtain ⟨lk, disk | c⟩ := s
  · obtain ⟨own, h⟩ := h
    refine ⟨own, ?_⟩
    rintro v ⟨i, hl, rfl⟩
    exact SlotOwns.of_live h.slot hl
  · obtain ⟨own, h⟩ := h
    refine ⟨own, fun v hv => ?_⟩
    have hown : v.Owns own c.Taken := by
      rcases hv with ⟨i, hl, rfl⟩ | ⟨i, hl, rfl⟩ | ⟨d, x, hx, rfl, hk⟩
      · exact SlotOwns.of_live h.slot hl
      · exact SlotOwns.of_live h.slotDisk hl
      · exact owns_of_kind (h.dentry d x hx) hk
    exact hown.taken_mono fun b _ _ ht hfree => hfree.elim ht.1 ht.2

/-- The image that `mkfs` makes. -/
theorem freshDevice.diskOwned :
    DiskOwned (fun b => BitVec.ofNat 64 (b - 1)) freshDevice := by
  have hs := freshDevice.store
  refine ⟨freshDevice.formatted, by rw [freshDevice.slot_zero]; rfl, hs.high, fun i hi => ?_⟩
  by_cases hl : freshDevice.Live i
  · refine Or.inr ⟨hs.slots i hl, hl.2, ?_, hs.block i hl, fun hb => ?_, fun h1 => ?_⟩
    · rcases freshDevice.lt_two_cases (freshDevice.live_iff.mp hl) with rfl | rfl
      · rw [freshDevice.block_zero, freshDevice.slot_zero]
        rfl
      · rw [freshDevice.block_one, freshDevice.slot_one]
        rfl
    · obtain ⟨h2, h34⟩ := hs.block i hl
      intro hav
      exact (hs.avail _ (by omega) h34 hav).2.1 i hl rfl
    · rcases freshDevice.lt_two_cases (freshDevice.live_iff.mp hl) with rfl | rfl
      · rw [freshDevice.block_zero, freshDevice.slot_zero]
        exact ⟨by decide, rfl⟩
      · rw [freshDevice.slot_one] at h1
        exact absurd h1 (by decide)
  · have hi' : i < 128 := hi
    have h2 : 2 ≤ i := by
      by_contra hlt
      exact hl (freshDevice.live_iff.mpr (by omega))
    rw [freshDevice.slot_rest h2 hi']
    exact slotOwns_zero

theorem BufSys.hasOwners_mkfs {size : Nat} {dev : Device} (hmk : mkfs zeroMem size = (0, dev)) :
    BufSys.HasOwners ⟨LockState.free, .offline dev.blocks⟩ := by
  refine ⟨fun b => BitVec.ofNat 64 (b - 1), ?_⟩
  rw [Device.ofBlocks_blocks, mkfs_ok hmk]
  exact freshDevice.diskOwned

/-- **No data block ever has two owners**, and none that an inode has can be handed out again: in
every state of every run, whatever is interrupted, whatever is written back, and wherever the power
fails. -/
theorem PowerRun.no_sharing {size : Nat} {dev : Device} {s : BufSys}
    (hmk : mkfs zeroMem size = (0, dev))
    (hrun : PowerRun ⟨LockState.free, .offline dev.blocks⟩ s) :
    (∀ v w, s.Knows v → s.Knows w → v.block = w.block → v.inodeNo = w.inodeNo) ∧
      ∀ v, s.Knows v → v.block ≠ 2 → ¬ s.Free v.block := by
  obtain ⟨own, hown⟩ := (hrun.hasOwners (BufSys.hasOwners_mkfs hmk)).knows
  refine ⟨fun v w hv hw hb => ?_, fun v hv => (hown v hv).taken⟩
  rw [← (hown v hv).owner, ← (hown w hw).owner, hb]

/-- **What is left always mounts**: unless an interrupted call has kept the lock, a mount of what is
on the device succeeds.  Its bitmap has the inodes of the store and no others, and its root is the
root directory. -/
theorem PowerRun.mounts {size : Nat} {dev : Device} {lk : LockState Lock} {disk : Nat → Block}
    (hmk : mkfs zeroMem size = (0, dev))
    (hrun : PowerRun ⟨LockState.free, .offline dev.blocks⟩ ⟨lk, .offline disk⟩)
    (hl : lk.held .inodesMgmt = false) (past : BitVec 64) :
    ∃ imap, Prog.run quiet simplefsFillSuper lk (Fs.blank (Device.ofBlocks disk) past) =
        (.returned 0 (mountedFs (Device.ofBlocks disk) imap past), lk) ∧
      (∀ i, i < 63 → (imap.getLsbD (i + 1) = true ↔ (Device.ofBlocks disk).Live i)) ∧
      ((Device.ofBlocks disk).slot 0).inodeNo = inoOf 0 ∧
      isDir ((Device.ofBlocks disk).slot 0).mode = true ∧
      ((Device.ofBlocks disk).slot 0).block = 2 := by
  obtain ⟨own, h⟩ : ∃ own, DiskOwned own (Device.ofBlocks disk) :=
    hrun.hasOwners (BufSys.hasOwners_mkfs hmk)
  obtain ⟨imap, hmap, -, hbits⟩ := h.fillImap
  have hroot : ((Device.ofBlocks disk).slot 0).Owns own
      fun b => ¬ Avail (Device.ofBlocks disk).freeBlocks b :=
    SlotOwns.of_live h.slot ⟨by decide, by rw [h.root]; decide⟩
  exact ⟨imap, run_fillSuper_of_fillImap h.formatted hmap past hl, hbits, h.root,
    hroot.root h.root⟩

/-- A call or a mount of `Vfs.lean` is a step here. -/
theorem DefinedStep.powered {lk lk' : LockState Lock} {c : Buf} {fs' : Fs}
    (h : DefinedStep ⟨lk, .mounted c.mem⟩ ⟨lk', .mounted fs'⟩) :
    ∃ c', c'.mem = fs' ∧ PowerStep ⟨lk, .mounted c⟩ ⟨lk', .mounted c'⟩ := by
  obtain ⟨ev, ha, -, hev⟩ := h
  cases Event.leadsTo hev with
  | call hrun => exact PowerStep.of_call (ha _ _ _ rfl rfl) hrun

/-- A create on its way: it has its block. -/
theorem Buf.comes_taken {c : Buf} {p i b : Nat} {x : Dentry} {cache : DirCache} {name : Name}
    {mode : BitVec 16} (hx : c.mem.dentries p = some x) (hc : x.fsdata = some cache)
    (hst : c.mem.CreateStarts mode quiet) (hpick : ffz c.mem.imap = some i)
    (hb : freeBlockScan c.mem.dev.freeBlocks = some b) :
    Prog.Comes quiet Buf.Background (fun c' => c'.mem = c.mem.taken b)
      ⟨Buf.simplefsCreateFsObject p name mode, LockState.free, c⟩ := by
  obtain ⟨-, -, hroom, hmode⟩ := hst
  have hcount : Prog.run quiet Simplefs.simplefsSbGetObjectsCount
      (LockState.free.take Lock.childrenUpdate) c.mem =
      (.returned (.ok c.mem.dev.inodesCount) c.mem, LockState.free.take Lock.childrenUpdate) := by
    rw [← bind_pure Simplefs.simplefsSbGetObjectsCount, run_getObjectsCount _ rfl]
    rfl
  obtain ⟨c1, h1, hpass1⟩ : ∃ c1 : Buf, c1.mem = c.mem ∧ Passes quiet Buf.Background _ _ :=
    Buf.erases_getObjectsCount.run (c := c) hcount
  have hblock : Prog.run quiet Simplefs.simplefsSbGetAFreeblock
      (LockState.free.take Lock.childrenUpdate) c1.mem =
      (.returned (.ok b) (c.mem.taken b), LockState.free.take Lock.childrenUpdate) := by
    rw [h1, ← bind_pure Simplefs.simplefsSbGetAFreeblock, run_getAFreeblock _ rfl, hb]
    rfl
  obtain ⟨c2, h2, hpass2⟩ : ∃ c2 : Buf, c2.mem = c.mem.taken b ∧ Passes quiet Buf.Background _ _ :=
    Buf.erases_getAFreeblock.run hblock
  have hgo : (!isDir (mode.setWidth 32) && !isReg (mode.setWidth 32)) = false := by
    rcases hmode with h | h <;> simp [h]
  refine Buf.comes_inMemory (bugOnNoCache_eq hx hc) (Prog.comes_lock rfl rfl ?_)
  refine Prog.comes_bind hpass1 ?_
  simp only [if_neg (Nat.not_le.mpr hroom), hgo, Bool.false_eq_true, if_false]
  have hpick' : pickInodeNumber c1.mem = .ok (i, c1.mem) := by
    rw [h1, pickInodeNumber, hpick]
  exact Buf.comes_inMemory hpick' (Prog.comes_bind hpass2 (Prog.comes_here h2))

/-- The fresh image is mounted and listed, and the power fails in a create that has got its block
and has no inode yet. -/
theorem PowerRun.cut : ∃ (c : Buf) (b : Nat) (y : Prog.Point Buf Progress Lock Site Fault Unit),
    PowerRun ⟨LockState.free, .offline freshDevice.blocks⟩ ⟨LockState.free, .mounted c⟩ ∧
      Passes quiet Buf.Background ⟨(Op.create 0 newName 0x81a4).bufCode, LockState.free, c⟩ y ∧
      c.mem = listedFs ∧ freeBlockScan listedFs.dev.freeBlocks = some b ∧
      y.state.mem = listedFs.taken b ∧
      PowerRun ⟨LockState.free, .offline freshDevice.blocks⟩
        ⟨LockState.free, .offline y.state.disk⟩ := by
  have hmount : Prog.run quiet simplefsFillSuper LockState.free
      (Fs.blank (Device.ofBlocks freshDevice.blocks) 0#64) =
        (.returned 0 freshFs, LockState.free) := by
    rw [Device.ofBlocks_blocks]
    exact run_fillSuper freshDevice.store 0#64 rfl
  obtain ⟨c1, h1, hstep1⟩ := PowerStep.of_mount hmount
  obtain ⟨c2, h2, hstep2⟩ := DefinedStep.powered (c := c1) (h1 ▸ DefinedStep.listed)
  have hrun : PowerRun ⟨LockState.free, .offline freshDevice.blocks⟩
      ⟨LockState.free, .mounted c2⟩ := .tail (.single hstep1) hstep2
  have hmode : isReg ((0x81a4 : BitVec 16).setWidth 32) = true := by decide
  have haway : ¬ listedFs.TurnedAway 0x81a4 quiet :=
    listedFs_not_turnedAway (Or.inr hmode) rfl rfl rfl
  obtain ⟨hst, -, b, hb⟩ := Fs.starts_of_not_turnedAway haway
  have hpick : ffz listedFs.imap = some 3 := by decide
  rw [← h2] at hst hpick
  obtain ⟨y, hpass, hy⟩ := Prog.Comes.bind (k := fun _ => pure ())
    (Buf.comes_taken (h2 ▸ listedFs_root.1) rfl hst hpick (h2 ▸ hb))
  have ha : (Op.create 0 newName 0x81a4).Allowed c2.mem := by
    rw [h2]
    exact listedFs_newName
  exact ⟨c2, b, y, hrun, hpass, h2, hb, by rw [hy, h2], hrun.tail (.failIn ha hpass)⟩

theorem PowerRun.no_sharing_cut : ∃ (c : Buf) (b : Nat)
    (y : Prog.Point Buf Progress Lock Site Fault Unit), c.mem = listedFs ∧
      Passes quiet Buf.Background ⟨(Op.create 0 newName 0x81a4).bufCode, LockState.free, c⟩ y ∧
      freeBlockScan listedFs.dev.freeBlocks = some b ∧ y.state.mem = listedFs.taken b ∧
      ∀ v w, BufSys.Knows ⟨LockState.free, .offline y.state.disk⟩ v →
        BufSys.Knows ⟨LockState.free, .offline y.state.disk⟩ w → v.block = w.block →
        v.inodeNo = w.inodeNo := by
  obtain ⟨c, b, y, -, hpass, hc, hb, hy, hrun⟩ := PowerRun.cut
  exact ⟨c, b, y, hc, hpass, hb, hy, (PowerRun.no_sharing mkfs_fresh hrun).1⟩

theorem PowerRun.mounts_cut : ∃ (c : Buf) (b : Nat)
    (y : Prog.Point Buf Progress Lock Site Fault Unit) (imap : BitVec 64), c.mem = listedFs ∧
      Passes quiet Buf.Background ⟨(Op.create 0 newName 0x81a4).bufCode, LockState.free, c⟩ y ∧
      freeBlockScan listedFs.dev.freeBlocks = some b ∧ y.state.mem = listedFs.taken b ∧
      Prog.run quiet simplefsFillSuper LockState.free
          (Fs.blank (Device.ofBlocks y.state.disk) 0#64) =
        (.returned 0 (mountedFs (Device.ofBlocks y.state.disk) imap 0#64), LockState.free) := by
  obtain ⟨c, b, y, -, hpass, hc, hb, hy, hrun⟩ := PowerRun.cut
  obtain ⟨imap, hmount, -⟩ := PowerRun.mounts mkfs_fresh hrun rfl 0#64
  exact ⟨c, b, y, imap, hc, hpass, hb, hy, hmount⟩

end Simplefs
