/-
# Accounting for the blocks

`sb->free_blocks` has a bit for each block; `simplefs_sb_get_a_freeblock` clears the bit of the
block it hands out.  The comment above it leaves the bits of *failed* creations and deletions to
a fsck.  Two more go wrong:

* no bit is ever set again, also not when the file is unlinked;
* `~(1 << 31)` is an `int` and is sign-extended, so handing out block 31 clears the bits 31 to 63.

A run without either keeps the word exact, and the first step with one of them breaks it.  Nothing
is asked of the other steps but that nobody interrupts them: names may be too long for their
record, and writes may end anywhere.
-/
import Simplefs.Confined
import Simplefs.Stale

namespace Simplefs

open Prog (LockState wlp wlp_step wlp_stepObs wlp_lock wlp_unlock wlp_read wlp_bind wlp_and)

/-! ## 1. The accounts, and what can happen to a block -/

/-- Some inode has block `b`. -/
def Device.InUse (dev : Device) (b : Nat) : Prop := ∃ i, dev.Live i ∧ (dev.slot i).block = b

/-- **The free-block word is exact**, from block 3 on. -/
def Device.Accounted (dev : Device) : Prop :=
  ∀ b, 3 ≤ b → b < 64 → (dev.freeBlocks.getLsbD b = true ↔ ¬ dev.InUse b)

/-- One of the bits 3 to 30 is set. -/
def Device.HasLowBlock (dev : Device) : Prop :=
  ∃ b, 3 ≤ b ∧ b ≤ 30 ∧ dev.freeBlocks.getLsbD b = true

/-- No block changes hands. -/
structure BlocksKept (dev dev' : Device) : Prop where
  freeBlocks : dev'.freeBlocks = dev.freeBlocks
  inUse : ∀ b, dev'.InUse b ↔ dev.InUse b

/-- Block `b` is handed out, to a new inode. -/
structure BlockTaken (dev dev' : Device) (b : Nat) : Prop where
  scan : freeBlockScan dev.freeBlocks = some b
  freeBlocks : dev'.freeBlocks = takeBlock dev.freeBlocks b
  inUse : ∀ c, dev'.InUse c ↔ c = b ∨ dev.InUse c

/-- Block `b` loses its inode. -/
structure BlockLost (dev dev' : Device) (b : Nat) : Prop where
  data : 3 ≤ b ∧ b < 64
  freeBlocks : dev'.freeBlocks = dev.freeBlocks
  before : dev.InUse b
  after : ¬ dev'.InUse b

section Moves

variable {dev dev' dev'' : Device} {b : Nat} {imap : BitVec 64}

theorem BlocksKept.refl (dev : Device) : BlocksKept dev dev := ⟨rfl, fun _ => Iff.rfl⟩

theorem BlocksKept.trans (h : BlocksKept dev dev') (h' : BlocksKept dev' dev'') :
    BlocksKept dev dev'' :=
  ⟨h'.freeBlocks.trans h.freeBlocks, fun b => (h'.inUse b).trans (h.inUse b)⟩

theorem BlocksKept.of_slots (hfree : dev'.freeBlocks = dev.freeBlocks)
    (hs : StoreInv.SameSlots dev dev') : BlocksKept dev dev' := by
  refine ⟨hfree, fun b => exists_congr fun i => ?_⟩
  constructor
  · rintro ⟨hl, hb⟩
    rw [(hs i hl.lt).2] at hb
    exact ⟨(hs.live i).mp hl, hb⟩
  · rintro ⟨hl, hb⟩
    rw [← (hs i hl.lt).2] at hb
    exact ⟨(hs.live i).mpr hl, hb⟩

theorem BlockTaken.trans (h : BlockTaken dev dev' b) (h' : BlocksKept dev' dev'') :
    BlockTaken dev dev'' b :=
  ⟨h.scan, h'.freeBlocks.trans h.freeBlocks, fun c => (h'.inUse c).trans (h.inUse c)⟩

theorem BlocksKept.accounted_iff (h : BlocksKept dev dev') : dev'.Accounted ↔ dev.Accounted := by
  refine forall_congr' fun b => imp_congr_right fun _ => imp_congr_right fun _ => ?_
  rw [h.freeBlocks, h.inUse]

/-- Block 63 is never in use, so with the accounts in order its bit is set, and with it bit 31. -/
theorem avail_31 (hst : StoreInv dev imap fun _ => False) (ha : dev.Accounted) :
    Avail dev.freeBlocks 31 := by
  have hunused : ¬ dev.InUse 63 := by
    rintro ⟨i, hl, hi⟩
    have := (hst.block i hl).2
    omega
  rw [Avail, ← hst.high 63 (by omega) (by omega)]
  exact (ha 63 (by omega) (by omega)).mpr hunused

/-- In an exact word the scan stops at block 31 at the latest. -/
theorem scan_le (hst : StoreInv dev imap fun _ => False) (ha : dev.Accounted)
    (hb : freeBlockScan dev.freeBlocks = some b) : b ≤ 31 := by
  have h31 : freeBitTest dev.freeBlocks 31 = true := hst.high.test_iff.mpr (avail_31 hst ha)
  by_contra hgt
  rw [freeBlockScan_least hb (by omega) (by omega)] at h31
  cases h31

/-- **Handing out a block keeps the accounts exactly if the block is not number 31**. -/
theorem BlockTaken.accounted_iff (h : BlockTaken dev dev' b)
    (hst : StoreInv dev imap fun _ => False) (ha : dev.Accounted) :
    dev'.Accounted ↔ dev.HasLowBlock := by
  have hle := scan_le hst ha h.scan
  obtain ⟨h3, -, htest⟩ := freeBlockScan_some h.scan
  constructor
  · intro ha'
    by_contra hno
    have hb : b = 31 := by
      by_contra hne
      rw [freeBitTest_low (by omega)] at htest
      exact hno ⟨b, h3, by omega, htest⟩
    -- bit 63 is gone, and no inode has block 63
    have hunused : ¬ dev'.InUse 63 := by
      rw [h.inUse, hb]
      rintro (h63 | ⟨i, hl, hi⟩)
      · omega
      · have := (hst.block i hl).2
        omega
    have hbit := (ha' 63 (by omega) (by omega)).mpr hunused
    rw [h.freeBlocks, hb, getLsbD_takeBlock _ _ (by omega), Bool.and_eq_true] at hbit
    exact absurd hbit.2 (by decide)
  · rintro ⟨j, hj3, hj30, hj⟩ c hc hc'
    obtain ⟨b', hscan, -, hb30, -⟩ := freeBlockScan_low hj3 hj30 hj
    cases h.scan.symm.trans hscan
    rw [h.freeBlocks, getLsbD_takeBlock_low _ hb30 hc', Bool.and_eq_true, ha c hc hc', h.inUse,
      Bool.not_eq_true', decide_eq_false_iff_not, not_or, and_comm]

/-- **An inode that goes leaves a block that is neither free nor in use.** -/
theorem BlockLost.not_accounted (h : BlockLost dev dev' b) (ha : dev.Accounted) :
    ¬ dev'.Accounted := by
  obtain ⟨h3, h64⟩ := h.data
  intro ha'
  have hbit := (ha' b h3 h64).mpr h.after
  rw [h.freeBlocks, ha b h3 h64] at hbit
  exact hbit h.before

end Moves

/-! ## 2. Order among the inodes

Much less than the invariant of a mounted filesystem: nothing about the records of directories. -/

/-- The inode of a file or of a directory. -/
def SfsInode.Typed (v : SfsInode) : Prop := isReg v.mode = true ∨ isDir v.mode = true

/-- The store is consistent, slot 0 is the root's, and what looks like an inode is one. -/
structure Device.Orderly (dev : Device) (imap : BitVec 64) : Prop where
  store : StoreInv dev imap fun _ => False
  root : dev.Live 0 ∧ isDir (dev.slot 0).mode = true ∧ (dev.slot 0).block = 2
  typed : ∀ i, i < slotsPerBlock → (dev.slot i).Typed → dev.Live i

/-- And the inodes in memory are copies of those in the store, up to their sizes.  Only blocks that
are not handed out again are torn. -/
structure Fs.Orderly (fs : Fs) : Prop where
  device : fs.dev.Orderly fs.imap
  copy : ∀ e y, fs.dentries e = some y → y.inode.Typed →
    fs.dev.Live y.slot ∧ y.inode.Same (fs.dev.slot y.slot)
  cached : ∀ e y c, fs.dentries e = some y → y.fsdata = some c → isDir y.inode.mode = true
  torn : ∀ b, fs.torn b ≠ none → 2 ≤ b ∧ (3 ≤ b → ¬ Avail fs.dev.freeBlocks b)

theorem SfsInode.Same.typed {v w : SfsInode} (h : v.Same w) (hv : v.Typed) : w.Typed := by
  rw [SfsInode.Typed, ← h.mode]
  exact hv

/-- The slots are the same. -/
theorem Device.Orderly.of_slots {dev dev' : Device} {imap imap' : BitVec 64}
    (h : dev.Orderly imap) (hst : StoreInv dev' imap' fun _ => False)
    (hslot : ∀ i, i < slotsPerBlock → dev'.slot i = dev.slot i) : dev'.Orderly imap' := by
  have h0 : dev'.slot 0 = dev.slot 0 := hslot 0 (by decide)
  refine ⟨hst, ?_, fun i hi ht => ?_⟩
  · rw [Device.live_congr h0, h0]
    exact h.root
  · rw [hslot i hi] at ht
    exact (Device.live_congr (hslot i hi)).mpr (h.typed i hi ht)

namespace Fs.Orderly

variable {fs fs' : Fs} {d e p : Nat} {x x' y : Dentry} {v : SfsInode} {imap : BitVec 64}

/-- A typed inode has the number and the block of its slot. -/
theorem number (h : fs.Orderly) (hy : fs.dentries e = some y) (ht : y.inode.Typed) :
    fs.dev.Live y.slot ∧ y.inode.inodeNo = inoOf y.slot ∧
      (fs.dev.slot y.slot).block = y.inode.block := by
  obtain ⟨hl, hs⟩ := h.copy e y hy ht
  exact ⟨hl, hs.inodeNo.trans (h.device.store.slots _ hl).1, hs.block.symm⟩

/-- The device is written, but not the slots and the map. -/
theorem of_slots (h : fs.Orderly) {dev : Device} (hst : StoreInv dev imap fun _ => False)
    (hslot : ∀ i, i < slotsPerBlock → dev.slot i = fs.dev.slot i)
    (hfree : dev.freeBlocks = fs.dev.freeBlocks) :
    Fs.Orderly { fs with dev := dev, imap := imap } := by
  refine ⟨h.device.of_slots hst hslot, fun e y hy ht => ?_, h.cached, fun b hb => ?_⟩
  swap
  · rw [hfree]
    exact h.torn b hb
  obtain ⟨hl, hs⟩ := h.copy e y hy ht
  refine ⟨(Device.live_congr (hslot _ hl.1)).mpr hl, ?_⟩
  rw [hslot _ hl.1]
  exact hs

/-- A write inside the block of a typed inode. -/
theorem write_block (h : fs.Orderly) (hy : fs.dentries e = some y) (ht : y.inode.Typed)
    {dev : Device} {lo hi : Nat} (hagree : AgreeOff lo hi fs.dev dev)
    (hlo : 4096 * y.inode.block ≤ lo) (hhi : hi ≤ 4096 * y.inode.block + 4096) :
    Fs.Orderly { fs with dev := dev } ∧ BlocksKept fs.dev dev ∧
      ∀ i, i < slotsPerBlock → dev.slot i = fs.dev.slot i := by
  obtain ⟨hl, -, hb⟩ := h.number hy ht
  have h2 := (h.device.store.block _ hl).1
  rw [hb] at h2
  have hslot : ∀ i, i < slotsPerBlock → dev.slot i = fs.dev.slot i := fun i hi' => by
    have hi128 : i < 128 := hi'
    exact Device.slot_congr hagree (by omega)
  have hst := h.device.store.write_block hl hagree (by omega) (by omega)
  have hfree := Device.freeBlocks_congr hagree (by omega)
  refine ⟨h.of_slots hst hslot hfree, .of_slots hfree ?_, hslot⟩
  intro i hi'
  rw [hslot i hi']
  exact ⟨rfl, rfl⟩

/-- A copy into the block of a typed inode. -/
theorem tear (h : fs.Orderly) (hy : fs.dentries e = some y) (ht : y.inode.Typed)
    (torn' : Nat → Option Block) (hto : ∀ b, b ≠ y.inode.block → torn' b = fs.torn b) :
    Fs.Orderly { fs with torn := torn' } := by
  refine ⟨h.device, h.copy, h.cached, fun b hb => ?_⟩
  by_cases hbb : b = y.inode.block
  · obtain ⟨hl, -, hblock⟩ := h.number hy ht
    obtain ⟨h2, h34⟩ := h.device.store.block _ hl
    rw [hbb, ← hblock]
    exact ⟨h2, fun h3 ha => (h.device.store.avail _ h3 h34 ha).2.1 _ hl rfl⟩
  · have hb' : torn' b ≠ none := hb
    rw [hto b hbb] at hb'
    exact h.torn b hb'

/-- One dentry gets another size or another cache. -/
theorem setDentry (h : fs.Orderly) (hx : fs.dentries d = some x) (hs : x'.inode.Same x.inode)
    (hc : ∀ c, x'.fsdata = some c → isDir x.inode.mode = true) : (fs.setDentry d x').Orderly := by
  constructor
  case device => exact h.device
  case torn => exact h.torn
  case copy =>
    intro e y hy ht
    rw [Fs.setDentry_dentries] at hy
    split at hy
    · cases hy
      obtain ⟨hl, hcopy⟩ := h.copy d x hx (hs.typed ht)
      have hslot : x'.slot = x.slot := by rw [Dentry.slot, hs.inodeNo, Dentry.slot]
      rw [hslot]
      exact ⟨hl, hs.trans hcopy⟩
    · exact h.copy e y hy ht
  case cached =>
    intro e y c hy hyc
    rw [Fs.setDentry_dentries] at hy
    split at hy
    · cases hy
      rw [hs.mode]
      exact hc c hyc
    · exact h.cached e y c hy hyc

/-- A dentry is added, for an inode of the store. -/
theorem dAdd (h : fs.Orderly) (hv : v.Typed → fs.dev.Live (slotIndex v.inodeNo) ∧
    v.Same (fs.dev.slot (slotIndex v.inodeNo))) (p : Nat) (name : Name) :
    (fs.dAdd p name v).Orderly := by
  constructor
  case device => exact h.device
  case torn => exact h.torn
  case copy =>
    intro e y hy ht
    rw [Fs.dAdd_dentries] at hy
    split at hy
    · cases hy
      exact hv ht
    · exact h.copy e y hy ht
  case cached =>
    intro e y c hy hc
    rw [Fs.dAdd_dentries] at hy
    split at hy
    · cases hy
      cases hc
    · exact h.cached e y c hy hc

theorem dataTorn (h : fs.Orderly) : fs.DataTorn := fun b hb => (h.torn b hb).1

/-- An unmount keeps the slots and the map. -/
theorem flushed (h : fs.Orderly) : fs.flushed.Orderly fs.imap :=
  h.device.of_slots
    (h.device.store.flushed fun b hb => ⟨(h.torn b hb).1, (h.torn b hb).2, id⟩)
    fun _ => h.dataTorn.slot

theorem kept_flushed (h : fs.Orderly) : BlocksKept fs.dev fs.flushed :=
  .of_slots h.dataTorn.super.free fun k hk => by rw [h.dataTorn.slot hk]; exact ⟨rfl, rfl⟩

/-- **Saving an inode** finds its slot. -/
theorem saveInode_eq (h : fs.Orderly) (hx : fs.dentries d = some x) (ht : x.inode.Typed) :
    saveInode d fs = .ok (true, { fs with dev := fs.dev.setSlot x.slot x.inode }) := by
  obtain ⟨hl, hno, -⟩ := h.number hx ht
  have hfirst := firstSlot_live (fun k hk => (h.device.store.slots k hk).1) hl
  rw [← hno] at hfirst
  exact saveInode_found hx hfirst

/-- And puts nothing else into it than was there, but for the size. -/
theorem same_setSlot (h : fs.Orderly) (hx : fs.dentries d = some x) (ht : x.inode.Typed) (i : Nat) :
    (fs.dev.slot i).Same ((fs.dev.setSlot x.slot x.inode).slot i) := by
  rw [Device.slot_setSlot]
  split
  · rename_i hi
    rw [hi]
    exact (h.copy d x hx ht).2.symm
  · exact .refl _

theorem setSlot (h : fs.Orderly) (hx : fs.dentries d = some x) (ht : x.inode.Typed) :
    Fs.Orderly { fs with dev := fs.dev.setSlot x.slot x.inode } ∧
      BlocksKept fs.dev (fs.dev.setSlot x.slot x.inode) := by
  obtain ⟨hl, hsame⟩ := h.copy d x hx ht
  have hslot := h.same_setSlot hx ht
  have hlive := Device.live_setSlot fs.dev hsame.inodeNo
  have hst := h.device.store.save hl hsame.inodeNo hsame.block
  refine ⟨⟨⟨hst, ?_, fun i hi ht => ?_⟩, fun e y hy ht => ?_, h.cached, fun b hb => ?_⟩,
    .of_slots (Device.freeBlocks_setSlot _ _ _) fun i _ => ?_⟩
  · rw [hlive, ← (hslot 0).mode, ← (hslot 0).block]
    exact h.device.root
  · exact (hlive i).mpr (h.device.typed i hi ((hslot i).symm.typed ht))
  · obtain ⟨hyl, hys⟩ := h.copy e y hy ht
    exact ⟨(hlive _).mpr hyl, hys.trans (hslot _)⟩
  · rw [Device.freeBlocks_setSlot]
    exact h.torn b hb
  · exact ⟨(hslot i).inodeNo.symm, (hslot i).block.symm⟩

end Fs.Orderly

/-! ## 3. The calls that hand out no block -/

/-- The inodes stay in order, and no block changes hands. -/
structure KeepsBlocks (fs fs' : Fs) : Prop where
  orderly : fs'.Orderly
  kept : BlocksKept fs.dev fs'.dev

section Calls

variable {fs fs' : Fs} {d p : Nat} {x : Dentry}

/-- Without a signal every acquisition succeeds. -/
theorem quiet_lock {α : Type} {site : Site} {l : Lock} {k : Bool → Code α} {Q : α → Fs → Prop}
    (h : wlp quiet (k false) Q fs) : wlp quiet (Prog.lock site l >>= k) Q fs := by
  refine wlp_lock fun i hi => ?_
  obtain rfl : i = false := hi.symm
  exact h

/-- `simplefs_inode_save`, of a typed inode: it succeeds. -/
theorem orderly_inodeSave (h : fs.Orderly) (hx : fs.dentries d = some x) (ht : x.inode.Typed) :
    wlp quiet (simplefsInodeSave d) (fun ret fs' => ret = 0 ∧ KeepsBlocks fs fs' ∧
      fs' = { fs with dev := fs.dev.setSlot x.slot x.inode }) fs := by
  refine quiet_lock ?_
  refine wlp_step fun found fs1 hr => ?_
  rw [h.saveInode_eq hx ht] at hr
  cases hr
  obtain ⟨ho, hk⟩ := h.setSlot hx ht
  exact ⟨rfl, ⟨ho, hk⟩, rfl⟩

theorem orderly_iterate (h : fs.Orderly) (hx : fs.DirAt d x) (pos : Nat) :
    wlp quiet (simplefsIterate d pos) (fun _ fs' => KeepsBlocks fs fs') fs := by
  intro r fs1 hr
  rw [iterate_eq hx.1 pos] at hr
  cases hr
  exact ⟨h.setDentry hx.1 (.refl _) fun _ _ => hx.2.2, .refl _⟩

theorem orderly_lookup (h : fs.Orderly) (p : Nat) (name : Name) :
    wlp quiet (simplefsLookup p name) (fun _ fs' => KeepsBlocks fs fs') fs := by
  refine wlp_lookupObject (fun _ => ⟨h, .refl _⟩) fun x c entry _ _ _ hi => ?_
  refine ⟨h.dAdd (fun ht => ?_) p name, .refl _⟩
  have hl := h.device.typed _ hi ht
  rw [(h.device.store.slots _ hl).1, slotIndex_inoOf hl.lt]
  exact ⟨hl, .refl _⟩

theorem orderly_write (h : fs.Orderly) (hx : fs.dentries d = some x)
    (hreg : isReg x.inode.mode = true) (ppos : Nat) (data : List UInt8) (copied : Nat) :
    wlp quiet (simplefsWrite d ppos data copied) (fun _ fs' => KeepsBlocks fs fs') fs := by
  have h1 : Fits ppos data → KeepsBlocks fs (fs.copiedIn x ppos data copied) := by
    intro hfit
    obtain ⟨lo, hi, hagree, hlo, hhi⟩ := fs.agreeOff_copiedIn x copied hfit
    obtain ⟨ho, hk, -⟩ := h.write_block hx (Or.inl hreg) hagree hlo hhi
    exact ⟨ho.tear (y := x) hx (Or.inl hreg) _ fun b hb => fs.tear_ne _ hb, hk⟩
  refine wlp_writeFile hx h1 fun hfit _ => ?_
  have hx1 : (fs.copiedIn x ppos data copied).dentries d = some x := hx
  have hsame : (x.resized (ppos + data.length)).inode.Same x.inode := ⟨rfl, rfl, rfl⟩
  have h2 := (h1 hfit).orderly.setDentry hx1 hsame fun c hc => h.cached d x c hx hc
  have hx2 := (Fs.setDentry_dentries (fs.copiedIn x ppos data copied) d
    (x.resized (ppos + data.length)) d).trans (if_pos rfl)
  refine Prog.wlp_mono (orderly_inodeSave h2 hx2 (Or.inl hreg)) ?_
  rintro ret fs3 ⟨-, h3, -⟩
  exact ⟨h3.orderly, (h1 hfit).kept.trans h3.kept⟩

theorem orderly_release (h : fs.Orderly) (d : Nat) :
    wlp quiet (Op.release d).code (fun _ fs' => KeepsBlocks fs fs') fs := by
  intro u fs1 hr
  cases hr
  have hold : ∀ e y, Function.update fs.dentries d none e = some y → fs.dentries e = some y :=
    fun _ _ hy => (Fs.of_update_none hy).2
  exact ⟨⟨h.device, fun e y hy => h.copy e y (hold e y hy),
    fun e y c hy => h.cached e y c (hold e y hy), h.torn⟩, .refl _⟩

end Calls

/-! ## 4. A create -/

section Create

variable {fs fs' : Fs} {p : Nat} {x : Dentry} {name : Name} {mode : BitVec 16} {i b : Nat}

/-- What a create has done once the inode is added. -/
theorem Fs.Orderly.added (h : fs.Orderly) (mode : BitVec 16) (hi63 : i < 63)
    (hdead : ¬ fs.dev.Live i) (hb : freeBlockScan fs.dev.freeBlocks = some b) :
    (fs.added mode i b).Orderly ∧ BlockTaken fs.dev (fs.added mode i b).dev b := by
  have hblock : (newInode mode (i + 1) b).block = b :=
    block_newInode mode _ (freeBlockScan_some hb).2.1
  have hslot : ∀ k, (fs.added mode i b).dev.slot k = if k = i then newInode mode (i + 1) b
      else fs.dev.slot k := Fs.SoundAt.slot_added i b
  have hlive : ∀ k, (fs.added mode i b).dev.Live k ↔ k = i ∨ fs.dev.Live k :=
    Fs.SoundAt.live_added hi63 b
  have hne : ∀ {k}, fs.dev.Live k → k ≠ i := fun hk heq => hdead (heq ▸ hk)
  have hold : ∀ {k}, fs.dev.Live k → (fs.added mode i b).dev.slot k = fs.dev.slot k :=
    fun hk => by rw [hslot, if_neg (hne hk)]
  have hst : StoreInv (fs.added mode i b).dev (fs.added mode i b).imap fun _ => False := by
    have htaken : StoreInv (fs.taken b).dev fs.imap fun c => c = b :=
      h.device.store.takeFreeBlock hb fun c hc => Or.inr hc
    refine htaken.add hi63 (fun hl => hdead ?_) rfl hblock fun c hc => hc.elim
    exact (Device.live_congr (Device.slot_setFreeBlocks _ _ _)).mp hl
  have hfree : (fs.added mode i b).dev.freeBlocks = takeBlock fs.dev.freeBlocks b := by
    simp only [Fs.added, Fs.taken, Device.freeBlocks_addAt, Device.freeBlocks_setFreeBlocks]
  refine ⟨⟨⟨hst, ?_, fun k hk ht => ?_⟩, fun e y hy ht => ?_, h.cached, fun c hc => ?_⟩, hb, hfree,
    fun c => ?_⟩
  · obtain ⟨hl, hroot⟩ := h.device.root
    rw [hlive, hold hl]
    exact ⟨Or.inr hl, hroot⟩
  · rw [hlive]
    by_cases hki : k = i
    · exact Or.inl hki
    · rw [hslot, if_neg hki] at ht
      exact Or.inr (h.device.typed k hk ht)
  · obtain ⟨hl, hs⟩ := h.copy e y hy ht
    rw [hlive, hold hl]
    exact ⟨Or.inr hl, hs⟩
  · obtain ⟨h2, hav⟩ := h.torn c hc
    rw [hfree]
    exact ⟨h2, fun h3 ha => hav h3 (Avail.of_takeBlock ha)⟩
  · constructor
    · rintro ⟨k, hk, hkc⟩
      rcases (hlive k).mp hk with rfl | hl
      · rw [hslot, if_pos rfl, hblock] at hkc
        exact Or.inl hkc.symm
      · rw [hold hl] at hkc
        exact Or.inr ⟨k, hl, hkc⟩
    · rintro (rfl | ⟨k, hl, hkc⟩)
      · refine ⟨i, (hlive i).mpr (Or.inl rfl), ?_⟩
        rw [hslot, if_pos rfl, hblock]
      · exact ⟨k, (hlive k).mpr (Or.inr hl), by rw [hold hl, hkc]⟩

/-- The child of a create is being entered in the directory `x` of dentry `p`: the slots and the
blocks are as they were. -/
structure Fs.Entering (fs fs' : Fs) (p : Nat) (x : Dentry) : Prop where
  keeps : KeepsBlocks fs fs'
  slot : ∀ k, k < slotsPerBlock → fs'.dev.slot k = fs.dev.slot k
  dentry : ∃ x', fs'.dentries p = some x' ∧ x'.inode.Same x.inode

/-- Its record is written, inside the directory's block whatever the length of the name, ... -/
theorem Fs.Orderly.addRecord (h : fs.Orderly) (hx : fs.dentries p = some x)
    (hd : isDir x.inode.mode = true) {ino : BitVec 64} {u : Unit}
    (hr : addRecord p name ino fs = .ok (u, fs')) : fs.Entering fs' p x := by
  obtain ⟨x', c, e, hx', -, -, hlt, rfl⟩ := addRecord_ok hr
  cases hx.symm.trans hx'
  have hagree := Device.agreeOff_putRecord_block fs.dev x.inode.block ino hlt.1 hlt.2
  obtain ⟨ho, hk, hslot⟩ := h.write_block hx (Or.inr hd) hagree (by omega) (by omega)
  refine ⟨⟨ho.setDentry hx (.refl _) fun _ _ => hd, hk⟩, hslot, ?_⟩
  rw [Fs.recorded, Fs.setDentry_dentries, if_pos rfl]
  exact ⟨_, rfl, .refl _⟩

/-- ... and it is counted. -/
theorem Fs.Entering.countChild {fs1 : Fs} (h : fs.Entering fs1 p x)
    (hd : isDir x.inode.mode = true) {u : Unit} (hr : countChild p fs1 = .ok (u, fs')) :
    fs.Entering fs' p x := by
  obtain ⟨x1, hx1, hsame⟩ := h.dentry
  rw [countChild_eq hx1] at hr
  cases hr
  refine ⟨⟨h.keeps.orderly.setDentry hx1 ⟨rfl, rfl, rfl⟩ fun _ _ => ?_, h.keeps.kept⟩, h.slot,
    _, (Fs.setDentry_dentries _ _ _ _).trans (if_pos rfl), ⟨hsame.mode, hsame.inodeNo,
      hsame.dataBlockNumber⟩⟩
  rw [hsame.mode]
  exact hd

/-- Saving the directory leaves the slots of the others. -/
theorem Fs.Entering.inodeSave {fs1 : Fs} (h : fs.Entering fs1 p x)
    (hd : isDir x.inode.mode = true) (hi : i < slotsPerBlock) (hne : x.slot ≠ i) :
    wlp quiet (simplefsInodeSave p)
      (fun ret fs' => ret = 0 ∧ KeepsBlocks fs fs' ∧ fs'.dev.slot i = fs.dev.slot i) fs1 := by
  obtain ⟨x1, hx1, hsame⟩ := h.dentry
  refine Prog.wlp_mono (orderly_inodeSave h.keeps.orderly hx1 (hsame.symm.typed (Or.inr hd))) ?_
  rintro ret fs' ⟨hret, hk, rfl⟩
  have hslot : x1.slot = x.slot := by rw [Dentry.slot, hsame.inodeNo, Dentry.slot]
  refine ⟨hret, ⟨hk.orderly, h.keeps.kept.trans hk.kept⟩, ?_⟩
  rw [← h.slot i hi]
  exact (Device.slot_setSlot _ _ _ _).trans (if_neg fun heq => hne (hslot ▸ heq.symm))

/-- **The rest of a create** hands out no more blocks. -/
theorem orderly_createTail (h : fs.Orderly) (hx : fs.dentries p = some x)
    (hd : isDir x.inode.mode = true) {v : SfsInode} (hi : i < slotsPerBlock)
    (hv : fs.dev.slot i = v ∧ v.inodeNo = inoOf i) (hne : x.slot ≠ i) :
    wlp quiet (createTail p name v) (fun _ fs' => KeepsBlocks fs fs') fs := by
  refine wlp_createTail (fun _ _ hr => h.addRecord hx hd hr) (fun _ h1 _ => h1.keeps)
    (fun _ _ _ h1 hr => h1.countChild hd hr) (fun _ h2 => h2.inodeSave hd hi hne)
    (fun _ _ h3 hret => absurd h3.1 hret) fun fs3 h3 => ?_
  obtain ⟨-, hk, hslot⟩ := h3
  refine ⟨hk.orderly.dAdd (fun ht => ?_) p name, hk.kept⟩
  rw [hv.2, slotIndex_inoOf hi, hslot, hv.1]
  refine ⟨hk.orderly.device.typed i hi ?_, .refl _⟩
  rw [hslot, hv.1]
  exact ht

/-- What a create does to the blocks: if it starts it takes one, unless there is none. -/
def CreateMoves (fs fs' : Fs) (mode : BitVec 16) : Prop :=
  (fs.CreateStarts mode quiet → freeBlockScan fs.dev.freeBlocks = none) ∧
      BlocksKept fs.dev fs'.dev ∨
    fs.CreateStarts mode quiet ∧ ∃ b, BlockTaken fs.dev fs'.dev b

/-- A create that passes the two checks starts. -/
theorem createStarts_of_checks (hfull : ¬ maxObjects ≤ fs.dev.inodesCount.toNat)
    (hmode : ¬ (!isDir (mode.setWidth 32) && !isReg (mode.setWidth 32)) = true) :
    fs.CreateStarts mode quiet := by
  refine ⟨rfl, rfl, Nat.not_le.mp hfull, ?_⟩
  by_contra hno
  rw [not_or] at hno
  exact hmode (by simp [hno.1, hno.2])

/-- `simplefs_sb_get_objects_count`, uninterrupted. -/
theorem quiet_getObjectsCount : wlp quiet simplefsSbGetObjectsCount
    (fun r fs' => (∃ n, r = .ok n ∧ fs.dev.inodesCount = n) ∧ fs = fs') fs := by
  refine quiet_lock ?_
  exact wlp_read fun n hn => ⟨⟨n, rfl, hn⟩, rfl⟩

/-- `simplefs_sb_get_a_freeblock`, uninterrupted. -/
theorem quiet_getAFreeblock : wlp quiet simplefsSbGetAFreeblock
    (fun r fs' => (∃ err, r = .error err) ∧ freeBlockScan fs.dev.freeBlocks = none ∧ fs = fs' ∨
      ∃ b, r = .ok b ∧ freeBlockScan fs.dev.freeBlocks = some b ∧ fs' = fs.taken b) fs := by
  refine quiet_lock ?_
  refine wlp_stepObs fun r fs1 hr => ?_
  unfold takeFreeBlock at hr
  split at hr
  · rename_i b hscan
    cases hr
    exact Or.inr ⟨b, rfl, hscan, rfl⟩
  · rename_i hscan
    cases hr
    exact Or.inl ⟨⟨_, rfl⟩, hscan, rfl⟩

/-- `simplefs_inode_add`, uninterrupted, of the inode of a create that got block `b`. -/
theorem quiet_inodeAdd (hi : i < 63) (b : Nat) : wlp quiet
    (simplefsInodeAdd (newInode mode (i + 1) b)) (fun _ fs' => fs' = fs.added mode i b)
      (fs.taken b) := by
  refine quiet_lock ?_
  refine quiet_lock ?_
  refine wlp_stepObs fun u fs1 hr => ?_
  have heq : Simplefs.addInode (newInode mode (i + 1) b) (fs.taken b) =
      .ok ((), fs.added mode i b) := addInode_eq hi rfl
  rw [heq] at hr
  cases hr
  rfl

/-- **A create**, uninterrupted. -/
theorem orderly_create (h : fs.Orderly) (hx : fs.DirAt p x) (name : Name) (mode : BitVec 16) :
    wlp quiet (simplefsCreateFsObject p name mode)
      (fun _ fs' => fs'.Orderly ∧ CreateMoves fs fs' mode) fs := by
  refine wlp_step fun _ fs1 hr => ?_
  obtain rfl := bugOnNoCache_state hr
  refine quiet_lock ?_
  refine wlp_bind quiet_getObjectsCount ?_
  rintro _ _ ⟨⟨count, rfl, hcount⟩, rfl⟩
  simp only
  split
  · rename_i hfull
    rw [← hcount] at hfull
    exact ⟨h, Or.inl ⟨fun hst => absurd hfull (Nat.not_le.mpr hst.2.2.1), .refl _⟩⟩
  rename_i hfull
  rw [← hcount] at hfull
  split
  · rename_i hmode
    refine ⟨h, Or.inl ⟨fun hst => ?_, .refl _⟩⟩
    rcases hst.2.2.2 with hd | hf
    · rw [hd] at hmode
      cases hmode
    · rw [hf, Bool.not_true, Bool.and_false] at hmode
      cases hmode
  rename_i hmode
  have hst : fs.CreateStarts mode quiet := createStarts_of_checks hfull hmode
  refine wlp_stepObs fun n fs1 hr => ?_
  obtain ⟨hffz, rfl⟩ := pickInodeNumber_ok hr
  obtain ⟨i, rfl, hi63, hdead⟩ := h.device.store.ffz_some hffz
  refine wlp_bind quiet_getAFreeblock ?_
  rintro r fs1 (⟨⟨err, rfl⟩, hscan, rfl⟩ | ⟨b, rfl, hscan, rfl⟩)
  · exact ⟨h, Or.inl ⟨fun _ => hscan, .refl _⟩⟩
  obtain ⟨hadd, htaken⟩ := h.added mode hi63 hdead hscan
  refine wlp_bind (quiet_inodeAdd hi63 b) ?_
  rintro _ _ rfl
  have hx' : (fs.added mode i b).dentries p = some x := hx.1
  have hne : x.slot ≠ i := fun heq => hdead (heq ▸ (h.copy p x hx.1 (Or.inr hx.2.2)).1)
  have hslot : (fs.added mode i b).dev.slot i = newInode mode (i + 1) b :=
    (Fs.SoundAt.slot_added i b i).trans (if_pos rfl)
  have htail : wlp quiet (createTail p name (newInode mode (i + 1) b))
      (fun _ fs' => KeepsBlocks (fs.added mode i b) fs') (fs.added mode i b) :=
    orderly_createTail hadd hx' hx.2.2 (Nat.lt_trans hi63 (by decide)) ⟨hslot, rfl⟩ hne
  have hmoves : wlp quiet (createTail p name (newInode mode (i + 1) b))
      (fun _ fs' => fs'.Orderly ∧ CreateMoves fs fs' mode) (fs.added mode i b) :=
    Prog.wlp_mono htail fun _ _ hk => ⟨hk.orderly, Or.inr ⟨hst, b, htaken.trans hk.kept⟩⟩
  exact hmoves

end Create

/-! ## 5. An unlink -/

section Unlink

variable {fs fs' : Fs} {e : Nat} {y : Dentry}

/-- A regular file's block is not the root's. -/
theorem Fs.Orderly.three_le_block (h : fs.Orderly) (hy : fs.dentries e = some y)
    (hreg : isReg y.inode.mode = true) : 3 ≤ y.inode.block ∧ y.inode.block < 64 := by
  obtain ⟨hl, hs⟩ := h.copy e y hy (Or.inl hreg)
  obtain ⟨h2, h34⟩ := h.device.store.block _ hl
  obtain ⟨hroot, hdir, hrb⟩ := h.device.root
  have hne : (fs.dev.slot y.slot).block ≠ 2 := by
    intro heq
    have h0 := h.device.store.block_inj _ _ hl hroot (heq.trans hrb.symm)
    rw [h0] at hs
    rw [← hs.mode] at hdir
    exact not_isReg_of_isDir hdir hreg
  rw [hs.block]
  omega

/-- **An unlink**, uninterrupted, loses the block. -/
theorem orderly_unlink (h : fs.Orderly) (hy : fs.dentries e = some y)
    (hreg : isReg y.inode.mode = true) : wlp quiet (vfsUnlink e)
      (fun _ fs' => BlockLost fs.dev fs'.dev y.inode.block) fs := by
  have ht : y.inode.Typed := Or.inl hreg
  obtain ⟨hl, hno, hblk⟩ := h.number hy ht
  have hi63 : y.slot < 63 := (h.device.store.slots _ hl).2
  have hun : wlp quiet (simplefsUnlink e)
      (fun _ fs' => BlockLost fs.dev fs'.dev y.inode.block) fs := by
    refine wlp_step fun r fs1 hr => ?_
    obtain ⟨y', x, c, entry, ⟨hy', hx, hc, -, hlt⟩, rfl, rfl⟩ := removeRecord_ok hr
    cases hy.symm.trans hy'
    have hd := h.cached _ x c hx hc
    have hlt : entry.entryNo < 15 := hlt
    have hagree := Device.agreeOff_clearRecord fs.dev x.inode.block entry.entryNo
    obtain ⟨ho, hk, hslot⟩ := h.write_block hx (Or.inr hd) hagree (by omega) (by omega)
    have hsame : (x.without c entry).inode.Same x.inode := ⟨rfl, rfl, rfl⟩
    have h1 : (fs.unrecorded y.parent x c entry).Orderly := ho.setDentry hx hsame fun _ _ => hd
    have hx1 : (fs.unrecorded y.parent x c entry).dentries y.parent = some (x.without c entry) :=
      (Fs.setDentry_dentries _ _ _ _).trans (if_pos rfl)
    refine wlp_bind (orderly_inodeSave h1 hx1 (Or.inr hd)) ?_
    rintro ret fs2 ⟨-, h2, hfs2⟩
    refine wlp_bind (R := fun _ fs' => fs'.dev = fs2.dev.delAt y.slot) ?_ ?_
    · refine quiet_lock ?_
      refine quiet_lock ?_
      refine wlp_step fun u fs3 hr => ?_
      rw [hno, delInode_eq hi63] at hr
      cases hr
      rfl
    intro u fs3 hdev
    have hkept := hk.trans h2.kept
    have hs2 := h1.same_setSlot hx1 (Or.inr hd) y.slot
    change ((fs.dev.clearRecord x.inode.block entry.entryNo).slot y.slot).Same _ at hs2
    rw [hslot y.slot hl.1] at hs2
    have hl2 : fs2.dev.Live y.slot := by
      rw [hfs2]
      exact (Device.live_congr_no hs2.inodeNo.symm).mpr hl
    have hb2 : (fs2.dev.slot y.slot).block = y.inode.block := by
      rw [hfs2]
      exact hs2.block.symm.trans hblk
    change BlockLost fs.dev fs3.dev y.inode.block
    rw [hdev]
    refine ⟨h.three_le_block hy hreg, ?_, ⟨_, hl, hblk⟩, ?_⟩
    · rw [Device.freeBlocks_delAt]
      exact hkept.freeBlocks
    -- no other inode had the block
    rintro ⟨k, hk', hkb⟩
    obtain ⟨hne, hk2⟩ := (Device.live_delAt _ _ _).mp hk'
    rw [Device.slot_delAt, if_neg hne] at hkb
    exact hne (h2.orderly.device.store.block_inj k y.slot hk2 hl2 (hkb.trans hb2.symm))
  refine wlp_bind hun fun ret fs1 h1 => ?_
  split
  · intro u fs2 hr
    obtain ⟨y1, hy1, hr⟩ := Fs.of_bind_dentry hr
    cases hr
    exact h1
  · exact h1

end Unlink

/-! ## 6. Runs -/

/-- The call takes no block but one of the blocks 3 to 30, and unlinks nothing. -/
def Op.KeepsAccounts (fs : Fs) : Op → Prop
  | .create _ _ mode => fs.CreateStarts mode quiet → fs.dev.HasLowBlock
  | .mkdir _ _ mode => fs.CreateStarts (0x4000 ||| mode) quiet → fs.dev.HasLowBlock
  | .unlink _ => False
  | _ => True

def Event.KeepsAccounts (ev : Event) (s : Sys) : Prop :=
  ∀ op intr fs, ev = .call op intr → s.mnt = .mounted fs → op.KeepsAccounts fs

/-- Nobody interrupts it. -/
def Event.Quiet (ev : Event) : Prop := ∀ op intr, ev = .call op intr → intr = quiet

/-- The inodes of a system are in order. -/
def Sys.Orderly (s : Sys) : Prop :=
  match s.mnt with
  | .offline dev => ∃ imap, dev.Orderly imap
  | .mounted fs => fs.Orderly

/-- An uninterrupted step that keeps the accounts. -/
def AccountStep (s s' : Sys) : Prop :=
  ∃ ev : Event, ev.Allowed s ∧ ev.Quiet ∧ ev.KeepsAccounts s ∧ ev.apply s = some s'

/-- The states that uninterrupted runs of such steps reach. -/
def AccountRun : Sys → Sys → Prop := Relation.ReflTransGen AccountStep

section Runs

variable {fs fs' : Fs} {s s' : Sys} {ev : Event}

theorem accounted_of_kept (ha : fs.dev.Accounted) (hk : KeepsBlocks fs fs') {P : Prop} (hp : P) :
    (fs'.dev.Accounted ↔ P) ∧ (P → fs'.Orderly) :=
  ⟨iff_of_true (hk.kept.accounted_iff.mpr ha) hp, fun _ => hk.orderly⟩

/-- In an exact word there is a block to be found. -/
theorem scan_ne_none (h : fs.Orderly) (ha : fs.dev.Accounted) :
    freeBlockScan fs.dev.freeBlocks ≠ none := by
  intro hno
  exact h.device.store.high.scan_none hno (b := 31) (by omega) (by omega)
    (avail_31 h.device.store ha)

theorem accounted_of_create {mode : BitVec 16} (h : fs.Orderly) (ha : fs.dev.Accounted)
    (ho : fs'.Orderly) (hm : CreateMoves fs fs' mode) :
    (fs'.dev.Accounted ↔ (fs.CreateStarts mode quiet → fs.dev.HasLowBlock)) ∧
      ((fs.CreateStarts mode quiet → fs.dev.HasLowBlock) → fs'.Orderly) := by
  refine ⟨?_, fun _ => ho⟩
  rcases hm with ⟨hno, hk⟩ | ⟨hst, b, hb⟩
  · refine iff_of_true (hk.accounted_iff.mpr ha) fun hst => ?_
    exact absurd (hno hst) (scan_ne_none h ha)
  · rw [hb.accounted_iff h.device.store ha]
    exact ⟨fun hlow _ => hlow, fun hlow => hlow hst⟩

/-- **One call.** -/
theorem Op.accounts {op : Op} (h : fs.Orderly) (ha : fs.dev.Accounted) (hal : op.Allowed fs) :
    wlp quiet op.code (fun _ fs' => (fs'.dev.Accounted ↔ op.KeepsAccounts fs) ∧
      (op.KeepsAccounts fs → fs'.Orderly)) fs := by
  cases op with
  | iterate d pos =>
    obtain ⟨x, hx⟩ := hal
    exact wlp_bind (orderly_iterate h hx pos) fun _ _ hk => accounted_of_kept ha hk trivial
  | lookup p name =>
    exact wlp_bind (orderly_lookup h p name) fun _ _ hk => accounted_of_kept ha hk trivial
  | create p name mode =>
    obtain ⟨x, hx, -⟩ := hal
    exact wlp_bind (orderly_create h hx name mode) fun _ _ hm =>
      accounted_of_create h ha hm.1 hm.2
  | mkdir p name mode =>
    obtain ⟨x, hx, -⟩ := hal
    exact wlp_bind (orderly_create h hx name (0x4000 ||| mode)) fun _ _ hm =>
      accounted_of_create h ha hm.1 hm.2
  | unlink e =>
    obtain ⟨-, y, hy, -, hreg⟩ := hal
    exact Prog.wlp_mono (orderly_unlink h hy hreg) fun _ _ hlost =>
      ⟨iff_of_false (hlost.not_accounted ha) id, fun hf => hf.elim⟩
  | read d ppos len userOk =>
    refine wlp_bind (R := fun _ fs' => fs = fs') (fun r fs1 hr => (readFile_state hr).symm) ?_
    rintro _ _ rfl
    exact accounted_of_kept ha ⟨h, .refl _⟩ trivial
  | write d ppos data copied =>
    obtain ⟨x, hx, hreg⟩ := hal
    exact wlp_bind (orderly_write h hx hreg ppos data copied) fun _ _ hk =>
      accounted_of_kept ha hk trivial
  | release d =>
    exact Prog.wlp_mono (orderly_release h d) fun _ _ hk => accounted_of_kept ha hk trivial

/-- A mount makes a copy of the root's inode. -/
theorem mountedFs_orderly {dev : Device} {imap : BitVec 64} (h : dev.Orderly imap)
    (past : BitVec 64) : (mountedFs dev imap past).Orderly := by
  obtain ⟨hroot, hdir, -⟩ := h.root
  have hnum : slotIndex (dev.slot 0).inodeNo = 0 := by
    rw [(h.store.slots 0 hroot).1, slotIndex_inoOf (by omega)]
  refine ⟨h, fun e y hy _ => ?_, fun e y c hy hc => ?_, fun b hno => absurd rfl hno⟩
  · obtain ⟨-, rfl⟩ := mountedFs_dentries hy
    simp only [Dentry.slot, hnum]
    exact ⟨hroot, .refl _⟩
  · obtain ⟨-, rfl⟩ := mountedFs_dentries hy
    cases hc

/-- **One event.** -/
theorem Event.accounts (h : s.Orderly) (ha : s.dev.Accounted) (hal : ev.Allowed s)
    (hq : ev.Quiet) (happ : ev.apply s = some s') :
    (s'.dev.Accounted ↔ ev.KeepsAccounts s) ∧ (ev.KeepsAccounts s → s'.Orderly) := by
  have hkeeps : (∀ op intr, ev ≠ .call op intr) → ev.KeepsAccounts s :=
    fun hno op intr _ hev _ => absurd hev (hno op intr)
  cases Event.leadsTo happ with
  | refused => exact ⟨iff_of_true ha (hkeeps nofun), fun _ => h⟩
  | @mount lk dev past imap hmap =>
    obtain ⟨imap', hdev⟩ := h
    rw [hdev.store.fillImap] at hmap
    cases hmap
    exact ⟨iff_of_true ha (hkeeps nofun), fun _ => mountedFs_orderly hdev past⟩
  | @umount lk fs =>
    have ho : fs.Orderly := h
    exact ⟨iff_of_true (ho.kept_flushed.accounted_iff.mpr ha) (hkeeps nofun),
      fun _ => ⟨fs.imap, ho.flushed⟩⟩
  | @call lk lk' op intr fs fs' hrun =>
    obtain rfl := hq op intr rfl
    have hend := Prog.wlp_run (Op.accounts h ha (hal op quiet fs rfl rfl)) hrun
    have hop : (Event.call op quiet).KeepsAccounts ⟨lk, .mounted fs⟩ ↔ op.KeepsAccounts fs := by
      refine ⟨fun hk => hk op quiet fs rfl rfl, fun hk op' intr' fs0 hev hm => ?_⟩
      cases hev
      cases hm
      exact hk
    rw [hop]
    exact hend

/-- **Every run.** -/
theorem AccountRun.accounts (hrun : AccountRun s s') (h : s.Orderly) (ha : s.dev.Accounted) :
    s'.Orderly ∧ s'.dev.Accounted := by
  induction hrun with
  | refl => exact ⟨h, ha⟩
  | tail _ hstep ih =>
    obtain ⟨ev, hal, hq, hk, happ⟩ := hstep
    obtain ⟨hiff, ho⟩ := Event.accounts ih.1 ih.2 hal hq happ
    exact ⟨ho hk, hiff.mpr hk⟩

end Runs

/-! ### From a fresh image -/

theorem freshDevice.orderly : freshDevice.Orderly 7#64 := by
  refine ⟨store, ⟨live_iff.mpr (by omega), ?_, block_zero⟩, fun i hi ht => ?_⟩
  · rw [slot_zero]
    decide
  · rw [live_iff]
    by_contra h2
    rw [slot_rest (by omega) hi] at ht
    rcases ht with ht | ht <;> exact absurd ht (by decide)

/-- Block 3 is the welcome file's, and no other block from there on is anybody's. -/
theorem freshDevice.accounted : freshDevice.Accounted := by
  intro b hb hb'
  have huse : freshDevice.InUse b ↔ b = 3 := by
    constructor
    · rintro ⟨i, hl, hi⟩
      rcases lt_two_cases (live_iff.mp hl) with rfl | rfl
      · rw [block_zero] at hi
        omega
      · rw [block_one] at hi
        exact hi.symm
    · rintro rfl
      exact ⟨1, live_iff.mpr (by omega), block_one⟩
  rw [freeBlocks, getLsbD_initialFreeBlocks hb', huse, Bool.not_eq_true', decide_eq_false_iff_not]

/-- **The free-block word is exact as long as no file is unlinked and no create has to take block
31**, in every state of an uninterrupted run; **and the first step that does either breaks it.** -/
theorem AccountRun.keepsAccounts_iff {size : Nat} {dev : Device} {s : Sys}
    (hmk : mkfs zeroMem size = (0, dev))
    (hrun : AccountRun ⟨LockState.free, .offline dev⟩ s) :
    s.dev.Accounted ∧ ∀ (ev : Event) (s' : Sys), ev.Allowed s → ev.Quiet → ev.apply s = some s' →
      (s'.dev.Accounted ↔ ev.KeepsAccounts s) := by
  rw [mkfs_ok hmk] at hrun
  obtain ⟨ho, ha⟩ := hrun.accounts ⟨_, freshDevice.orderly⟩ freshDevice.accounted
  exact ⟨ha, fun ev s' hal hq happ => (Event.accounts ho ha hal hq happ).1⟩

/-- A call as a step of such a run. -/
theorem AccountStep.call {op : Op} {lk lk' : LockState Lock} {fs fs' : Fs} (ha : op.Allowed fs)
    (hk : op.KeepsAccounts fs) (h : Prog.run quiet op.code lk fs = (.returned () fs', lk')) :
    AccountStep ⟨lk, .mounted fs⟩ ⟨lk', .mounted fs'⟩ := by
  refine ⟨.call op quiet, ?_, ?_, ?_, Event.apply_call h⟩
  · intro op' intr' fs0 hev hm
    cases hev
    cases hm
    exact ha
  · intro op' intr' hev
    cases hev
    rfl
  · intro op' intr' fs0 hev hm
    cases hev
    cases hm
    exact hk

theorem AccountRun.listed :
    AccountRun ⟨LockState.free, .offline freshDevice⟩ ⟨LockState.free, .mounted listedFs⟩ := by
  have hmount : AccountStep ⟨LockState.free, .offline freshDevice⟩
      ⟨LockState.free, .mounted freshFs⟩ := by
    refine ⟨.mount 0#64, fun op intr fs hev => ?_, fun op intr hev => ?_, fun op intr fs hev => ?_,
      Event.apply_mount_fresh⟩
    · cases hev
    · cases hev
    · cases hev
  have ha : (Op.iterate 0 0).Allowed freshFs := ⟨_, freshFs_root⟩
  have hr : Prog.run quiet (Op.iterate 0 0).code LockState.free freshFs =
      (.returned () listedFs, LockState.free) := run_iterate freshFs_root.1 0
  exact (Relation.ReflTransGen.single hmount).tail (.call ha trivial hr)

/-- A new file in the root gets block 4, and the word is exact before and after. -/
theorem AccountRun.keepsAccounts_iff_listed : listedFs.dev.Accounted ∧
    ∃ fs', Prog.run quiet (Op.create 0 newName 0x81a4).code LockState.free listedFs =
      (.returned () fs', LockState.free) ∧ fs'.dev.Accounted := by
  obtain ⟨hacc, hiff⟩ := AccountRun.keepsAccounts_iff mkfs_fresh AccountRun.listed
  have ha : (Op.create 0 newName 0x81a4).Allowed listedFs := listedFs_newName
  have hd : (Op.create 0 newName 0x81a4).Defined listedFs := ⟨listedFs_hasFreeEntry, by decide⟩
  have hw : (Op.create 0 newName 0x81a4).WorksIn listedFs 0 := rfl
  obtain ⟨fs', hrun, -⟩ := listedFs_inv.run_worksIn hw ha hd
  have hlow : listedFs.dev.HasLowBlock := by
    refine ⟨4, by omega, by omega, ?_⟩
    have hfree : listedFs.dev.freeBlocks = initialFreeBlocks := freshDevice.freeBlocks
    rw [hfree]
    decide
  refine ⟨hacc, fs', hrun, (hiff (.call (.create 0 newName 0x81a4) quiet)
    ⟨LockState.free, .mounted fs'⟩ (fun op intr fs hev hm => ?_) (fun op intr hev => ?_)
    (Event.apply_call hrun)).mpr fun op intr fs hev hm => ?_⟩
  · cases hev
    cases hm
    exact ha
  · cases hev
    rfl
  · cases hev
    cases hm
    exact fun _ => hlow

/-- **The welcome file, unlinked**: bit 3 stays clear, and nobody has block 3. -/
theorem staleFs_not_accounted :
    DefinedRun ⟨LockState.free, .offline freshDevice⟩ ⟨LockState.free, .mounted staleFs⟩ ∧
      ¬ staleFs.dev.Accounted := by
  refine ⟨DefinedRun.stale, fun ha => ?_⟩
  have hget : usedCacheEntryGet (dirCacheOf freshFs freshRoot) welcomeDentry.name =
      some welcomeEntry := by
    rw [usedCacheEntryGet_listed]
    exact if_pos rfl
  have h15 := (foundFs_unlinkable.hasEntryOf foundFs_inv hget).2.2.2.2
  have hlost : staleFs.Lost 3 := foundFs_unlinkable.lost foundFs_inv h15
  have hunused : ¬ staleFs.dev.InUse 3 := fun ⟨i, hl, hi⟩ => hlost.unused i hl hi
  exact hlost.taken (Nat.le_refl 3) ((ha 3 (by omega) (by omega)).mpr hunused)

end Simplefs
