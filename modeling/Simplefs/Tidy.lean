/-
# Blocks and numbers, on a device that was in use before

`mkfs` writes the first four blocks and leaves the others alone, so a directory can come into being
on a block full of old bytes, and then its records say anything.  What still holds, in every run
and whatever is interrupted: a file or a directory has a data block that is not up for allocation,
a slot of the inode store is empty or holds its own number, the bitmap in memory is that of the
slots, and live inodes and available blocks together never become more.

Nothing here looks at a record of a directory.
-/
import Simplefs.Accounts
import Simplefs.Listed

namespace Simplefs

open Prog (run LockState wlp wlp_step wlp_stepObs wlp_lock wlp_unlock wlp_read wlp_bind)

/-! ## 1. The invariant -/

/-- The inode of a file or of a directory has a data block, and it is not up for allocation. -/
def SfsInode.Housed (v : SfsInode) (free : BitVec 64) : Prop :=
  v.Typed → 2 ≤ v.block ∧ (3 ≤ v.block → ¬ Avail free v.block)

/-- The blocks that can still be handed out. -/
def availBlocks (free : BitVec 64) : Finset Nat :=
  (Finset.range 35).filter fun b => 3 ≤ b ∧ free.getLsbD (b % 32) = true

/-- The device is in order, with at most `n` live inodes and available blocks together. -/
structure Device.Tidy (dev : Device) (n : Nat) : Prop where
  high : HighTogether dev.freeBlocks
  housed : ∀ i, i < slotsPerBlock → (dev.slot i).Housed dev.freeBlocks
  slots : ∀ i, dev.Live i → (dev.slot i).inodeNo = inoOf i ∧ i < 63
  count : dev.liveSlots.card + (availBlocks dev.freeBlocks).card ≤ n

/-- And so is the mounted filesystem: its bitmap is that of the slots, and the inodes in memory
have their blocks like those of the store. -/
structure Fs.Tidy (fs : Fs) (n : Nat) : Prop where
  device : fs.dev.Tidy n
  imap_zero : fs.imap.getLsbD 0 = true
  imap_iff : ∀ i, i < 63 → (fs.imap.getLsbD (i + 1) = true ↔ fs.dev.Live i)
  housed : ∀ d x, fs.dentries d = some x → x.inode.Housed fs.dev.freeBlocks
  cached : ∀ d x c, fs.dentries d = some x → x.fsdata = some c → isDir x.inode.mode = true
  torn : fs.DataTorn

theorem mem_availBlocks {free : BitVec 64} {b : Nat} :
    b ∈ availBlocks free ↔ (3 ≤ b ∧ b ≤ 34) ∧ Avail free b := by
  rw [availBlocks, Finset.mem_filter, Finset.mem_range, Avail, Nat.lt_succ_iff, and_left_comm,
    and_assoc]

/-- Taking an available block leaves one less. -/
theorem card_availBlocks_takeBlock {free : BitVec 64} {b : Nat} (h3 : 3 ≤ b) (h34 : b ≤ 34)
    (ha : Avail free b) :
    (availBlocks (takeBlock free b)).card + 1 = (availBlocks free).card := by
  have herase : availBlocks (takeBlock free b) = (availBlocks free).erase b := by
    ext c
    rw [Finset.mem_erase, mem_availBlocks, mem_availBlocks]
    constructor
    · rintro ⟨hc, hac⟩
      obtain ⟨hac, hne⟩ := (avail_takeBlock h3 h34 hc.1 hc.2).mp hac
      exact ⟨hne, hc, hac⟩
    · rintro ⟨hne, hc, hac⟩
      exact ⟨hc, (avail_takeBlock h3 h34 hc.1 hc.2).mpr ⟨hac, hne⟩⟩
  rw [herase]
  exact Finset.card_erase_add_one (mem_availBlocks.mpr ⟨⟨h3, h34⟩, ha⟩)

namespace SfsInode.Housed

variable {v w : SfsInode} {free free' : BitVec 64}

theorem mono (h : v.Housed free) (hle : ∀ b, Avail free' b → Avail free b) : v.Housed free' :=
  fun ht => ⟨(h ht).1, fun h3 ha => (h ht).2 h3 (hle _ ha)⟩

/-- The size makes no difference. -/
theorem resize (h : v.Housed free) (size : BitVec 64) :
    SfsInode.Housed { v with fileSize := size } free := h

end SfsInode.Housed

/-- An empty slot has no type. -/
theorem housed_zero (free : BitVec 64) : SfsInode.zero.Housed free := by
  rintro (h | h) <;> exact absurd h (by decide)

namespace Device.Tidy

variable {dev dev' : Device} {n : Nat}

/-- The slots and the free blocks are the same. -/
theorem of_slots (h : dev.Tidy n) (hf : dev'.freeBlocks = dev.freeBlocks)
    (hs : ∀ i, i < slotsPerBlock → dev'.slot i = dev.slot i) : dev'.Tidy n := by
  have hlive : ∀ i, dev'.Live i ↔ dev.Live i := fun i =>
    and_congr_right fun hi => by rw [hs i hi]
  refine ⟨by rw [hf]; exact h.high, fun i hi => ?_, fun i hl => ?_, ?_⟩
  · rw [hs i hi, hf]
    exact h.housed i hi
  · rw [hs i hl.1]
    exact h.slots i ((hlive i).mp hl)
  · have hset : dev'.liveSlots = dev.liveSlots := by
      ext i
      rw [mem_liveSlots, mem_liveSlots, hlive]
    rw [hset, hf]
    exact h.count

/-- A slot is written under the number it has. -/
theorem setSlot (h : dev.Tidy n) {i : Nat} {v : SfsInode} (hv : v.Housed dev.freeBlocks)
    (hno : v.inodeNo = (dev.slot i).inodeNo) : (dev.setSlot i v).Tidy n := by
  have hlive := Device.live_setSlot dev hno
  refine ⟨by rw [freeBlocks_setSlot]; exact h.high, fun k hk => ?_, fun k hl => ?_, ?_⟩
  · rw [freeBlocks_setSlot, slot_setSlot]
    split
    · exact hv
    · exact h.housed k hk
  · have hk := h.slots k ((hlive k).mp hl)
    refine ⟨?_, hk.2⟩
    rw [slot_setSlot]
    split
    · rename_i hki
      rw [hno, ← hki, hk.1]
    · exact hk.1
  · have hset : (dev.setSlot i v).liveSlots = dev.liveSlots := by
      ext k
      rw [mem_liveSlots, mem_liveSlots, hlive]
    rw [hset, freeBlocks_setSlot]
    exact h.count

/-- An inode comes into its slot. -/
theorem addAt (h : dev.Tidy n) {i : Nat} {v : SfsInode} (hi : i < 63)
    (hv : v.Housed dev.freeBlocks) (hno : v.inodeNo = inoOf i) : (dev.addAt i v).Tidy (n + 1) := by
  have hi128 : i < 128 := by omega
  have hlive := Device.live_addAt dev hi128 (hno ▸ inoOf_ne_zero hi128)
  refine ⟨by rw [freeBlocks_addAt]; exact h.high, fun k hk => ?_, fun k hl => ?_, ?_⟩
  · rw [freeBlocks_addAt, slot_addAt]
    split
    · exact hv
    · exact h.housed k hk
  · rw [slot_addAt]
    split
    · rename_i hki
      rw [hno, hki]
      exact ⟨rfl, hi⟩
    · rename_i hki
      exact h.slots k (((hlive k).mp hl).resolve_left hki)
  · have hsub : (dev.addAt i v).liveSlots ⊆ insert i dev.liveSlots := by
      intro k hk
      rw [mem_liveSlots, hlive] at hk
      rw [Finset.mem_insert, mem_liveSlots]
      exact hk
    have hle := (Finset.card_le_card hsub).trans (Finset.card_insert_le _ _)
    have := h.count
    rw [freeBlocks_addAt]
    omega

/-- A slot is emptied. -/
theorem delAt (h : dev.Tidy n) (i : Nat) : (dev.delAt i).Tidy n := by
  have hlive := Device.live_delAt dev i
  refine ⟨by rw [freeBlocks_delAt]; exact h.high, fun k hk => ?_, fun k hl => ?_, ?_⟩
  · rw [freeBlocks_delAt, slot_delAt]
    split
    · exact housed_zero _
    · exact h.housed k hk
  · obtain ⟨hki, hl⟩ := (hlive k).mp hl
    rw [slot_delAt, if_neg hki]
    exact h.slots k hl
  · have hsub : (dev.delAt i).liveSlots ⊆ dev.liveSlots := by
      intro k hk
      rw [mem_liveSlots] at hk ⊢
      exact ((hlive k).mp hk).2
    have hle := Finset.card_le_card hsub
    have := h.count
    rw [freeBlocks_delAt]
    omega

/-- A block is taken. -/
theorem takeBlock (h : dev.Tidy n) {b : Nat} (hb : freeBlockScan dev.freeBlocks = some b) :
    3 ≤ b ∧ ¬ Avail (Simplefs.takeBlock dev.freeBlocks b) b ∧
      ∃ m, n = m + 1 ∧ (dev.setFreeBlocks (Simplefs.takeBlock dev.freeBlocks b)).Tidy m := by
  obtain ⟨h3, h34, ha⟩ := h.high.scan_some hb
  have hcard := card_availBlocks_takeBlock h3 h34 ha
  have hcount := h.count
  refine ⟨h3, fun ha' => ((avail_takeBlock h3 h34 h3 h34).mp ha').2 rfl, n - 1, by omega, ?_⟩
  refine ⟨?_, fun i hi => ?_, fun i hl => ?_, ?_⟩
  · rw [freeBlocks_setFreeBlocks]
    exact h.high.takeBlock b
  · rw [freeBlocks_setFreeBlocks, slot_setFreeBlocks]
    exact (h.housed i hi).mono fun _ => Avail.of_takeBlock
  · rw [slot_setFreeBlocks]
    exact h.slots i ((Device.live_congr (slot_setFreeBlocks _ _ _)).mp hl)
  · have hset : (dev.setFreeBlocks (Simplefs.takeBlock dev.freeBlocks b)).liveSlots =
        dev.liveSlots := by
      ext i
      rw [mem_liveSlots, mem_liveSlots, Device.live_congr (slot_setFreeBlocks _ _ _)]
    rw [hset, freeBlocks_setFreeBlocks]
    omega

/-- **With fewer than 63 of both, there is an empty slot** among those that have a bit. -/
theorem exists_dead (h : dev.Tidy n) (hn : n < 63) : ∃ i, i < 63 ∧ ¬ dev.Live i := by
  have hcard : dev.liveSlots.card < (Finset.range 63).card := by
    have := h.count
    rw [Finset.card_range]
    omega
  obtain ⟨i, hi, hdead⟩ := Finset.exists_mem_notMem_of_card_lt_card hcard
  rw [mem_liveSlots] at hdead
  exact ⟨i, Finset.mem_range.mp hi, hdead⟩

end Device.Tidy

theorem Device.Tidy.mono {dev : Device} {m n : Nat} (h : dev.Tidy m) (hle : m ≤ n) : dev.Tidy n :=
  ⟨h.high, h.housed, h.slots, h.count.trans hle⟩

namespace Fs.Tidy

variable {fs : Fs} {m n d : Nat} {x x' : Dentry} {v : SfsInode}

theorem mono (h : fs.Tidy m) (hle : m ≤ n) : fs.Tidy n :=
  ⟨h.device.mono hle, h.imap_zero, h.imap_iff, h.housed, h.cached, h.torn⟩

/-- The slots and the free blocks are the same. -/
theorem of_slots (h : fs.Tidy n) {dev : Device} (hf : dev.freeBlocks = fs.dev.freeBlocks)
    (hs : ∀ i, i < slotsPerBlock → dev.slot i = fs.dev.slot i) :
    Fs.Tidy { fs with dev := dev } n := by
  refine ⟨h.device.of_slots hf hs, h.imap_zero, fun i hi => ?_, fun e y hy => ?_, h.cached, h.torn⟩
  · have hlive : dev.Live i ↔ fs.dev.Live i := and_congr_right fun hi => by rw [hs i hi]
    exact (h.imap_iff i hi).trans hlive.symm
  · rw [hf]
    exact h.housed e y hy

/-- One dentry is written. -/
theorem setDentry (h : fs.Tidy n) (hv : x'.inode.Housed fs.dev.freeBlocks)
    (hc : ∀ c, x'.fsdata = some c → isDir x'.inode.mode = true) : (fs.setDentry d x').Tidy n := by
  refine ⟨h.device, h.imap_zero, h.imap_iff, fun e y hy => ?_, fun e y c hy => ?_, h.torn⟩
  · rw [Fs.setDentry_dentries] at hy
    split at hy
    · cases hy
      exact hv
    · exact h.housed e y hy
  · rw [Fs.setDentry_dentries] at hy
    split at hy
    · cases hy
      exact hc c
    · exact h.cached e y c hy

/-- A dentry is added. -/
theorem dAdd (h : fs.Tidy n) (hv : v.Housed fs.dev.freeBlocks) (p : Nat) (name : Name) :
    (fs.dAdd p name v).Tidy n := by
  refine ⟨h.device, h.imap_zero, h.imap_iff, fun e y hy => ?_, fun e y c hy hc => ?_, h.torn⟩
  · rw [Fs.dAdd_dentries] at hy
    split at hy
    · cases hy
      exact hv
    · exact h.housed e y hy
  · rw [Fs.dAdd_dentries] at hy
    split at hy
    · cases hy
      cases hc
    · exact h.cached e y c hy hc

/-- An inode is saved in a slot that has its number. -/
theorem setSlot (h : fs.Tidy n) {i : Nat} (hv : v.Housed fs.dev.freeBlocks)
    (hno : v.inodeNo = (fs.dev.slot i).inodeNo) :
    Fs.Tidy { fs with dev := fs.dev.setSlot i v } n := by
  refine ⟨h.device.setSlot hv hno, h.imap_zero, fun k hk => ?_, fun e y hy => ?_, h.cached, h.torn⟩
  · exact (h.imap_iff k hk).trans (Device.live_setSlot _ hno k).symm
  · rw [Device.freeBlocks_setSlot]
    exact h.housed e y hy

/-- **The number that `ffz` picks** is that of an empty slot. -/
theorem pick (h : fs.Tidy n) (hn : n < 63) :
    ∃ i, ffz fs.imap = some (i + 1) ∧ i < 63 ∧ ¬ fs.dev.Live i := by
  obtain ⟨j, hj, hdead⟩ := h.device.exists_dead hn
  have hbit : fs.imap.getLsbD (j + 1) = false := by
    rw [← Bool.not_eq_true, h.imap_iff j hj]
    exact hdead
  have hj64 : j + 1 < 64 := by omega
  obtain ⟨k, hk⟩ := ffz_ne_none hj64 hbit
  obtain ⟨hk64, hkbit⟩ := ffz_some hk
  obtain _ | i := k
  · rw [h.imap_zero] at hkbit
    cases hkbit
  · refine ⟨i, hk, by omega, fun hl => ?_⟩
    rw [(h.imap_iff i (by omega)).mpr hl] at hkbit
    cases hkbit

end Fs.Tidy

/-! ## 2. The pieces that write -/

/-- Still in order, with the same blocks free. -/
structure KeepsTidy (fs fs' : Fs) (n : Nat) : Prop where
  tidy : fs'.Tidy n
  freeBlocks : fs'.dev.freeBlocks = fs.dev.freeBlocks

section Pieces

variable {fs fs' : Fs} {intr : Site → Bool} {n d p : Nat} {name : Name} {ino : BitVec 64}

theorem KeepsTidy.refl (h : fs.Tidy n) : KeepsTidy fs fs n := ⟨h, rfl⟩

theorem KeepsTidy.trans {fs'' : Fs} (h : KeepsTidy fs fs' n) (h' : KeepsTidy fs' fs'' n) :
    KeepsTidy fs fs'' n := ⟨h'.tidy, h'.freeBlocks.trans h.freeBlocks⟩

/-- A write behind the inode store, and a directory's dentry changed besides. -/
theorem keepsTidy_write {dev : Device} {x x' : Dentry} {lo hi : Nat} (h : fs.Tidy n)
    (hx : fs.dentries d = some x) (hagree : AgreeOff lo hi fs.dev dev) (hlo : 8192 ≤ lo)
    (hs : x'.inode.Same x.inode) (hdir : isDir x.inode.mode = true) :
    KeepsTidy fs (Fs.setDentry { fs with dev := dev } d x') n := by
  have hf : dev.freeBlocks = fs.dev.freeBlocks := Device.freeBlocks_congr hagree (by omega)
  have h1 : Fs.Tidy { fs with dev := dev } n := h.of_slots hf fun i hi => by
    have hi' : i < 128 := hi
    exact Device.slot_congr hagree (by omega)
  have hhoused : x'.inode.Housed dev.freeBlocks := by
    intro ht
    rw [hf, hs.block]
    exact h.housed d x hx (hs.typed ht)
  refine ⟨h1.setDentry hhoused fun c _ => ?_, hf⟩
  rw [hs.mode]
  exact hdir

theorem tidy_addRecord (h : fs.Tidy n) {u : Unit} (hr : addRecord p name ino fs = .ok (u, fs')) :
    KeepsTidy fs fs' n := by
  obtain ⟨x, c, e, hx, hc, -, hlt, rfl⟩ := addRecord_ok hr
  have hdir := h.cached p x c hx hc
  have h2 := (h.housed p x hx (Or.inr hdir)).1
  exact keepsTidy_write h hx
    (Device.agreeOff_putRecord_block fs.dev x.inode.block ino hlt.1 hlt.2) (by omega) (.refl _) hdir

theorem tidy_removeRecord (h : fs.Tidy n) {e : Nat} {r : Nat × BitVec 64}
    (hr : removeRecord e fs = .ok (r, fs')) : KeepsTidy fs fs' n := by
  obtain ⟨y, x, c, entry, ⟨-, hx, hc, -, hlt⟩, -, rfl⟩ := removeRecord_ok hr
  have hdir := h.cached _ x c hx hc
  have h2 := (h.housed _ x hx (Or.inr hdir)).1
  exact keepsTidy_write h hx (Device.agreeOff_clearRecord fs.dev x.inode.block entry.entryNo)
    (by omega) ⟨rfl, rfl, rfl⟩ hdir

theorem tidy_countChild (h : fs.Tidy n) {u : Unit} (hr : countChild p fs = .ok (u, fs')) :
    KeepsTidy fs fs' n := by
  obtain ⟨x, hx, hr⟩ := Fs.of_bind_dentry hr
  cases hr
  exact ⟨h.setDentry ((h.housed p x hx).resize _) fun c hc => h.cached p x c hx hc, rfl⟩

theorem tidy_saveInode (h : fs.Tidy n) {r : Bool} (hr : saveInode d fs = .ok (r, fs')) :
    KeepsTidy fs fs' n := by
  obtain ⟨x, hx, ⟨-, rfl⟩ | ⟨-, i, -, hno, rfl⟩⟩ := saveInode_ok hr
  · exact .refl h
  · exact ⟨h.setSlot (h.housed d x hx) hno.symm, Device.freeBlocks_setSlot _ _ _⟩

/-- **A block is taken**, and with it one of the `n` is gone. -/
theorem tidy_taken (h : fs.Tidy n) {b : Nat} (hb : freeBlockScan fs.dev.freeBlocks = some b) :
    (3 ≤ b ∧ b < maxObjects) ∧ ¬ Avail (fs.taken b).dev.freeBlocks b ∧
      ∃ m, n = m + 1 ∧ (fs.taken b).Tidy m := by
  obtain ⟨h3, hna, m, hm, hdev⟩ := h.device.takeBlock hb
  have hfree : (fs.taken b).dev.freeBlocks = takeBlock fs.dev.freeBlocks b :=
    Device.freeBlocks_setFreeBlocks _ _
  refine ⟨⟨h3, (freeBlockScan_some hb).2.1⟩, ?_, m, hm, hdev, h.imap_zero, fun i hi => ?_,
    fun e y hy => ?_, h.cached, h.torn⟩
  · rw [hfree]
    exact hna
  · exact (h.imap_iff i hi).trans (Device.live_congr (Device.slot_setFreeBlocks _ _ _)).symm
  · rw [hfree]
    exact (h.housed e y hy).mono fun _ => Avail.of_takeBlock

/-- **An inode is added**, and one is there again. -/
theorem tidy_added (h : fs.Tidy n) {v : SfsInode} (hv : v.Housed fs.dev.freeBlocks) {i : Nat}
    (hi : i < 63) (hno : v.inodeNo = inoOf i) :
    KeepsTidy fs { fs with dev := fs.dev.addAt i v, imap := setBit fs.imap (i + 1) } (n + 1) := by
  have hv0 : v.inodeNo ≠ 0#64 := hno ▸ inoOf_ne_zero (by omega)
  refine ⟨⟨h.device.addAt hi hv hno, ?_, fun k hk => ?_, fun e y hy => ?_, h.cached, h.torn⟩,
    Device.freeBlocks_addAt _ _ _⟩
  · rw [getLsbD_setBit _ _ (by omega), h.imap_zero, Bool.true_or]
  · rw [getLsbD_setBit _ _ (by omega), Bool.or_eq_true, decide_eq_true_eq, h.imap_iff k hk,
      Device.live_addAt _ (by omega) hv0, or_comm]
    exact or_congr_left (by omega)
  · rw [Device.freeBlocks_addAt]
    exact h.housed e y hy

/-- An inode is deleted. -/
theorem tidy_deleted (h : fs.Tidy n) (i : Nat) :
    Fs.Tidy { fs with dev := fs.dev.delAt i, imap := clearBit fs.imap (i + 1) } n := by
  refine ⟨h.device.delAt i, ?_, fun k hk => ?_, fun e y hy => ?_, h.cached, h.torn⟩
  · rw [getLsbD_clearBit _ _ (by omega), h.imap_zero]
    simp
  · rw [getLsbD_clearBit _ _ (by omega), Bool.and_eq_true, h.imap_iff k hk, Device.live_delAt,
      and_comm]
    exact and_congr_left fun _ => by simp
  · rw [Device.freeBlocks_delAt]
    exact h.housed e y hy

/-! ## 3. The helpers -/

/-- `simplefs_inode_save`. -/
theorem tidy_inodeSave (h : fs.Tidy n) (d : Nat) :
    wlp intr (simplefsInodeSave d) (fun _ fs' => KeepsTidy fs fs' n) fs :=
  wlp_simplefsInodeSave (.refl h) fun _ _ hr => tidy_saveInode h hr

/-- `simplefs_inode_add`. -/
theorem tidy_inodeAdd (h : fs.Tidy n) {v : SfsInode} (hv : v.Housed fs.dev.freeBlocks) :
    wlp intr (simplefsInodeAdd v) (fun _ fs' => KeepsTidy fs fs' (n + 1)) fs :=
  wlp_simplefsInodeAdd ⟨h.mono (Nat.le_succ n), rfl⟩ fun _ hi hno => tidy_added h hv hi hno

/-- `simplefs_inode_del`. -/
theorem tidy_inodeDel (h : fs.Tidy n) (ino : BitVec 64) :
    wlp intr (simplefsInodeDel ino) (fun _ fs' => fs'.Tidy n) fs :=
  wlp_simplefsInodeDel h fun i _ _ => tidy_deleted h i

end Pieces

/-! ## 4. The calls -/

section Calls

variable {fs : Fs} {intr : Site → Bool} {n : Nat}

/-- `simplefs_lookup`. -/
theorem tidy_lookup (h : fs.Tidy n) (p : Nat) (name : Name) :
    wlp intr (simplefsLookup p name) (fun _ fs' => fs'.Tidy n) fs :=
  wlp_lookupObject (fun _ => h) fun _ _ _ _ _ _ hlt => h.dAdd (h.device.housed _ hlt) p name

/-- An inode that was just made, in a block that was just taken. -/
theorem housed_newInode (mode : BitVec 16) (ino : Nat) {b : Nat} {free : BitVec 64}
    (hb : 3 ≤ b ∧ b < maxObjects) (hna : ¬ Avail free b) : (newInode mode ino b).Housed free := by
  have h64 : b < 64 := hb.2
  have hblock : (newInode mode ino b).block = b := by
    simp only [newInode, SfsInode.block, BitVec.toNat_ofNat]
    omega
  intro _
  rw [hblock]
  exact ⟨by omega, fun _ => hna⟩

/-- `simplefs_create_fs_object`: what the block takes away, the inode brings back. -/
theorem tidy_create (h : fs.Tidy n) (p : Nat) (name : Name) (mode : BitVec 16) :
    wlp intr (simplefsCreateFsObject p name mode) (fun _ fs' => fs'.Tidy n) fs := by
  refine wlp_createObject
    (A := fun ino b fs2 => fs2.Tidy n ∧ (newInode mode ino b).Housed fs2.dev.freeBlocks)
    (fun _ _ => h) (fun ino b hb => ?_) ?_
  · obtain ⟨hb64, hna, m, rfl, h1⟩ := tidy_taken h hb
    have hv := housed_newInode mode ino hb64 hna
    refine Prog.wlp_mono (tidy_inodeAdd h1 hv) fun _ fs2 h2 => ⟨h2.tidy, ?_⟩
    rw [h2.freeBlocks]
    exact hv
  · rintro ino b fs2 ⟨h2, hv⟩
    refine wlp_createTail (J := fun fs' => KeepsTidy fs2 fs' n)
      (K := fun fs' => KeepsTidy fs2 fs' n) (M := fun _ fs' => KeepsTidy fs2 fs' n)
      ?_ ?_ ?_ ?_ ?_ ?_
    · exact fun _ _ hr => tidy_addRecord h2 hr
    · exact fun _ h4 _ => h4.tidy
    · exact fun _ _ _ h4 hr => h4.trans (tidy_countChild h4.tidy hr)
    · exact fun _ h5 => Prog.wlp_mono (tidy_inodeSave h5.tidy p) fun _ _ h6 => h5.trans h6
    · exact fun _ _ h6 _ => h6.tidy
    · intro _ h6
      refine h6.tidy.dAdd ?_ p name
      rw [h6.freeBlocks]
      exact hv

/-- `vfs_unlink`. -/
theorem tidy_unlink (h : fs.Tidy n) (e : Nat) :
    wlp intr (vfsUnlink e) (fun _ fs' => fs'.Tidy n) fs := by
  refine wlp_unlinkFile (J := fun fs2 => fs2.Tidy n) (fun r fs1 hr => ?_) (fun ino fs2 h2 => ?_)
    fun fs3 y h3 hy => ?_
  · exact Prog.wlp_mono (tidy_inodeSave (tidy_removeRecord h hr).tidy r.1) fun _ _ h2 => h2.tidy
  · exact tidy_inodeDel h2 ino
  · exact h3.setDentry (h3.housed e y hy) fun c hc => h3.cached e y c hy hc

/-- `simplefs_write`. -/
theorem tidy_write (h : fs.Tidy n) {d : Nat} {x : Dentry} (hx : fs.dentries d = some x)
    (hreg : isReg x.inode.mode = true) (ppos : Nat) (data : List UInt8) (copied : Nat) :
    wlp intr (simplefsWrite d ppos data copied) (fun _ fs' => fs'.Tidy n) fs := by
  have h2 := (h.housed d x hx (Or.inl hreg)).1
  have hagree := Device.agreeOff_putData fs.dev x.inode.block ppos (copiedBytes data copied)
  have hfree : (fs.copiedIn x ppos data copied).dev.freeBlocks = fs.dev.freeBlocks :=
    Device.freeBlocks_congr hagree (by omega)
  have h1 : (fs.copiedIn x ppos data copied).Tidy n :=
    { h.of_slots hfree fun i hi => slot_copiedIn h2 _ _ _ hi with torn := h.torn.tear h2 _ }
  refine wlp_writeFile hx (fun _ => h1) fun _ _ => ?_
  have h3 : ((fs.copiedIn x ppos data copied).setDentry d
      (x.resized (ppos + data.length))).Tidy n := by
    refine h1.setDentry ?_ fun c hc => h.cached d x c hx hc
    rw [hfree]
    exact h.housed d x hx
  exact Prog.wlp_mono (tidy_inodeSave h3 d) fun _ _ h4 => h4.tidy

/-- `simplefs_dentry_release`. -/
theorem tidy_release (h : fs.Tidy n) (d : Nat) :
    wlp intr (Op.release d).code (fun _ fs' => fs'.Tidy n) fs := by
  intro u fs1 hr
  cases hr
  have hold : ∀ e y, Function.update fs.dentries d none e = some y → fs.dentries e = some y :=
    fun _ _ hy => (Fs.of_update_none hy).2
  exact ⟨h.device, h.imap_zero, h.imap_iff, fun e y hy => h.housed e y (hold e y hy),
    fun e y c hy => h.cached e y c (hold e y hy), h.torn⟩

/-- **Every call keeps the order**, interrupted or not. -/
theorem Op.tidy {op : Op} (h : fs.Tidy n) (ha : op.Allowed fs) :
    wlp intr op.code (fun _ fs' => fs'.Tidy n) fs := by
  cases op with
  | iterate d pos =>
    obtain ⟨x, hx⟩ := ha
    refine wlp_discard fun r fs1 hr => ?_
    rw [iterate_eq hx.1 pos] at hr
    cases hr
    exact h.setDentry (h.housed d x hx.1) fun _ _ => hx.2.2
  | lookup p name => exact wlp_discard (tidy_lookup h p name)
  | create p name mode => exact wlp_discard (tidy_create h p name mode)
  | mkdir p name mode => exact wlp_discard (tidy_create h p name (0x4000 ||| mode))
  | unlink e => exact tidy_unlink h e
  | read d ppos len userOk =>
    refine wlp_discard fun r fs1 hr => ?_
    rw [readFile_state hr]
    exact h
  | write d ppos data copied =>
    obtain ⟨x, hx, hreg⟩ := ha
    exact wlp_discard (tidy_write h hx hreg ppos data copied)
  | release d => exact tidy_release h d

end Calls

/-! ## 5. Runs -/

/-- The four blocks that `mkfs` writes to are zero before. -/
def Device.ZeroStart (dev : Device) : Prop := ∀ a, a < 16384 → dev a = 0

/-- **A formatted device is in order**, whatever its other blocks hold: two inodes, and the blocks
4 to 34 to hand out. -/
theorem formatDevice.tidy {dev : Device} (hz : dev.ZeroStart) : (formatDevice dev).Tidy 33 := by
  have hfree := formatDevice.freeBlocks dev
  have hslot : ∀ i, 2 ≤ i → i < slotsPerBlock → (formatDevice dev).slot i = SfsInode.zero := by
    intro i h2 hi
    have hi' : i < 128 := hi
    rw [formatDevice.slot_rest dev h2 hi]
    exact inodeAt_of_zero fun x _ hx => hz x (by omega)
  have hlive : ∀ i, (formatDevice dev).Live i → i < 2 := by
    intro i hl
    by_contra h2
    exact hl.2 (by rw [hslot i (by omega) hl.1]; rfl)
  refine ⟨fun j h31 h64 => ?_, fun i hi => ?_, fun i hl => ?_, ?_⟩
  · rw [hfree, freshDevice.getLsbD_initialFreeBlocks h64,
      freshDevice.getLsbD_initialFreeBlocks (by omega)]
    exact congrArg _ (decide_eq_decide.mpr (by omega))
  · rcases Nat.lt_or_ge i 2 with h | h
    · rcases freshDevice.lt_two_cases h with rfl | rfl
      · rw [formatDevice.slot_zero]
        exact fun _ => ⟨by decide, fun h3 => absurd h3 (by decide)⟩
      · rw [formatDevice.slot_one, hfree]
        have hna : initialFreeBlocks.getLsbD 3 ≠ true := by decide
        exact fun _ => ⟨by decide, fun _ => hna⟩
    · rw [hslot i h hi]
      exact housed_zero _
  · rcases freshDevice.lt_two_cases (hlive i hl) with rfl | rfl
    · rw [formatDevice.slot_zero]
      exact ⟨rfl, by omega⟩
    · rw [formatDevice.slot_one]
      exact ⟨rfl, by omega⟩
  · have hsub : (formatDevice dev).liveSlots ⊆ Finset.range 2 := fun i hi =>
      Finset.mem_range.mpr (hlive i (Device.mem_liveSlots.mp hi))
    have hle := Finset.card_le_card hsub
    have havail : (availBlocks initialFreeBlocks).card = 31 := by decide
    rw [hfree, havail]
    rw [Finset.card_range] at hle
    omega

/-- A mount computes the bitmap and copies the root's inode. -/
theorem mountedFs_tidy {dev : Device} {imap : BitVec 64} {n : Nat} (h : dev.Tidy n)
    (hmap : fillImap dev.slot = .ok imap) (past : BitVec 64) :
    (mountedFs dev imap past).Tidy n := by
  obtain ⟨w, hw, h0, hbits⟩ := fillImap_bits h.slots
  cases hmap.symm.trans hw
  refine ⟨h, h0, hbits, fun e y hy => ?_, fun e y c hy hc => ?_, fun b hno => absurd rfl hno⟩
  · obtain ⟨-, rfl⟩ := mountedFs_dentries hy
    exact h.housed 0 (by decide)
  · obtain ⟨-, rfl⟩ := mountedFs_dentries hy
    cases hc

/-- The order of a system. -/
def Sys.Tidy (s : Sys) (n : Nat) : Prop :=
  match s.mnt with
  | .offline dev => dev.Tidy n
  | .mounted fs => fs.Tidy n

/-- **One event**, interrupted or not. -/
theorem Event.tidy {ev : Event} {s s' : Sys} {n : Nat} (h : s.Tidy n) (ha : ev.Allowed s)
    (happ : ev.apply s = some s') : s'.Tidy n := by
  cases Event.leadsTo happ with
  | refused => exact h
  | mount hmap => exact mountedFs_tidy h hmap _
  | umount =>
    have ht := Fs.Tidy.torn h
    exact (Fs.Tidy.device h).of_slots ht.super.free fun _ => ht.slot
  | @call lk lk' op intr fs fs' hrun =>
    have hend := Prog.wlp_run (Op.tidy h (ha op intr fs rfl rfl)) hrun
    exact hend

/-- **Every run.** -/
theorem History.tidy {evs : List Event} {s s' : Sys} {n : Nat} (hr : History s evs s')
    (h : s.Tidy n) : s'.Tidy n := by
  induction hr with
  | nil => exact h
  | snoc _ ha happ ih => exact Event.tidy ih ha happ

/-- Every run from a formatted device. -/
theorem History.tidy_mkfs {dev dev' : Device} {size : Nat} {lk : LockState Lock}
    {evs : List Event} {fs : Fs} (hz : dev.ZeroStart) (hmk : mkfs dev size = (0, dev'))
    (hr : History ⟨LockState.free, .offline dev'⟩ evs ⟨lk, .mounted fs⟩) : fs.Tidy 33 := by
  have h0 : Sys.Tidy ⟨LockState.free, .offline dev'⟩ 33 := by
    rw [mkfs_ok hmk]
    exact formatDevice.tidy hz
  exact hr.tidy h0

end Simplefs
