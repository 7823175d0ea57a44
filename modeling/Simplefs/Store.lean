/-
# The store invariant

What the inode store, the inode bitmap, the count of inodes and the free-block word say to one
another, and what the blocks that nobody has been given look like.  `pend` is the set of blocks
that a create in progress has taken and whose inode is not in the store yet; between operations
it is empty.

Slot `i` is the place of inode `i + 1`, and indices rather than inode numbers are used
throughout.  There is one lemma for each way the code writes the structures: taking a block,
adding an inode, deleting one, saving one, and writing inside a block that is in use.
-/
import Mathlib.Data.Finset.Card
import Simplefs.Vfs

namespace Simplefs

/-! ## 1. Live slots -/

namespace Device

/-- Slot `i` holds an inode. -/
def Live (dev : Device) (i : Nat) : Prop := i < slotsPerBlock ∧ (dev.slot i).inodeNo ≠ 0#64

instance (dev : Device) (i : Nat) : Decidable (dev.Live i) := inferInstanceAs (Decidable (_ ∧ _))

/-- The slots that hold an inode. -/
def liveSlots (dev : Device) : Finset Nat :=
  (Finset.range slotsPerBlock).filter fun i => (dev.slot i).inodeNo ≠ 0#64

theorem mem_liveSlots {dev : Device} {i : Nat} : i ∈ dev.liveSlots ↔ dev.Live i := by
  rw [liveSlots, Finset.mem_filter, Finset.mem_range, Live]

theorem Live.lt {dev : Device} {i : Nat} (h : dev.Live i) : i < 128 := h.1

theorem live_congr {dev dev' : Device} {i : Nat} (h : dev'.slot i = dev.slot i) :
    dev'.Live i ↔ dev.Live i := by rw [Live, Live, h]

theorem live_congr_no {dev dev' : Device} {i : Nat}
    (h : (dev'.slot i).inodeNo = (dev.slot i).inodeNo) : dev'.Live i ↔ dev.Live i := by
  rw [Live, Live, h]

/-- The device after `simplefs_inode_add` of `v` at slot `i`. -/
def addAt (dev : Device) (i : Nat) (v : SfsInode) : Device :=
  (dev.setSlot i v).setInodesCount (dev.inodesCount + 1)

/-- The device after `simplefs_inode_del` at slot `i`. -/
def delAt (dev : Device) (i : Nat) : Device :=
  (dev.clearSlot i).setInodesCount (dev.inodesCount - 1)

theorem slot_addAt (dev : Device) (i j : Nat) (v : SfsInode) :
    (dev.addAt i v).slot j = if j = i then v else dev.slot j := by
  rw [addAt, slot_setInodesCount, slot_setSlot]

theorem slot_delAt (dev : Device) (i j : Nat) :
    (dev.delAt i).slot j = if j = i then SfsInode.zero else dev.slot j := by
  rw [delAt, slot_setInodesCount, slot_clearSlot]

@[simp] theorem inodesCount_addAt (dev : Device) (i : Nat) (v : SfsInode) :
    (dev.addAt i v).inodesCount = dev.inodesCount + 1 := inodesCount_setInodesCount _ _

@[simp] theorem inodesCount_delAt (dev : Device) (i : Nat) :
    (dev.delAt i).inodesCount = dev.inodesCount - 1 := inodesCount_setInodesCount _ _

@[simp] theorem freeBlocks_addAt (dev : Device) (i : Nat) (v : SfsInode) :
    (dev.addAt i v).freeBlocks = dev.freeBlocks := by
  rw [addAt, freeBlocks_setInodesCount, freeBlocks_setSlot]

@[simp] theorem freeBlocks_delAt (dev : Device) (i : Nat) :
    (dev.delAt i).freeBlocks = dev.freeBlocks := by
  rw [delAt, freeBlocks_setInodesCount, freeBlocks_clearSlot]

theorem formatted_addAt (dev : Device) {i : Nat} (v : SfsInode) (h : dev.Formatted) :
    (dev.addAt i v).Formatted :=
  formatted_congr (agreeOff_setInodesCount _ _) (by omega)
    (formatted_congr (agreeOff_setSlot dev i v) (by omega) h)

theorem formatted_delAt (dev : Device) {i : Nat} (h : dev.Formatted) :
    (dev.delAt i).Formatted :=
  formatted_congr (agreeOff_setInodesCount _ _) (by omega)
    (formatted_congr (agreeOff_clearSlot dev i) (by omega) h)

/-- Neither reaches block 2 or any later block. -/
theorem byte_addAt (dev : Device) {i b : Nat} (v : SfsInode) (off : Nat) (hi : i < 128)
    (hb : 2 ≤ b) : (dev.addAt i v).byte b off = dev.byte b off := by
  rw [addAt, byte_congr (agreeOff_setInodesCount _ _) (by omega),
    byte_congr (agreeOff_setSlot _ _ _) (by omega)]

theorem byte_delAt (dev : Device) {i b : Nat} (off : Nat) (hi : i < 128) (hb : 2 ≤ b) :
    (dev.delAt i).byte b off = dev.byte b off := by
  rw [delAt, byte_congr (agreeOff_setInodesCount _ _) (by omega),
    byte_congr (agreeOff_clearSlot _ _) (by omega)]

theorem record_addAt (dev : Device) {i b : Nat} (v : SfsInode) (j : Nat) (hi : i < 128)
    (hb : 2 ≤ b) : (dev.addAt i v).record b j = dev.record b j := by
  rw [addAt, record_setInodesCount _ _ _ (by omega), record_setSlot _ _ _ hi hb]

theorem record_delAt (dev : Device) {i b : Nat} (j : Nat) (hi : i < 128) (hb : 2 ≤ b) :
    (dev.delAt i).record b j = dev.record b j := by
  rw [delAt, record_setInodesCount _ _ _ (by omega), record_clearSlot _ _ hi hb]

theorem live_addAt (dev : Device) {i : Nat} {v : SfsInode} (hi : i < 128)
    (hv : v.inodeNo ≠ 0#64) (k : Nat) : (dev.addAt i v).Live k ↔ k = i ∨ dev.Live k := by
  rw [Live, slot_addAt, Live]
  split
  · rename_i h
    exact iff_of_true ⟨h ▸ hi, hv⟩ (Or.inl h)
  · rename_i h
    exact ⟨Or.inr, fun hk => hk.resolve_left h⟩

theorem live_delAt (dev : Device) (i k : Nat) : (dev.delAt i).Live k ↔ k ≠ i ∧ dev.Live k := by
  rw [Live, slot_delAt, Live]
  split
  · rename_i h
    exact iff_of_false (fun hk => hk.2 rfl) (fun hk => hk.1 h)
  · rename_i h
    exact ⟨fun hk => ⟨h, hk⟩, fun hk => hk.2⟩

/-- Saving an inode under the number its slot has. -/
theorem live_setSlot (dev : Device) {i : Nat} {v : SfsInode}
    (hv : v.inodeNo = (dev.slot i).inodeNo) (k : Nat) : (dev.setSlot i v).Live k ↔ dev.Live k := by
  refine live_congr_no ?_
  rw [slot_setSlot]
  split
  · rename_i h
    rw [hv, h]
  · rfl

end Device

/-- The inode number of slot `i`. -/
def inoOf (i : Nat) : BitVec 64 := BitVec.ofNat 64 (i + 1)

theorem toNat_inoOf {i : Nat} (h : i < 128) : (inoOf i).toNat = i + 1 := by
  rw [inoOf, BitVec.toNat_ofNat]; omega

theorem inoOf_ne_zero {i : Nat} (h : i < 128) : inoOf i ≠ 0#64 := fun h0 => by
  have := toNat_inoOf h
  rw [h0] at this
  simp at this

theorem inoOf_inj {i j : Nat} (hi : i < 128) (hj : j < 128) (h : inoOf i = inoOf j) : i = j := by
  have := toNat_inoOf hi
  rw [h, toNat_inoOf hj] at this
  omega

theorem slotIndex_inoOf {i : Nat} (h : i < 128) : slotIndex (inoOf i) = i := by
  rw [slotIndex, inoOf, BitVec.toNat_sub, BitVec.toNat_ofNat]
  simp only [BitVec.reduceToNat]
  omega

theorem slotAt_inoOf {i : Nat} (h : i < 128) : slotAt (inoOf i) = i := by
  have hi := slotIndex_inoOf h
  rw [slotAt_of_lt (hi.symm ▸ h), hi]

/-! ## 2. The invariant -/

/-- The inode store, the bitmap, the count and the free-block word fit together. -/
structure StoreInv (dev : Device) (imap : BitVec 64) (pend : Nat → Prop) : Prop where
  formatted : dev.Formatted
  /-- A slot is empty or holds its own number, and only the first 63 are ever used. -/
  slots : ∀ i, dev.Live i → (dev.slot i).inodeNo = inoOf i ∧ i < 63
  imap_zero : imap.getLsbD 0 = true
  imap_iff : ∀ i, i < 63 → (imap.getLsbD (i + 1) = true ↔ dev.Live i)
  count : dev.inodesCount = BitVec.ofNat 64 dev.liveSlots.card
  block : ∀ i, dev.Live i → 2 ≤ (dev.slot i).block ∧ (dev.slot i).block ≤ 34
  block_inj : ∀ i j, dev.Live i → dev.Live j → (dev.slot i).block = (dev.slot j).block → i = j
  high : HighTogether dev.freeBlocks
  /-- A block that can still be handed out belongs to nobody and has never been written. -/
  avail : ∀ b, 3 ≤ b → b ≤ 34 → Avail dev.freeBlocks b →
    ¬ pend b ∧ (∀ i, dev.Live i → (dev.slot i).block ≠ b) ∧ dev.ZeroBlock b
  pend : ∀ b, pend b →
    3 ≤ b ∧ b ≤ 34 ∧ (∀ i, dev.Live i → (dev.slot i).block ≠ b) ∧ dev.ZeroBlock b

namespace StoreInv

variable {dev dev' : Device} {imap : BitVec 64} {pend pend' : Nat → Prop}

/-! ## 3. Writes that move no inode

They keep the slots' numbers and blocks, and the zeros of the blocks nobody has. -/

/-- The numbers and blocks of the slots are the same. -/
def SameSlots (dev dev' : Device) : Prop :=
  ∀ i, i < 128 → (dev'.slot i).inodeNo = (dev.slot i).inodeNo ∧
    (dev'.slot i).block = (dev.slot i).block

theorem SameSlots.live (hs : SameSlots dev dev') (i : Nat) : dev'.Live i ↔ dev.Live i :=
  and_congr_right fun hi => by rw [(hs i hi).1]

theorem SameSlots.liveSlots (hs : SameSlots dev dev') : dev'.liveSlots = dev.liveSlots := by
  ext i; rw [Device.mem_liveSlots, Device.mem_liveSlots, hs.live]

/-- The general form: blocks may become pending, if they could be handed out before and cannot
any more. -/
theorem congr (h : StoreInv dev imap pend) (hf : dev'.Formatted) (hs : SameSlots dev dev')
    (hcount : dev'.inodesCount = dev.inodesCount) (hhigh : HighTogether dev'.freeBlocks)
    (havail : ∀ b, 3 ≤ b → b ≤ 34 → Avail dev'.freeBlocks b →
      Avail dev.freeBlocks b ∧ (pend' b → pend b))
    (hpend : ∀ b, pend' b → pend b ∨ 3 ≤ b ∧ b ≤ 34 ∧ Avail dev.freeBlocks b)
    (hzero : ∀ b, 3 ≤ b → Avail dev.freeBlocks b ∨ pend b →
      (∀ i, dev.Live i → (dev.slot i).block ≠ b) → dev.ZeroBlock b → dev'.ZeroBlock b) :
    StoreInv dev' imap pend' := by
  have hunused : ∀ b, (∀ i, dev.Live i → (dev.slot i).block ≠ b) →
      ∀ i, dev'.Live i → (dev'.slot i).block ≠ b := by
    intro b hb i hi
    rw [(hs i hi.lt).2]
    exact hb i ((hs.live i).mp hi)
  refine ⟨hf, ?_, h.imap_zero, ?_, ?_, ?_, ?_, hhigh, ?_, ?_⟩
  · intro i hi
    rw [(hs i hi.lt).1]
    exact h.slots i ((hs.live i).mp hi)
  · intro i hi
    rw [hs.live]
    exact h.imap_iff i hi
  · rw [hcount, hs.liveSlots]
    exact h.count
  · intro i hi
    rw [(hs i hi.lt).2]
    exact h.block i ((hs.live i).mp hi)
  · intro i j hi hj heq
    rw [(hs i hi.lt).2, (hs j hj.lt).2] at heq
    exact h.block_inj i j ((hs.live i).mp hi) ((hs.live j).mp hj) heq
  · intro b hb hb' ha
    obtain ⟨ha', hp'⟩ := havail b hb hb' ha
    obtain ⟨hp, hl, hz⟩ := h.avail b hb hb' ha'
    exact ⟨fun hpb => hp (hp' hpb), hunused b hl, hzero b hb (Or.inl ha') hl hz⟩
  · intro b hb
    rcases hpend b hb with hp | ⟨h3, h34, ha⟩
    · obtain ⟨h3, h34, hl, hz⟩ := h.pend b hp
      exact ⟨h3, h34, hunused b hl, hzero b h3 (Or.inr hp) hl hz⟩
    · obtain ⟨-, hl, hz⟩ := h.avail b h3 h34 ha
      exact ⟨h3, h34, hunused b hl, hzero b h3 (Or.inl ha) hl hz⟩

/-- The same, when no block changes hands. -/
theorem congr_quiet (h : StoreInv dev imap pend) (hf : dev'.Formatted) (hs : SameSlots dev dev')
    (hcount : dev'.inodesCount = dev.inodesCount) (hfree : dev'.freeBlocks = dev.freeBlocks)
    (hzero : ∀ b, 3 ≤ b → Avail dev.freeBlocks b ∨ pend b →
      (∀ i, dev.Live i → (dev.slot i).block ≠ b) → dev.ZeroBlock b → dev'.ZeroBlock b) :
    StoreInv dev' imap pend := by
  refine h.congr hf hs hcount ?_ ?_ (fun _ => Or.inl) hzero
  · rw [hfree]
    exact h.high
  · intro b _ _ ha
    rw [hfree] at ha
    exact ⟨ha, id⟩

/-- Blocks that nobody can be given any more may be torn. -/
theorem flushed {fs : Fs} (h : StoreInv fs.dev imap pend)
    (ht : ∀ b, fs.torn b ≠ none → 2 ≤ b ∧ (3 ≤ b → ¬ Avail fs.dev.freeBlocks b) ∧ ¬ pend b) :
    StoreInv fs.flushed imap pend := by
  have hdata : fs.DataTorn := fun b hb => (ht b hb).1
  refine h.congr_quiet (hdata.super.formatted h.formatted)
    (fun k hk => by rw [hdata.slot hk]; exact ⟨rfl, rfl⟩) hdata.inodesCount hdata.super.free ?_
  intro b h3 hb _ hz off hoff
  have hwhole : fs.torn b = none := by
    by_contra hno
    obtain ⟨-, hav, hp⟩ := ht b hno
    exact hb.elim (hav h3) hp
  rw [Device.byte_of_blocks (Fs.blocks_flushed hwhole) hoff]
  exact hz off hoff

/-- A write inside the block of a live inode. -/
theorem write_block (h : StoreInv dev imap pend) {i lo hi : Nat} (hl : dev.Live i)
    (hagree : AgreeOff lo hi dev dev') (hlo : 4096 * (dev.slot i).block ≤ lo)
    (hhi : hi ≤ 4096 * (dev.slot i).block + 4096) : StoreInv dev' imap pend := by
  have h2 := (h.block i hl).1
  have hslot : ∀ k, k < 128 → dev'.slot k = dev.slot k := fun k hk =>
    Device.slot_congr hagree (by omega)
  refine h.congr_quiet (Device.formatted_congr hagree (by omega) h.formatted)
    (fun k hk => by rw [hslot k hk]; exact ⟨rfl, rfl⟩)
    (Device.inodesCount_congr hagree (by omega)) (Device.freeBlocks_congr hagree (by omega)) ?_
  intro b _ _ hb hz
  refine Device.zeroBlock_congr hagree ?_ hz
  rcases Nat.lt_or_gt_of_ne (hb i hl) with hlt | hgt
  · left; omega
  · right; omega

/-- **`simplefs_inode_save` of an inode that keeps its number and its block.** -/
theorem save (h : StoreInv dev imap pend) {i : Nat} {v : SfsInode} (hi : dev.Live i)
    (hno : v.inodeNo = (dev.slot i).inodeNo) (hb : v.block = (dev.slot i).block) :
    StoreInv (dev.setSlot i v) imap pend := by
  have hilt := hi.lt
  refine h.congr_quiet
    (Device.formatted_congr (Device.agreeOff_setSlot dev i v) (by omega) h.formatted) ?_
    (Device.inodesCount_setSlot dev i v) (Device.freeBlocks_setSlot dev i v)
    fun b hb3 _ _ hz => Device.zeroBlock_congr (Device.agreeOff_setSlot dev i v) (by omega) hz
  intro k _
  rw [Device.slot_setSlot]
  split
  · rename_i hk
    rw [hno, hb, hk]
    exact ⟨rfl, rfl⟩
  · exact ⟨rfl, rfl⟩

/-- **`simplefs_sb_get_a_freeblock`**: the block it hands out is pending, and no other block
changes hands. -/
theorem takeFreeBlock (h : StoreInv dev imap pend) {b : Nat}
    (hb : freeBlockScan dev.freeBlocks = some b) (hpend : ∀ c, pend' c → pend c ∨ c = b) :
    StoreInv (dev.setFreeBlocks (takeBlock dev.freeBlocks b)) imap pend' := by
  obtain ⟨hb3, hb34, hba⟩ := h.high.scan_some hb
  refine h.congr (Device.formatted_congr (Device.agreeOff_setFreeBlocks dev _) (by omega)
    h.formatted) (fun k _ => by rw [Device.slot_setFreeBlocks]; exact ⟨rfl, rfl⟩)
    (Device.inodesCount_setFreeBlocks dev _) ?_ ?_ ?_ ?_
  · rw [Device.freeBlocks_setFreeBlocks]
    exact h.high.takeBlock b
  · intro c hc hc' ha
    rw [Device.freeBlocks_setFreeBlocks, avail_takeBlock hb3 hb34 hc hc'] at ha
    exact ⟨ha.1, fun hp => (hpend c hp).resolve_right ha.2⟩
  · intro c hc
    rcases hpend c hc with hc | rfl
    · exact Or.inl hc
    · exact Or.inr ⟨hb3, hb34, hba⟩
  · intro c hc _ _ hz
    exact Device.zeroBlock_congr (Device.agreeOff_setFreeBlocks dev _) (by omega) hz

/-! ## 4. Adding and deleting an inode -/

/-- What `ffz` picks: a slot that is empty and inside the inode store. -/
theorem ffz_some (h : StoreInv dev imap pend) {n : Nat} (hn : ffz imap = some n) :
    ∃ i, n = i + 1 ∧ i < 63 ∧ ¬ dev.Live i := by
  obtain ⟨hn64, hbit⟩ := Simplefs.ffz_some hn
  obtain _ | i := n
  · rw [h.imap_zero] at hbit
    cases hbit
  · refine ⟨i, rfl, by omega, fun hl => ?_⟩
    rw [(h.imap_iff i (by omega)).mpr hl] at hbit
    cases hbit

/-- As long as fewer than 63 inodes are live the bitmap has a zero bit. -/
theorem ffz_ne_none (h : StoreInv dev imap pend) {i : Nat} (hi : i < 63) (hl : ¬ dev.Live i) :
    ∃ n, ffz imap = some n := by
  refine Simplefs.ffz_ne_none (n := i + 1) (by omega) ?_
  rw [← Bool.not_eq_true, h.imap_iff i hi]
  exact hl

/-- **`simplefs_inode_add`**: the inode's block is pending no longer. -/
theorem add (h : StoreInv dev imap pend) {i : Nat} {v : SfsInode} (hi : i < 63)
    (hdead : ¬ dev.Live i) (hno : v.inodeNo = inoOf i) (hb : pend v.block)
    (hpend : ∀ b, pend' b → pend b ∧ b ≠ v.block) :
    StoreInv (dev.addAt i v) (setBit imap (i + 1)) pend' := by
  obtain ⟨hb3, hb34, hbl, -⟩ := h.pend _ hb
  have hv0 : v.inodeNo ≠ 0#64 := by rw [hno]; exact inoOf_ne_zero (by omega)
  have hlive := Device.live_addAt dev (show i < 128 by omega) hv0
  have hslot : ∀ k, dev.Live k → (dev.addAt i v).slot k = dev.slot k := by
    intro k hk
    rw [Device.slot_addAt, if_neg]
    rintro rfl
    exact hdead hk
  have hself : (dev.addAt i v).slot i = v := by rw [Device.slot_addAt, if_pos rfl]
  have hzero : ∀ b, 3 ≤ b → dev.ZeroBlock b → (dev.addAt i v).ZeroBlock b := by
    intro b hb hz off ho
    rw [Device.byte_addAt dev v off (by omega) (by omega)]
    exact hz off ho
  have hunused : ∀ b, b ≠ v.block → (∀ k, dev.Live k → (dev.slot k).block ≠ b) →
      ∀ k, (dev.addAt i v).Live k → ((dev.addAt i v).slot k).block ≠ b := by
    intro b hne hbk k hk
    rcases (hlive k).mp hk with rfl | hk
    · rw [hself]; exact Ne.symm hne
    · rw [hslot k hk]; exact hbk k hk
  refine ⟨Device.formatted_addAt dev v h.formatted, ?_, ?_, ?_, ?_, ?_, ?_, ?_, ?_, ?_⟩
  · intro k hk
    rcases (hlive k).mp hk with rfl | hk
    · rw [hself]; exact ⟨hno, hi⟩
    · rw [hslot k hk]; exact h.slots k hk
  · rw [getLsbD_setBit imap (i + 1) (by omega), h.imap_zero, Bool.true_or]
  · intro k hk
    rw [getLsbD_setBit imap (i + 1) (by omega), Bool.or_eq_true, h.imap_iff k hk, decide_eq_true_eq,
      hlive, or_comm]
    exact or_congr_left (by omega)
  · have hset : (dev.addAt i v).liveSlots = insert i dev.liveSlots := by
      ext k; rw [Device.mem_liveSlots, hlive, Finset.mem_insert, Device.mem_liveSlots]
    have hnot : i ∉ dev.liveSlots := fun hm => hdead (Device.mem_liveSlots.mp hm)
    rw [Device.inodesCount_addAt, hset, Finset.card_insert_of_notMem hnot, h.count,
      BitVec.ofNat_add, BitVec.ofNat_eq_ofNat]
  · intro k hk
    rcases (hlive k).mp hk with rfl | hk
    · rw [hself]; exact ⟨by omega, hb34⟩
    · rw [hslot k hk]; exact h.block k hk
  · intro k l hk hl heq
    rcases (hlive k).mp hk with hki | hk' <;> rcases (hlive l).mp hl with hli | hl'
    · rw [hki, hli]
    · rw [hki, hself, hslot l hl'] at heq
      exact absurd heq.symm (hbl l hl')
    · rw [hli, hself, hslot k hk'] at heq
      exact absurd heq (hbl k hk')
    · rw [hslot k hk', hslot l hl'] at heq
      exact h.block_inj k l hk' hl' heq
  · rw [Device.freeBlocks_addAt]
    exact h.high
  · intro b hb3 hb34 ha
    rw [Device.freeBlocks_addAt] at ha
    obtain ⟨hp, hl, hz⟩ := h.avail b hb3 hb34 ha
    have hne : b ≠ v.block := by rintro rfl; exact hp hb
    exact ⟨fun hp' => hp (hpend b hp').1, hunused b hne hl, hzero b hb3 hz⟩
  · intro b hp'
    obtain ⟨hp, hne⟩ := hpend b hp'
    obtain ⟨h3, h34, hl, hz⟩ := h.pend b hp
    exact ⟨h3, h34, hunused b hne hl, hzero b h3 hz⟩

/-- **`simplefs_inode_del`.** -/
theorem del (h : StoreInv dev imap pend) {i : Nat} (hi : dev.Live i) :
    StoreInv (dev.delAt i) (clearBit imap (i + 1)) pend := by
  have hi63 : i < 63 := (h.slots i hi).2
  have hlive := Device.live_delAt dev i
  have hslot : ∀ k, (dev.delAt i).Live k → (dev.delAt i).slot k = dev.slot k := by
    intro k hk
    rw [Device.slot_delAt, if_neg ((hlive k).mp hk).1]
  have hzero : ∀ b, 3 ≤ b → dev.ZeroBlock b → (dev.delAt i).ZeroBlock b := by
    intro b hb hz off ho
    rw [Device.byte_delAt dev off (by omega) (by omega)]
    exact hz off ho
  have hunused : ∀ b, (∀ k, dev.Live k → (dev.slot k).block ≠ b) →
      ∀ k, (dev.delAt i).Live k → ((dev.delAt i).slot k).block ≠ b := by
    intro b hb k hk
    rw [hslot k hk]
    exact hb k ((hlive k).mp hk).2
  refine ⟨Device.formatted_delAt dev h.formatted, ?_, ?_, ?_, ?_, ?_, ?_, ?_, ?_, ?_⟩
  · intro k hk
    rw [hslot k hk]
    exact h.slots k ((hlive k).mp hk).2
  · rw [getLsbD_clearBit imap (i + 1) (by omega), h.imap_zero]
    simp
  · intro k hk
    rw [getLsbD_clearBit imap (i + 1) (by omega), Bool.and_eq_true, h.imap_iff k hk,
      Bool.not_eq_true', decide_eq_false_iff_not, hlive, and_comm]
    exact and_congr_left fun _ => by omega
  · have hset : dev.liveSlots = insert i (dev.delAt i).liveSlots := by
      ext k
      rw [Device.mem_liveSlots, Finset.mem_insert, Device.mem_liveSlots, hlive]
      constructor
      · intro hk
        by_cases hki : k = i
        · exact Or.inl hki
        · exact Or.inr ⟨hki, hk⟩
      · rintro (rfl | hk)
        · exact hi
        · exact hk.2
    have hnot : i ∉ (dev.delAt i).liveSlots := fun hm =>
      ((hlive i).mp (Device.mem_liveSlots.mp hm)).1 rfl
    have hcard := Finset.card_insert_of_notMem hnot
    rw [← hset] at hcard
    rw [Device.inodesCount_delAt, h.count, hcard, BitVec.ofNat_add]
    exact BitVec.add_sub_cancel _ _
  · intro k hk
    rw [hslot k hk]
    exact h.block k ((hlive k).mp hk).2
  · intro k l hk hl heq
    rw [hslot k hk, hslot l hl] at heq
    exact h.block_inj k l ((hlive k).mp hk).2 ((hlive l).mp hl).2 heq
  · rw [Device.freeBlocks_delAt]
    exact h.high
  · intro b hb3 hb34 ha
    rw [Device.freeBlocks_delAt] at ha
    obtain ⟨hp, hl, hz⟩ := h.avail b hb3 hb34 ha
    exact ⟨hp, hunused b hl, hzero b hb3 hz⟩
  · intro b hp
    obtain ⟨h3, h34, hl, hz⟩ := h.pend b hp
    exact ⟨h3, h34, hunused b hl, hzero b h3 hz⟩

end StoreInv

end Simplefs
