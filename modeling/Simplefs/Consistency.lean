/-
# The device is consistent

What a checker would demand of a simplefs image: inode numbers and their slots, directory
records and what they point at, data blocks, and the counts and bitmaps over them.  A fresh
image satisfies it, and every run that stays inside the defined cases keeps it.
-/
import Simplefs.Runs

namespace Simplefs

open Prog (LockState)

/-! ## 1. What a checker demands -/

namespace Device

/-- Record `j` of live directory slot `d` carries the number of inode `k`. -/
def RecordOf (dev : Device) (d j k : Nat) : Prop :=
  dev.Live d ∧ isDir (dev.slot d).mode = true ∧ j < recordsPerBlock ∧
    (dev.record (dev.slot d).block j).inodeNo = BitVec.ofNat 64 k

/-- **Consistency of a device.** -/
structure Consistent (dev : Device) : Prop where
  /-- Slot `k - 1` is empty or holds inode `k`. -/
  numbered : ∀ k, 1 ≤ k → k ≤ slotsPerBlock →
    (dev.slot (k - 1)).inodeNo = 0#64 ∨ (dev.slot (k - 1)).inodeNo = BitVec.ofNat 64 k
  /-- A record in use points at a live slot. -/
  target : ∀ d j, dev.Live d → isDir (dev.slot d).mode = true → j < recordsPerBlock →
    (dev.record (dev.slot d).block j).inodeNo ≠ 0#64 →
    dev.Live ((dev.record (dev.slot d).block j).inodeNo.toNat - 1)
  /-- A live inode other than the root is named by one record of one directory. -/
  named : ∀ k, 1 ≤ k → k ≠ rootInodeNumber → dev.Live (k - 1) →
    ∃ d j, dev.RecordOf d j k ∧ ∀ d' j', dev.RecordOf d' j' k → d' = d ∧ j' = j
  /-- No two live inodes share a data block. -/
  block_inj : ∀ i i', dev.Live i → dev.Live i' →
    (dev.slot i).dataBlockNumber = (dev.slot i').dataBlockNumber → i = i'
  /-- `inodes_count` counts the live slots. -/
  count : dev.inodesCount.toNat = dev.liveSlots.card
  /-- The allocator will not hand out the block of a live inode. -/
  taken : ∀ i, dev.Live i → 3 ≤ (dev.slot i).block →
    freeBitTest dev.freeBlocks (dev.slot i).block = false

end Device

/-! ## 2. The invariants give it -/

/-- The slot of an inode number that is not 0. -/
theorem slotIndex_eq {ino : BitVec 64} (h : ino ≠ 0#64) : slotIndex ino = ino.toNat - 1 := by
  have hpos : ino.toNat ≠ 0 := fun h0 => h (BitVec.eq_of_toNat_eq h0)
  have hlt := ino.isLt
  rw [slotIndex, BitVec.toNat_sub]
  simp only [BitVec.reduceToNat]
  omega

variable {dev : Device} {imap : BitVec 64} {pend : Nat → Prop}

theorem liveSlots_card_le (dev : Device) : dev.liveSlots.card ≤ 128 := by
  refine (Finset.card_filter_le _ _).trans ?_
  rw [Finset.card_range]

/-- An entry of the name graph is a record. -/
theorem Device.names_iff_recordOf {d j i : Nat} (hi : i < 128) :
    dev.graph.Names d j i ↔ dev.RecordOf d j (i + 1) := by
  constructor
  · rintro ⟨⟨hl, hd⟩, l, hent⟩
    obtain ⟨hj, -, -, hk⟩ := Device.of_entry_eq_some hent
    refine ⟨hl, hd, hj, ?_⟩
    have hno := inoOf_slotIndex (hk ▸ hi)
    rw [hk] at hno
    exact hno.symm
  · rintro ⟨hl, hd, hj, hno⟩
    have hent := Device.entry_eq_some hj rfl (by rw [hno]; exact inoOf_ne_zero hi)
    have hk : slotIndex (dev.record (dev.slot d).block j).inodeNo = i := by
      rw [hno]
      exact slotIndex_inoOf hi
    rw [hk] at hent
    exact ⟨⟨hl, hd⟩, _, hent⟩

/-- **Store and tree invariant together say that the device is consistent.** -/
theorem Device.consistent_of_inv (hs : StoreInv dev imap pend)
    (ht : TreeInv dev fun _ => False) : dev.Consistent where
  numbered k h1 hk := by
    by_cases h0 : (dev.slot (k - 1)).inodeNo = 0#64
    · exact Or.inl h0
    · refine Or.inr ((hs.slots (k - 1) ⟨by omega, h0⟩).1.trans ?_)
      rw [inoOf, Nat.sub_add_cancel h1]
  target d j hl hd hj hno := by
    have hent := Device.entry_eq_some hj rfl hno
    have htarget := (ht.wf.target d j _ ⟨⟨hl, hd⟩, _, hent⟩).1
    rwa [slotIndex_eq hno] at htarget
  named k h1 hroot hl := by
    have hne : k ≠ 1 := hroot
    obtain ⟨d, j, hn⟩ := ht.wf.named (k - 1) hl (by omega) id
    have hiff : ∀ d j, dev.graph.Names d j (k - 1) ↔ dev.RecordOf d j (k - 1 + 1) :=
      fun _ _ => names_iff_recordOf hl.lt
    rw [Nat.sub_add_cancel h1] at hiff
    refine ⟨d, j, (hiff d j).mp hn, fun d' j' hn' => ?_⟩
    exact ht.wf.inj d' j' d j (k - 1) ((hiff d' j').mpr hn') hn
  block_inj i i' hi hi' h := hs.block_inj i i' hi hi' (congrArg BitVec.toNat h)
  count := by
    rw [hs.count, BitVec.toNat_ofNat]
    exact Nat.mod_eq_of_lt (lt_of_le_of_lt (liveSlots_card_le dev) (by decide))
  taken i hi h3 := by
    by_contra hfree
    rw [Bool.not_eq_false, hs.high.test_iff] at hfree
    exact (hs.avail _ h3 (hs.block i hi).2 hfree).2.1 i hi rfl

/-- The bitmap says which numbers are in use. -/
theorem StoreInv.imap_spec (hs : StoreInv dev imap pend) {k : Nat} (hk : k < 64) :
    imap.getLsbD k = true ↔ k = 0 ∨ dev.Live (k - 1) := by
  obtain _ | i := k
  · exact iff_of_true hs.imap_zero (Or.inl rfl)
  · rw [hs.imap_iff i (by omega)]
    exact ⟨Or.inr, fun h => h.resolve_left (by omega)⟩

/-! ## 3. Every run -/

/-- **The device is consistent in every state that a run reaches**, and while it is mounted the
inode bitmap agrees with the inode store. -/
theorem DefinedRun.consistent {size : Nat} {dev : Device} {s : Sys}
    (hmk : mkfs zeroMem size = (0, dev)) (hrun : DefinedRun ⟨LockState.free, .offline dev⟩ s) :
    s.dev.Consistent ∧ ∀ fs, s.mnt = .mounted fs → ∀ k, k < 64 →
      (fs.imap.getLsbD k = true ↔ k = 0 ∨ fs.dev.Live (k - 1)) := by
  obtain ⟨-, hoff, hon⟩ := hrun.inv (sysInv_mkfs hmk)
  obtain ⟨lk, m⟩ := s
  cases m with
  | offline dev' =>
    obtain ⟨imap, hs, ht⟩ := hoff dev' rfl
    exact ⟨Device.consistent_of_inv hs ht, fun fs h => by cases h⟩
  | mounted fs =>
    have hi := hon fs rfl
    refine ⟨Device.consistent_of_inv hi.store hi.tree, fun fs' h k hk => ?_⟩
    cases h
    exact hi.store.imap_spec hk

/-- A fresh image on four blocks, mounted, its root listed. -/
theorem DefinedRun.consistent_listed : listedFs.dev.Consistent :=
  (DefinedRun.consistent mkfs_fresh DefinedRun.listed).1

end Simplefs
