/-
# Formatting a device that is not empty

`mkfs-simplefs` seeks over the rest of the inode store and over the rest of the root's block; it
says that padding bytes have been written there, but it writes none.  Whatever inode numbers the
device held in those places before, a mount reads: a left-over slot is a live inode, a left-over
record is a name in the root.
-/
import Simplefs.Mkfs
import Simplefs.Mount

namespace Simplefs

open Prog (run LockState)

/-! ## 1. The initial filesystem -/

/-- What a mount reads from a new image: the root and the welcome file, and nothing else. -/
structure InitialState (fs : Fs) : Prop where
  imap : ∀ k, k < 64 → (fs.imap.getLsbD k = true ↔ k ≤ 2)
  root : ∃ x, fs.dentries 0 = some x ∧ x.inode = rootInode
  welcome : fs.dev.slot 1 = welcomeInode
  /-- The other slots are empty. -/
  slots : ∀ i, 2 ≤ i → i < slotsPerBlock → (fs.dev.slot i).inodeNo = 0#64
  /-- The root's cache has one used entry, ... -/
  used : ∃ e, (dirCacheBuild simplefsCacheAlloc (fs.dev.record rootDataBlockNumber)).used = [e] ∧
    e.entryNo = 0 ∧ e.record.filename = vanakkam ∧ e.record.inodeNo = 2#64
  /-- ... and fourteen free ones. -/
  free : (dirCacheBuild simplefsCacheAlloc (fs.dev.record rootDataBlockNumber)).free.map
    CacheEntry.entryNo = List.range' 1 14
  inodesCount : fs.dev.inodesCount = 2#64
  freeBlocks : fs.dev.freeBlocks = initialFreeBlocks

/-- The image mounts, and as the initial filesystem. -/
def MountsFresh (dev : Device) : Prop :=
  ∀ past, ∃ fs, run quiet simplefsFillSuper LockState.free (Fs.blank dev past) =
    (.returned 0 fs, LockState.free) ∧ fs.dev = dev ∧ InitialState fs

/-- Before it is formatted, the places that `mkfs` passes over hold no inode number: slots 2 to
127 of block 1, and records 1 to 14 of block 2. -/
def Device.EmptyGaps (dev : Device) : Prop :=
  (∀ i, 2 ≤ i → i < slotsPerBlock → (dev.slot i).inodeNo = 0#64) ∧
    ∀ j, 1 ≤ j → j < recordsPerBlock → (dev.record rootDataBlockNumber j).inodeNo = 0#64

/-! ## 2. When the image is the initial filesystem -/

variable {dev dev' : Device} {size : Nat}

/-- The numbers in the records decide which of them are used. -/
theorem liveEntries_single {records : Nat → DirRecord}
    (h : ∀ j, 1 ≤ j → j < recordsPerBlock → (records j).inodeNo = 0#64)
    (h0 : (records 0).inodeNo ≠ 0#64) :
    liveEntries records = [⟨records 0, 0⟩] ∧ freeNumbers records = List.range' 1 14 := by
  have hrange : List.range recordsPerBlock = 0 :: List.range' 1 14 := rfl
  have hmem : ∀ j ∈ List.range' 1 14, (records j).inodeNo = 0#64 := by
    intro j hj
    obtain ⟨h1, h15⟩ := List.mem_range'_1.mp hj
    exact h j h1 h15
  constructor
  · rw [liveEntries, hrange, List.filter_cons, if_pos (decide_eq_true h0),
      List.filter_eq_nil_iff.mpr fun j hj => by simp [hmem j hj], List.map_singleton]
  · rw [freeNumbers, hrange, List.filter_cons, if_neg (by simp [h0]),
      List.filter_eq_self.mpr fun j hj => decide_eq_true (hmem j hj)]

/-- With empty gaps, a mount reads the initial filesystem. -/
theorem mountsFresh_of_emptyGaps (h : dev.EmptyGaps) : MountsFresh (formatDevice dev) := by
  intro past
  have hslot : ∀ i, i < slotsPerBlock →
      ((formatDevice dev).slot i).inodeNo = (freshDevice.slot i).inodeNo := by
    intro i hi
    rcases Nat.lt_or_ge i 2 with h2 | h2
    · rcases freshDevice.lt_two_cases h2 with rfl | rfl
      · rw [formatDevice.slot_zero, freshDevice.slot_zero]
      · rw [formatDevice.slot_one, freshDevice.slot_one]
    · rw [formatDevice.slot_rest dev h2 hi, h.1 i h2 hi, freshDevice.slot_rest h2 hi]
      rfl
  have hmap : fillImap (formatDevice dev).slot = .ok 7#64 :=
    (fillImap_congr hslot).trans freshDevice.store.fillImap
  refine ⟨_, run_fillSuper_of_fillImap (formatDevice.formatted dev) hmap past rfl, rfl, ?_⟩
  have hzero := formatDevice.record_zero dev
  have hrest : ∀ j, 1 ≤ j → j < recordsPerBlock →
      ((formatDevice dev).record 2 j).inodeNo = 0#64 := by
    intro j h1 h15
    rw [formatDevice.record_rest dev h1 h15]
    exact h.2 j h1 h15
  have hbits : ∀ k, k < 64 → ((7#64).getLsbD k = true ↔ k ≤ 2) := by decide
  obtain ⟨records, hrecords⟩ : ∃ r, r = (formatDevice dev).record rootDataBlockNumber := ⟨_, rfl⟩
  rw [← hrecords] at hzero hrest
  obtain ⟨hlive, hfree⟩ := liveEntries_single hrest (by rw [hzero.1]; decide)
  refine ⟨hbits, ⟨_, rfl, formatDevice.slot_zero dev⟩, formatDevice.slot_one dev, ?_, ?_, ?_,
    formatDevice.inodesCount dev, formatDevice.freeBlocks dev⟩
  · intro i h2 hi
    change ((formatDevice dev).slot i).inodeNo = 0#64
    rw [formatDevice.slot_rest dev h2 hi]
    exact h.1 i h2 hi
  · refine ⟨⟨records 0, 0⟩, ?_, rfl, hzero.2, hzero.1⟩
    change (dirCacheBuild simplefsCacheAlloc
      ((formatDevice dev).record rootDataBlockNumber)).used = _
    rw [← hrecords, dirCacheBuild_used, hlive]
    rfl
  · change (dirCacheBuild simplefsCacheAlloc
      ((formatDevice dev).record rootDataBlockNumber)).free.map _ = _
    rw [← hrecords, dirCacheBuild_free, hfree]
    rfl

/-- What a mount reads, it reads from the gaps too. -/
theorem emptyGaps_of_mountsFresh (h : MountsFresh (formatDevice dev)) : dev.EmptyGaps := by
  obtain ⟨fs, -, hdev, hinit⟩ := h 0#64
  have hslots := hinit.slots
  have hfree := hinit.free
  rw [hdev] at hslots hfree
  constructor
  · intro i h2 hi
    rw [← formatDevice.slot_rest dev h2 hi]
    exact hslots i h2 hi
  · intro j h1 h15
    rw [← formatDevice.record_rest dev h1 h15]
    have hmem : j ∈ List.range' 1 14 := List.mem_range'_1.mpr ⟨h1, h15⟩
    rw [← hfree, (dirCacheBuild_agrees _).free.mem_iff] at hmem
    exact (mem_freeNumbers.mp hmem).2

/-- **A formatted device is the initial filesystem exactly when the gaps were empty before.** -/
theorem mkfs_mountsFresh_iff (h : mkfs dev size = (0, dev')) :
    MountsFresh dev' ↔ dev.EmptyGaps := by
  rw [mkfs_ok h]
  exact ⟨emptyGaps_of_mountsFresh, mountsFresh_of_emptyGaps⟩

/-- A zeroed device of four blocks. -/
theorem mkfs_mountsFresh_zeroed : MountsFresh freshDevice :=
  (mkfs_mountsFresh_iff (mkfs_room (show 12329 ≤ 16384 by omega))).mpr
    ⟨fun _ _ _ => congrArg SfsInode.inodeNo (inodeAt_of_zero fun _ _ _ => rfl),
      fun _ _ _ => (congrArg DirRecord.inodeNo (recordAt_of_zero fun _ _ _ => rfl)).trans
        DirRecord.inodeNo_zero⟩

/-- **A device of four blocks that is full of ones**: it is formatted without an error, and slot
2 of the inode store is left over. -/
theorem mkfs_not_fresh : ∃ dev', mkfs (fun _ => 1) 16384 = (0, dev') ∧ ¬ MountsFresh dev' := by
  refine ⟨_, mkfs_room (by omega), fun h => ?_⟩
  have hslot := (emptyGaps_of_mountsFresh h).1 2 (by omega) (by decide)
  have hno : ByteMem.load64 (fun _ => 1) 4168 ≠ 0#64 := by decide
  exact hno hslot

end Simplefs
