/-
# What the two bitmaps hand out

`simplefs_sb_get_a_freeblock` looks for the lowest free block in a 64-bit word, with an `int`
expression that is good for the bits 3 to 30.  From 31 on one shift stands for many bits, and from
32 on the shift itself is wider than its operand.

`simplefs_create_fs_object` asks `ffz` for an inode number, and checks only that fewer than 64
inodes are counted.  That there is always a number is a matter of the blocks: an inode that is
added has a block that is never handed out again, and there are not enough blocks for the numbers
to run out.
-/
import Simplefs.Room
import Simplefs.Tidy

namespace Simplefs

open Prog (run LockState Ending)

/-! ## 1. The free-block word -/

/-- The shift counts of `simplefs_sb_get_a_freeblock`: one for each bit that the loop tests, and
one more to clear the bit that it finds. -/
def shiftCounts (w : BitVec 64) : List Nat → List Nat
  | [] => []
  | i :: l => if freeBitTest w i then [i, i] else i :: shiftCounts w l

/-- **The allocator takes exactly the lowest free block**, or finds that there is none. -/
structure TakesLowest (w : BitVec 64) (out : Except Int Nat) (w' : BitVec 64) : Prop where
  lowest : ∀ i, 3 ≤ i → i < 64 → w.getLsbD i = true →
    (∀ j, 3 ≤ j → j < i → w.getLsbD j = false) →
      out = .ok i ∧ ∀ j, j < 64 → w'.getLsbD j = (w.getLsbD j && !decide (j = i))
  full : (∀ i, 3 ≤ i → i < 64 → w.getLsbD i = false) → out = .error (-ENOSPC) ∧ w' = w

/-- It returns so, and every shift on the way is within the width of an `int`. -/
def AllocatesExactly (fs : Fs) (r : Ending Fs Lock Fault (Except Int Nat)) : Prop :=
  (∃ out fs', r = .returned out fs' ∧ TakesLowest fs.dev.freeBlocks out fs'.dev.freeBlocks) ∧
    ∀ i ∈ shiftCounts fs.dev.freeBlocks (List.range' 3 (maxObjects - 3)), i < 32

/-- One of the bits 3 to 30 is set; or bit 31 is, and none above it. -/
def WithinInt (w : BitVec 64) : Prop :=
  (∃ b, 3 ≤ b ∧ b ≤ 30 ∧ w.getLsbD b = true) ∨
    w.getLsbD 31 = true ∧ ∀ j, 32 ≤ j → j < 64 → w.getLsbD j = false

section

variable {w : BitVec 64} {b i : Nat}

/-- The bits that are shifted to: everything before them failed its test. -/
theorem mem_shiftCounts {l : List Nat} (h : l.Pairwise (· < ·)) :
    i ∈ shiftCounts w l ↔ i ∈ l ∧ ∀ j ∈ l, j < i → freeBitTest w j = false := by
  induction l with
  | nil => simp [shiftCounts]
  | cons a l ih =>
    rw [List.pairwise_cons] at h
    obtain ⟨ha, hl⟩ := h
    rw [shiftCounts]
    split
    · rename_i htest
      constructor
      · intro hi
        have hia : i = a := by simpa using hi
        refine ⟨by simp [hia], fun j hj hji => ?_⟩
        rcases List.mem_cons.mp hj with rfl | hj
        · omega
        · have := ha j hj
          omega
      · rintro ⟨hi, hno⟩
        rcases List.mem_cons.mp hi with rfl | hi
        · simp
        · rw [hno a List.mem_cons_self (ha i hi)] at htest
          cases htest
    · rename_i htest
      rw [List.mem_cons, ih hl]
      constructor
      · rintro (rfl | ⟨hi, hno⟩)
        · refine ⟨List.mem_cons_self, fun j hj hji => ?_⟩
          rcases List.mem_cons.mp hj with rfl | hj
          · omega
          · have := ha j hj
            omega
        · refine ⟨List.mem_cons_of_mem _ hi, fun j hj hji => ?_⟩
          rcases List.mem_cons.mp hj with rfl | hj
          · simpa using htest
          · exact hno j hj hji
      · rintro ⟨hi, hno⟩
        rcases List.mem_cons.mp hi with rfl | hi
        · exact Or.inl rfl
        · exact Or.inr ⟨hi, fun j hj => hno j (List.mem_cons_of_mem _ hj)⟩

theorem mem_shiftCounts_scan : i ∈ shiftCounts w (List.range' 3 (maxObjects - 3)) ↔
    (3 ≤ i ∧ i < 64) ∧ ∀ j, 3 ≤ j → j < i → freeBitTest w j = false := by
  rw [mem_shiftCounts List.pairwise_lt_range', mem_scan_range]
  refine and_congr_right fun hi => ⟨fun h j hj hji => ?_, fun h j hj hji => ?_⟩
  · exact h j (mem_scan_range.mpr ⟨hj, by omega⟩) hji
  · exact h j (mem_scan_range.mp hj).1 hji

/-- No shift goes beyond the bit that is found. -/
theorem le_of_mem_shiftCounts (h3 : 3 ≤ b) (htest : freeBitTest w b = true)
    (hi : i ∈ shiftCounts w (List.range' 3 (maxObjects - 3))) : i ≤ b := by
  by_contra hge
  have hno := (mem_shiftCounts_scan.mp hi).2 b h3 (by omega)
  rw [htest] at hno
  cases hno

/-- The test at 31 is the test of all the bits from there on. -/
theorem freeBitTest_31 : freeBitTest w 31 = true ↔ ∃ j, 31 ≤ j ∧ j < 64 ∧ w.getLsbD j = true := by
  rw [freeBitTest_iff]
  constructor
  · rintro ⟨j, hj, hw, hm⟩
    exact ⟨j, by omega, hj, hw⟩
  · rintro ⟨j, hj, hj', hw⟩
    exact ⟨j, hj', hw, by omega⟩

/-- With nothing below it, the loop stops at 31 if the test there succeeds. -/
theorem freeBlockScan_31 (hno : ∀ j, 3 ≤ j → j ≤ 30 → w.getLsbD j = false)
    (h : freeBitTest w 31 = true) : freeBlockScan w = some 31 := by
  cases hs : freeBlockScan w with
  | none =>
    rw [freeBlockScan_none hs (by omega) (by omega)] at h
    cases h
  | some b =>
    obtain ⟨h3, -, hb⟩ := freeBlockScan_some hs
    rcases Nat.lt_trichotomy b 31 with hlt | rfl | hgt
    · rw [freeBitTest_low (by omega), hno b h3 (by omega)] at hb
      cases hb
    · rfl
    · rw [freeBlockScan_least hs (by omega) hgt] at h
      cases h

/-- With nothing below it either, the loop stops at 31 if it does not shift by more. -/
theorem freeBitTest_31_of_shiftCounts (hno : ∀ j, 3 ≤ j → j ≤ 30 → w.getLsbD j = false)
    (h : ∀ i ∈ shiftCounts w (List.range' 3 (maxObjects - 3)), i < 32) :
    freeBitTest w 31 = true := by
  by_contra hf
  have h32 : 32 ∈ shiftCounts w (List.range' 3 (maxObjects - 3)) := by
    refine mem_shiftCounts_scan.mpr ⟨by omega, fun j h3 hj => ?_⟩
    rcases Nat.lt_or_ge j 31 with hlt | hge
    · rw [freeBitTest_low (by omega), hno j h3 (by omega)]
    · obtain rfl : j = 31 := by omega
      simpa using hf
  exact absurd (h 32 h32) (by omega)

/-- **One of the low bits** is found and cleared exactly. -/
theorem takesLowest_low (hs : freeBlockScan w = some b) (hb : b ≤ 30) :
    TakesLowest w (.ok b) (takeBlock w b) := by
  obtain ⟨h3, -, htest⟩ := freeBlockScan_some hs
  rw [freeBitTest_low hb] at htest
  constructor
  · intro i hi hi' hw hno
    have hib : i = b := by
      rcases Nat.lt_trichotomy i b with h | h | h
      · have := freeBlockScan_least hs hi h
        rw [freeBitTest_low (by omega), hw] at this
        cases this
      · exact h
      · rw [hno b h3 h] at htest
        cases htest
    rw [hib]
    exact ⟨rfl, fun j hj => getLsbD_takeBlock_low w hb hj⟩
  · intro hall
    rw [hall b h3 (by omega)] at htest
    cases htest

/-- **Bit 31** is exactly if nothing is above it. -/
theorem takesLowest_31_iff (hno : ∀ j, 3 ≤ j → j ≤ 30 → w.getLsbD j = false)
    (h31 : freeBitTest w 31 = true) : TakesLowest w (.ok 31) (takeBlock w 31) ↔
      w.getLsbD 31 = true ∧ ∀ j, 32 ≤ j → j < 64 → w.getLsbD j = false := by
  constructor
  · intro ht
    have hex := freeBitTest_31.mp h31
    -- the lowest bit from 31 on is the lowest of all
    obtain ⟨k, hk⟩ : ∃ k, k = Nat.find hex := ⟨_, rfl⟩
    obtain ⟨hk31, hk64, hwk⟩ := hk ▸ Nat.find_spec hex
    have hleast : ∀ j, 3 ≤ j → j < k → w.getLsbD j = false := by
      intro j h3 hj
      rcases Nat.lt_or_ge j 31 with h | h
      · exact hno j h3 (by omega)
      · by_contra hj'
        exact Nat.find_min hex (hk ▸ hj) ⟨h, by omega, by simpa using hj'⟩
    obtain ⟨hout, hbits⟩ := ht.lowest k (by omega) hk64 hwk hleast
    obtain rfl : 31 = k := Except.ok.inj hout
    refine ⟨hwk, fun j h32 h64 => ?_⟩
    have hne : ¬ j = 31 := by omega
    have hj := hbits j h64
    rw [getLsbD_takeBlock w 31 h64, decide_eq_true (Or.inr ⟨h32, rfl⟩), decide_eq_false hne] at hj
    simpa using hj.symm
  · rintro ⟨hbit, habove⟩
    constructor
    · intro i hi hi' hw hleast
      obtain rfl : i = 31 := by
        rcases Nat.lt_trichotomy i 31 with h | h | h
        · rw [hno i hi (by omega)] at hw
          cases hw
        · exact h
        · rw [habove i (by omega) hi'] at hw
          cases hw
      refine ⟨rfl, fun j hj => ?_⟩
      rw [getLsbD_takeBlock w 31 hj]
      rcases Nat.lt_or_ge j 32 with h | h
      · congr 2
        exact decide_eq_decide.mpr (by omega)
      · rw [habove j h hj, Bool.false_and, Bool.false_and]
    · intro hall
      rw [hall 31 (by omega) (by omega)] at hbit
      cases hbit

end

variable {fs : Fs} {intr : Site → Bool} {lk : LockState Lock}

/-- What the allocator returns, its lock acquired. -/
theorem run_getAFreeblock_acquired (hl : lk.held .sb = false)
    (hi : intr .getAFreeblock = false) : (run intr simplefsSbGetAFreeblock lk fs).1 =
      match freeBlockScan fs.dev.freeBlocks with
      | none => .returned (.error (-ENOSPC)) fs
      | some b => .returned (.ok b) (fs.taken b) := by
  rw [← bind_pure simplefsSbGetAFreeblock, run_getAFreeblock _ hl, hi, if_neg Bool.false_ne_true]
  cases freeBlockScan fs.dev.freeBlocks with
  | none => simp only [Prog.run_pure]
  | some b => simp only [Prog.run_pure, Fs.taken]

/-- **The allocator is exact exactly when** the lowest free block is one that an `int` can name. -/
theorem allocatesExactly_iff (hl : lk.held .sb = false) (hi : intr .getAFreeblock = false) :
    AllocatesExactly fs (run intr simplefsSbGetAFreeblock lk fs).1 ↔
      WithinInt fs.dev.freeBlocks := by
  rw [AllocatesExactly, run_getAFreeblock_acquired hl hi]
  obtain ⟨w, hw⟩ : ∃ w, w = fs.dev.freeBlocks := ⟨_, rfl⟩
  have htaken : ∀ b, (fs.taken b).dev.freeBlocks = takeBlock w b := fun b => by
    rw [hw, Fs.taken, Device.freeBlocks_setFreeBlocks]
  rw [← hw]
  by_cases hlow : ∃ b, 3 ≤ b ∧ b ≤ 30 ∧ w.getLsbD b = true
  · refine iff_of_true ?_ (Or.inl hlow)
    obtain ⟨i, hi3, hi30, hwi⟩ := hlow
    obtain ⟨b, hs, h3, h30, -⟩ := freeBlockScan_low hi3 hi30 hwi
    rw [hs]
    refine ⟨⟨_, _, rfl, ?_⟩, fun j hj => ?_⟩
    · rw [htaken]
      exact takesLowest_low hs h30
    · have hjb := le_of_mem_shiftCounts h3 (freeBlockScan_some hs).2.2 hj
      omega
  have hno : ∀ j, 3 ≤ j → j ≤ 30 → w.getLsbD j = false := by
    intro j h3 h30
    by_contra hj
    exact hlow ⟨j, h3, h30, by simpa using hj⟩
  rw [WithinInt, or_iff_right hlow]
  constructor
  · rintro ⟨⟨out, fs', hr, ht⟩, hshift⟩
    have h31 := freeBitTest_31_of_shiftCounts hno hshift
    rw [freeBlockScan_31 hno h31] at hr
    cases hr
    rw [htaken] at ht
    exact (takesLowest_31_iff hno h31).mp ht
  · intro h
    have h31 : freeBitTest w 31 = true := freeBitTest_31.mpr ⟨31, by omega, by omega, h.1⟩
    rw [freeBlockScan_31 hno h31]
    refine ⟨⟨_, _, rfl, ?_⟩, fun j hj => ?_⟩
    · rw [htaken]
      exact (takesLowest_31_iff hno h31).mpr h
    · have hj31 := le_of_mem_shiftCounts (by omega) h31 hj
      omega

/-- On a fresh image block 4 is the lowest. -/
theorem allocatesExactly_iff_fresh :
    AllocatesExactly freshFs (run quiet simplefsSbGetAFreeblock LockState.free freshFs).1 :=
  (allocatesExactly_iff rfl rfl).mpr (Or.inl ⟨4, by omega, by omega, by
    rw [freshFs, mountedFs, freshDevice.freeBlocks]
    decide⟩)

/-- The word once the blocks 3 to 30 have been handed out. -/
def lowBlocksTaken : BitVec 64 := 0xffffffff80000000

/-- **With only the bits from 31 on set**, block 31 is handed out and all the bits are cleared. -/
theorem not_allocatesExactly_high :
    ¬ AllocatesExactly (Fs.blank (Device.setFreeBlocks zeroMem lowBlocksTaken) 0)
      (run quiet simplefsSbGetAFreeblock LockState.free
        (Fs.blank (Device.setFreeBlocks zeroMem lowBlocksTaken) 0)).1 := by
  have hw : (Fs.blank (Device.setFreeBlocks zeroMem lowBlocksTaken) 0).dev.freeBlocks =
      lowBlocksTaken := Device.freeBlocks_setFreeBlocks _ _
  have hscan : freeBlockScan lowBlocksTaken = some 31 := by decide
  rintro ⟨⟨out, fs', hr, ht⟩, -⟩
  rw [run_getAFreeblock_acquired rfl rfl, hw, hscan] at hr
  cases hr
  rw [hw, Fs.taken, hw, Device.freeBlocks_setFreeBlocks] at ht
  have hbit := (ht.lowest 31 (by omega) (by omega) (by decide) (by decide)).2 32 (by omega)
  exact absurd hbit (by decide)

/-! ## 2. The inode numbers -/

/-- **A number for a create**: `ffz` picks `n`, no live inode has it, and it addresses an empty
slot of the inode store. -/
structure NumberFor (fs : Fs) (n : Nat) : Prop where
  picked : ffz fs.imap = some n
  range : 1 ≤ n ∧ n ≤ 63
  notLive : ∀ i, fs.dev.Live i → (fs.dev.slot i).inodeNo ≠ BitVec.ofNat 64 n
  empty : slotIndex (BitVec.ofNat 64 n) < slotsPerBlock ∧
    (fs.dev.slot (slotIndex (BitVec.ofNat 64 n))).inodeNo = 0#64

/-- In a filesystem that is in order there is one. -/
theorem Fs.Tidy.exists_number {fs : Fs} {n : Nat} (h : fs.Tidy n) (hn : n < 63) :
    ∃ k, NumberFor fs k := by
  obtain ⟨i, hi, hi63, hdead⟩ := h.pick hn
  have hidx : slotIndex (BitVec.ofNat 64 (i + 1)) = i := slotIndex_inoOf (by omega)
  have hi128 : i < 128 := by omega
  refine ⟨i + 1, hi, by omega, fun k hl hk => ?_, ?_⟩
  · obtain ⟨hno, hk63⟩ := h.device.slots k hl
    obtain rfl : k = i := inoOf_inj (by omega) (by omega) (hno.symm.trans hk)
    exact hdead hl
  · rw [hidx]
    refine ⟨hi128, ?_⟩
    by_contra hne
    exact hdead ⟨hi128, hne⟩

/-- **Inode numbers never run out**: in every state of every run from a formatted device there is
a number for a create, and a create that comes to its block goes on with that number. -/
theorem History.numberFor {dev dev' : Device} {size : Nat} {lk : LockState Lock}
    {evs : List Event} {fs : Fs} (hz : dev.ZeroStart) (hmk : mkfs dev size = (0, dev'))
    (hr : History ⟨LockState.free, .offline dev'⟩ evs ⟨lk, .mounted fs⟩) :
    ∃ n, NumberFor fs n ∧ ∀ p x c name mode intr b, fs.dentries p = some x → x.fsdata = some c →
      (∀ l, lk.held l = false) → fs.CreateStarts mode intr → intr .getAFreeblock = false →
      freeBlockScan fs.dev.freeBlocks = some b →
        run intr (simplefsCreateFsObject p name mode) lk fs =
          run intr (do
            simplefsInodeAdd (newInode mode n b)
            createTail p name (newInode mode n b)) (lk.take .childrenUpdate) (fs.taken b) := by
  obtain ⟨n, hn⟩ := (History.tidy_mkfs hz hmk hr).exists_number (by omega)
  refine ⟨n, hn, fun p x c name mode intr b hx hc hl hst hblk hb => ?_⟩
  rw [← bind_pure (simplefsCreateFsObject p name mode), run_create_started _ hx hc hl hst]
  simp only [hn.picked, hblk, hb, Bool.false_eq_true, if_false, bind_pure]

/-- A file is made in the listed root of a fresh image, and unlinked again. -/
def emptiedFs : Fs :=
  match run quiet (Op.unlink 1).code LockState.free (filledFs 1) with
  | (.returned _ fs, _) => fs
  | _ => filledFs 1

theorem filledFs_child : ((filledFs 1).dentries 1).any
    (fun y => y.parent == 0 && y.linked && isReg y.inode.mode) = true := by
  decide +kernel

theorem emptiedFs_test :
    emptiedFs.rootTest newName (fun c => !c.free.isEmpty) = true ∧
    emptiedFs.CreateStarts 0x81a4 quiet ∧ freeBlockScan emptiedFs.dev.freeBlocks = some 5 := by
  decide +kernel

theorem DefinedRun.emptied :
    DefinedRun ⟨LockState.free, .offline freshDevice⟩ ⟨LockState.free, .mounted emptiedFs⟩ := by
  have hrun : DefinedRun _ _ := DefinedRun.filled (show 1 ≤ 14 by decide)
  have hi := (hrun.inv (sysInv_mkfs mkfs_fresh)).mounted _ rfl
  obtain ⟨x, c, hx, hc, -⟩ := Fs.rootTest_sound hi (filledFs_test 1 (by decide))
  have htest := filledFs_child
  obtain ⟨y, hy⟩ : ∃ y, (filledFs 1).dentries 1 = some y := by
    refine Option.ne_none_iff_exists'.mp fun hnone => ?_
    rw [hnone] at htest
    cases htest
  rw [hy, Option.any_some, Bool.and_eq_true, Bool.and_eq_true, beq_iff_eq] at htest
  obtain ⟨⟨hpar, hlink⟩, hreg⟩ := htest
  have ha : (Op.unlink 1).Allowed (filledFs 1) := ⟨by decide, y, hy, hlink, hreg⟩
  have hd : (Op.unlink 1).Defined (filledFs 1) := by
    intro y' hy'
    cases hy.symm.trans hy'
    rw [hpar]
    exact ⟨x, c, hx.1, hc⟩
  have hw : (Op.unlink 1).WorksIn (filledFs 1) 0 := ⟨y, hy, hpar⟩
  obtain ⟨fs', hret, -⟩ := hi.run_worksIn hw ha hd
  have heq : emptiedFs = fs' := by rw [emptiedFs, hret]
  rw [heq]
  exact hrun.tail (.call ha hd hret)

theorem History.numberFor_emptied : ∃ evs n,
    History ⟨LockState.free, .offline freshDevice⟩ evs ⟨LockState.free, .mounted emptiedFs⟩ ∧
    NumberFor emptiedFs n ∧
    run quiet (simplefsCreateFsObject 0 newName 0x81a4) LockState.free emptiedFs =
      run quiet (do
        simplefsInodeAdd (newInode 0x81a4 n 5)
        createTail 0 newName (newInode 0x81a4 n 5))
        (LockState.free.take .childrenUpdate) (emptiedFs.taken 5) := by
  have hz : Device.ZeroStart zeroMem := fun _ _ => rfl
  obtain ⟨htest, hst, hb⟩ := emptiedFs_test
  have hi := (DefinedRun.emptied.inv (sysInv_mkfs mkfs_fresh)).mounted _ rfl
  obtain ⟨x, c, hx, hc, -⟩ := Fs.rootTest_sound hi htest
  obtain ⟨evs, hr⟩ := DefinedRun.emptied.history
  obtain ⟨n, hn, hgo⟩ := History.numberFor hz mkfs_fresh hr
  exact ⟨evs, n, hr, hn, hgo 0 x c newName 0x81a4 quiet 5 hx.1 hc (fun _ => rfl) hst rfl hb⟩
end Simplefs
