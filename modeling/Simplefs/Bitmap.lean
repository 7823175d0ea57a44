/-
# The two bitmaps

`sb->free_blocks` has a set bit for each free block and is searched and cleared with the C
expression `1 << i`, an `int`, for `i` from 3 to 63.  On x86 the shift count is taken mod 32 and
the result is sign-extended to the 64 bits of `free_blocks`, so

* `i ≤ 30` is bit `i` alone,
* `i = 31` is the bits 31 to 63 together,
* `32 ≤ i` repeats bits `0, 1, ..`.

`sb_info->imap` is a kernel bitmap: `set_bit`, `clear_bit` and `ffz` act on the bit they name.
-/
import Simplefs.Layout

namespace Simplefs

/-! ## 1. The inode bitmap -/

/-- `set_bit(n, &w)`, for a bit inside the word. -/
def setBit (w : BitVec 64) (n : Nat) : BitVec 64 := w ||| 1#64 <<< n

/-- `clear_bit(n, &w)`, for a bit inside the word. -/
def clearBit (w : BitVec 64) (n : Nat) : BitVec 64 := w &&& ~~~(1#64 <<< n)

/-- `ffz(w)`: the lowest zero bit.  The kernel's is undefined when there is none. -/
def ffz (w : BitVec 64) : Option Nat := (List.range 64).find? fun i => !w.getLsbD i

theorem getLsbD_one_shl {n i : Nat} (hi : i < 64) :
    (1#64 <<< n).getLsbD i = decide (i = n) := by
  rw [BitVec.getLsbD_shiftLeft, BitVec.getLsbD_one, decide_eq_true hi]
  by_cases h : i = n
  · subst h; simp
  · rcases Nat.lt_or_gt_of_ne h with hlt | hgt
    · simp [h, hlt]
    · simp [h, Nat.not_lt.mpr (Nat.le_of_lt hgt), Nat.sub_ne_zero_of_lt hgt]

theorem getLsbD_setBit (w : BitVec 64) (n : Nat) {i : Nat} (hi : i < 64) :
    (setBit w n).getLsbD i = (w.getLsbD i || decide (i = n)) := by
  rw [setBit, BitVec.getLsbD_or, getLsbD_one_shl hi]

theorem getLsbD_clearBit (w : BitVec 64) (n : Nat) {i : Nat} (hi : i < 64) :
    (clearBit w n).getLsbD i = (w.getLsbD i && !decide (i = n)) := by
  rw [clearBit, BitVec.getLsbD_and, BitVec.getLsbD_not, getLsbD_one_shl hi, decide_eq_true hi,
    Bool.true_and]

theorem ffz_some {w : BitVec 64} {n : Nat} (h : ffz w = some n) :
    n < 64 ∧ w.getLsbD n = false := by
  have hmem := List.mem_of_find?_eq_some h
  have hbit := List.find?_some h
  exact ⟨List.mem_range.mp hmem, by simpa using hbit⟩

theorem ffz_ne_none {w : BitVec 64} {n : Nat} (hn : n < 64) (h : w.getLsbD n = false) :
    ∃ m, ffz w = some m := by
  cases hf : ffz w with
  | some m => exact ⟨m, rfl⟩
  | none => simpa [h] using List.find?_eq_none.mp hf n (List.mem_range.mpr hn)

/-! ## 2. The free-block word -/

/-- `1 << i` as x86 computes it and C widens it. -/
def intShl (i : Nat) : BitVec 64 := (1#32 <<< (i % 32)).signExtend 64

/-- The test `sb->free_blocks & (1 << i)`. -/
def freeBitTest (w : BitVec 64) (i : Nat) : Bool := w &&& intShl i != 0#64

/-- The loop of `simplefs_sb_get_a_freeblock`: the first `i` from 3 whose test succeeds. -/
def freeBlockScan (w : BitVec 64) : Option Nat :=
  (List.range' 3 (maxObjects - 3)).find? (freeBitTest w)

/-- `sb->free_blocks &= ~(1 << i)`. -/
def takeBlock (w : BitVec 64) (i : Nat) : BitVec 64 := w &&& ~~~intShl i

theorem getLsbD_intShl (i : Nat) {j : Nat} (hj : j < 64) :
    (intShl i).getLsbD j = decide (j = i % 32 ∨ 32 ≤ j ∧ i % 32 = 31) := by
  have hi : i % 32 < 32 := Nat.mod_lt _ (by omega)
  have h32 : ∀ k, k < 32 → (1#32 <<< (i % 32)).getLsbD k = decide (k = i % 32) := by
    intro k hk
    rw [BitVec.getLsbD_shiftLeft, BitVec.getLsbD_one, decide_eq_true hk]
    rcases Nat.lt_trichotomy k (i % 32) with h | h | h
    · simp [h, Nat.ne_of_lt h]
    · simp [h]
    · simp [Nat.not_lt.mpr (Nat.le_of_lt h), Nat.sub_ne_zero_of_lt h, Nat.ne_of_gt h]
  rw [intShl, BitVec.getLsbD_signExtend, decide_eq_true hj, Bool.true_and]
  split
  · rename_i h
    rw [h32 j h]
    exact decide_eq_decide.mpr (by omega)
  · rw [BitVec.msb_eq_getLsbD_last, h32 31 (by omega)]
    exact decide_eq_decide.mpr (by omega)

theorem getLsbD_takeBlock (w : BitVec 64) (i : Nat) {j : Nat} (hj : j < 64) :
    (takeBlock w i).getLsbD j = (w.getLsbD j && !decide (j = i % 32 ∨ 32 ≤ j ∧ i % 32 = 31)) := by
  rw [takeBlock, BitVec.getLsbD_and, BitVec.getLsbD_not, getLsbD_intShl i hj, decide_eq_true hj,
    Bool.true_and]

theorem freeBitTest_iff {w : BitVec 64} {i : Nat} : freeBitTest w i = true ↔
    ∃ j, j < 64 ∧ w.getLsbD j = true ∧ (j = i % 32 ∨ 32 ≤ j ∧ i % 32 = 31) := by
  rw [freeBitTest, bne_iff_ne]
  constructor
  · intro h
    by_contra hno
    refine h (BitVec.eq_of_getLsbD_eq fun j hj => ?_)
    rw [BitVec.getLsbD_and, getLsbD_intShl i hj, BitVec.getLsbD_zero, Bool.and_eq_false_iff]
    by_cases hw : w.getLsbD j = true
    · exact Or.inr (decide_eq_false fun hm => hno ⟨j, hj, hw, hm⟩)
    · exact Or.inl (by simpa using hw)
  · rintro ⟨j, hj, hw, hm⟩ h
    have : (w &&& intShl i).getLsbD j = true := by
      rw [BitVec.getLsbD_and, getLsbD_intShl i hj, hw, decide_eq_true hm, Bool.true_and]
    rw [h, BitVec.getLsbD_zero] at this
    cases this

/-- Below 31 the test is the test of the one bit. -/
theorem freeBitTest_low {w : BitVec 64} {i : Nat} (hi : i ≤ 30) :
    freeBitTest w i = w.getLsbD i := by
  rw [Bool.eq_iff_iff, freeBitTest_iff]
  constructor
  · rintro ⟨j, -, hw, hm⟩
    rwa [show i = j by omega]
  · intro hw
    exact ⟨i, by omega, hw, by omega⟩

theorem mem_scan_range {i : Nat} : i ∈ List.range' 3 (maxObjects - 3) ↔ 3 ≤ i ∧ i < 64 := by
  rw [List.mem_range'_1]
  exact Iff.rfl

/-- What the loop found is in range and passes the test. -/
theorem freeBlockScan_some {w : BitVec 64} {b : Nat} (h : freeBlockScan w = some b) :
    3 ≤ b ∧ b < 64 ∧ freeBitTest w b = true := by
  have hmem := mem_scan_range.mp (List.mem_of_find?_eq_some h)
  exact ⟨hmem.1, hmem.2, List.find?_some h⟩

/-- ... and nothing before it did. -/
theorem freeBlockScan_least {w : BitVec 64} {b i : Nat} (h : freeBlockScan w = some b)
    (hi : 3 ≤ i) (hib : i < b) : freeBitTest w i = false := by
  obtain ⟨-, as, bs, heq, hno⟩ := List.find?_eq_some_iff_append.mp h
  have hb : b < 64 := (freeBlockScan_some h).2.1
  have hinc : (List.range' 3 (maxObjects - 3)).Pairwise (· < ·) := List.pairwise_lt_range'
  have hmem : i ∈ as ++ b :: bs := heq ▸ mem_scan_range.mpr ⟨hi, by omega⟩
  rw [heq, List.pairwise_append, List.pairwise_cons] at hinc
  rcases List.mem_append.mp hmem with ha | ha
  · simpa using hno i ha
  · rcases List.mem_cons.mp ha with rfl | ha
    · omega
    · have := hinc.2.1.1 i ha
      omega

theorem freeBlockScan_none {w : BitVec 64} (h : freeBlockScan w = none) {i : Nat} (hi : 3 ≤ i)
    (hi' : i < 64) : freeBitTest w i = false := by
  simpa using List.find?_eq_none.mp h i (mem_scan_range.mpr ⟨hi, hi'⟩)

/-- As long as one of the bits 3 to 30 is set, the loop stops there and clears that bit alone. -/
theorem freeBlockScan_low {w : BitVec 64} {i : Nat} (hi : 3 ≤ i) (hi' : i ≤ 30)
    (hw : w.getLsbD i = true) :
    ∃ b, freeBlockScan w = some b ∧ 3 ≤ b ∧ b ≤ 30 ∧ w.getLsbD b = true := by
  rw [← freeBitTest_low hi'] at hw
  cases hs : freeBlockScan w with
  | none => rw [freeBlockScan_none hs hi (by omega)] at hw; cases hw
  | some b =>
    obtain ⟨h3, -, hb⟩ := freeBlockScan_some hs
    have hle : b ≤ i := by
      by_contra hlt
      rw [freeBlockScan_least hs hi (by omega)] at hw
      cases hw
    exact ⟨b, rfl, h3, by omega, by rwa [freeBitTest_low (by omega)] at hb⟩

theorem getLsbD_takeBlock_low (w : BitVec 64) {b j : Nat} (hb : b ≤ 30) (hj : j < 64) :
    (takeBlock w b).getLsbD j = (w.getLsbD j && !decide (j = b)) := by
  rw [getLsbD_takeBlock w b hj]
  congr 2
  exact decide_eq_decide.mpr (by omega)

/-! ## 3. The word as the code keeps it

`mkfs` sets the bits 31 to 63 together and the allocator clears them together, so in every
word the code ever sees they are equal.  On such words block `b` is governed by bit `b % 32`,
and the blocks that can be handed out are 3 to 34. -/

/-- The bits from 31 up are equal. -/
def HighTogether (w : BitVec 64) : Prop :=
  ∀ j, 31 ≤ j → j < 64 → w.getLsbD j = w.getLsbD 31

/-- Block `b` has not been handed out. -/
def Avail (w : BitVec 64) (b : Nat) : Prop := w.getLsbD (b % 32) = true

theorem HighTogether.test_iff {w : BitVec 64} (hw : HighTogether w) {i : Nat} :
    freeBitTest w i = true ↔ Avail w i := by
  rw [freeBitTest_iff, Avail]
  have hi : i % 32 < 32 := Nat.mod_lt _ (by omega)
  constructor
  · rintro ⟨j, hj, hwj, rfl | ⟨hm, h31⟩⟩
    · exact hwj
    · rw [h31, ← hw j (by omega) hj]; exact hwj
  · intro h
    exact ⟨i % 32, by omega, h, Or.inl rfl⟩

/-- **What is handed out**: a block from 3 to 34 that was available. -/
theorem HighTogether.scan_some {w : BitVec 64} (hw : HighTogether w) {b : Nat}
    (h : freeBlockScan w = some b) : 3 ≤ b ∧ b ≤ 34 ∧ Avail w b := by
  obtain ⟨h3, h64, ht⟩ := freeBlockScan_some h
  refine ⟨h3, ?_, hw.test_iff.mp ht⟩
  by_contra hgt
  -- a later block repeats the bit of one 32 places before it, which was passed over
  have hprev : freeBitTest w (b - 32) = true := by
    rw [hw.test_iff, Avail]
    rw [hw.test_iff, Avail] at ht
    rwa [show (b - 32) % 32 = b % 32 by omega]
  rw [freeBlockScan_least h (by omega) (by omega)] at hprev
  cases hprev

theorem HighTogether.scan_none {w : BitVec 64} (hw : HighTogether w)
    (h : freeBlockScan w = none) {b : Nat} (hb : 3 ≤ b) (hb' : b ≤ 34) : ¬ Avail w b := by
  rw [← hw.test_iff, freeBlockScan_none h hb (by omega)]
  exact Bool.false_ne_true

/-- Taking a block takes that block and no other of the blocks 3 to 34. -/
theorem avail_takeBlock {w : BitVec 64} {b c : Nat} (hb : 3 ≤ b) (hb' : b ≤ 34) (hc : 3 ≤ c)
    (hc' : c ≤ 34) : Avail (takeBlock w b) c ↔ Avail w c ∧ c ≠ b := by
  rw [Avail, getLsbD_takeBlock w b (by omega), Avail, Bool.and_eq_true, Bool.not_eq_true',
    decide_eq_false_iff_not]
  exact and_congr_right fun _ => by omega

/-- No block becomes available by taking one. -/
theorem Avail.of_takeBlock {free : BitVec 64} {b c : Nat} (h : Avail (takeBlock free b) c) :
    Avail free c := by
  rw [Avail, getLsbD_takeBlock _ _ (by omega), Bool.and_eq_true] at h
  exact h.1

theorem HighTogether.takeBlock {w : BitVec 64} (hw : HighTogether w) (b : Nat) :
    HighTogether (takeBlock w b) := by
  intro j hj hj'
  rw [getLsbD_takeBlock w b hj', getLsbD_takeBlock w b (by omega), hw j hj hj']
  congr 2
  exact decide_eq_decide.mpr (by omega)

end Simplefs
