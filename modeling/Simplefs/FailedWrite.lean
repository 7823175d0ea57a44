/-
# Writes that fail

`simplefs_write` changes four things one after the other: the bytes of the block, `*ppos`, the
size in memory and the slot.  It can fail between any two of them, and no exit puts anything back:
the one for a fault in the user's buffer leaves the bytes that came through, the later ones also
leave the new `*ppos`, and the ones of `simplefs_inode_save` the new size.  What is said here is
when such a failure happens to have nothing to undo.
-/
import Simplefs.Confined

namespace Simplefs

open Prog (run LockState Ending)

/-! ## 1. What a failed write has to leave -/

/-- **Nothing that a write changes has changed**: the file's block, `*ppos`, the size in memory
and the inode store. -/
structure Undisturbed (fs fs' : Fs) (d : Nat) (x : Dentry) (ppos pos : Nat) : Prop where
  block : ∀ off, off < 4096 → fs'.dev.byte x.inode.block off = fs.dev.byte x.inode.block off
  offset : pos = ppos
  size : ∃ x', fs'.dentries d = some x' ∧ x'.inode.fileSize = x.inode.fileSize
  slots : ∀ i, i < slotsPerBlock → fs'.dev.slot i = fs.dev.slot i

/-- **The write returns, and if it returns an error it has changed nothing.** -/
def FailsClean (fs : Fs) (d : Nat) (x : Dentry) (ppos : Nat)
    (r : Ending Fs Lock Fault (Int × Nat)) : Prop :=
  ∃ ret pos fs', r = .returned (ret, pos) fs' ∧ (ret < 0 → Undisturbed fs fs' d x ppos pos)

/-- The block already holds the bytes that `copy_from_user` leaves in it. -/
def Fs.AlreadyHolds (fs : Fs) (x : Dentry) (ppos : Nat) (data : List UInt8) (copied : Nat) : Prop :=
  ∀ i, i < data.length → fs.dev.byte x.inode.block (ppos + i) = (copiedBytes data copied).getD i 0

/-- Some slot of the inode store has the file's number once the data is copied. -/
def Fs.StoreKnows (fs : Fs) (x : Dentry) (ppos : Nat) (data : List UInt8) (copied : Nat) : Prop :=
  ∃ i, i < slotsPerBlock ∧
    ((fs.copiedIn x ppos data copied).dev.slot i).inodeNo = x.inode.inodeNo

/-- The write stays inside its block, and it does not fail, or has nothing to undo where it does:
a copy that breaks off leaves the bytes that were there, and a later error finds an empty write,
whose `*ppos` is the size when that has been set. -/
def Fs.NothingToUndo (fs : Fs) (x : Dentry) (ppos : Nat) (data : List UInt8) (copied : Nat)
    (intr : Site → Bool) : Prop :=
  Fits ppos data ∧
    if copied < data.length then fs.AlreadyHolds x ppos data copied
    else if intr .write then data.length = 0
    else intr .save = false ∧ fs.StoreKnows x ppos data copied ∨
      (intr .save = true ∨ fs.past ≠ x.inode.inodeNo) ∧
        data.length = 0 ∧ x.inode.fileSize = BitVec.ofNat 64 ppos

section

variable {fs fs' : Fs} {d ppos : Nat} {x : Dentry} {data : List UInt8} {copied : Nat}
  {intr : Site → Bool} {lk : LockState Lock}

/-! ## 2. The two states it can stop in -/

/-- The bytes of the block where the data is copied to. -/
theorem byte_copiedIn_add {i : Nat} (hi : i < data.length) :
    (fs.copiedIn x ppos data copied).dev.byte x.inode.block (ppos + i) =
      (copiedBytes data copied).getD i 0 := by
  rw [← length_copiedBytes data copied] at hi
  have hdev : (fs.copiedIn x ppos data copied).dev =
      fs.dev.putData x.inode.block ppos (copiedBytes data copied) := rfl
  rw [hdev, Device.byte, Device.putData, ByteMem.store, ← Nat.add_assoc, ByteMem.patch_add _ _ hi]

/-- A copy of the bytes that are there changes nothing. -/
theorem Fs.AlreadyHolds.dev_copiedIn (h : fs.AlreadyHolds x ppos data copied) :
    (fs.copiedIn x ppos data copied).dev = fs.dev := by
  have hagree := Device.agreeOff_putData fs.dev x.inode.block ppos (copiedBytes data copied)
  rw [length_copiedBytes] at hagree
  refine funext fun a => ?_
  by_cases hin : 4096 * x.inode.block + ppos ≤ a ∧ a < 4096 * x.inode.block + ppos + data.length
  · obtain ⟨i, rfl⟩ := Nat.exists_eq_add_of_le hin.1
    have hi : i < data.length := by omega
    have hbyte : (fs.copiedIn x ppos data copied).dev.byte x.inode.block (ppos + i) =
        fs.dev.byte x.inode.block (ppos + i) := (byte_copiedIn_add hi).trans (h i hi).symm
    rwa [Device.byte, Device.byte, ← Nat.add_assoc] at hbyte
  · exact hagree a (by omega)

theorem undisturbed_of_dev_eq (hdev : fs'.dev = fs.dev)
    (hsize : ∃ x', fs'.dentries d = some x' ∧ x'.inode.fileSize = x.inode.fileSize) :
    Undisturbed fs fs' d x ppos ppos := by
  refine ⟨fun off _ => ?_, rfl, hsize, fun i _ => ?_⟩
  · rw [hdev]
  · rw [hdev]

/-- **After the copy**, with `*ppos` as it was. -/
theorem undisturbed_copiedIn_iff (hx : fs.dentries d = some x) (hfit : Fits ppos data) :
    Undisturbed fs (fs.copiedIn x ppos data copied) d x ppos ppos ↔
      fs.AlreadyHolds x ppos data copied := by
  constructor
  · intro h i hi
    have hlen : ppos + data.length ≤ 4096 := hfit.resolve_left (by omega)
    rw [← h.block (ppos + i) (by omega), byte_copiedIn_add hi]
  · intro h
    exact undisturbed_of_dev_eq h.dev_copiedIn ⟨x, hx, rfl⟩

/-- A write that has moved `*ppos` and is undisturbed was empty. -/
theorem Undisturbed.empty (h : Undisturbed fs fs' d x ppos (ppos + data.length)) :
    data.length = 0 := by
  have := h.offset
  omega

/-- **Once the size is set**, only an empty write at the end of the file has changed nothing. -/
theorem undisturbed_resized_iff :
    Undisturbed fs ((fs.copiedIn x ppos data copied).setDentry d (x.resized (ppos + data.length)))
        d x ppos (ppos + data.length) ↔
      data.length = 0 ∧ x.inode.fileSize = BitVec.ofNat 64 ppos := by
  have hx' : ((fs.copiedIn x ppos data copied).setDentry d
      (x.resized (ppos + data.length))).dentries d = some (x.resized (ppos + data.length)) := by
    rw [Fs.setDentry_dentries, if_pos rfl]
  constructor
  · intro h
    have h0 := h.empty
    obtain ⟨x', hx'', hsize⟩ := h.size
    cases hx'.symm.trans hx''
    rw [h0, Nat.add_zero] at hsize
    exact ⟨h0, hsize.symm⟩
  · rintro ⟨h0, hsize⟩
    rw [h0, Nat.add_zero] at hx' ⊢
    exact undisturbed_of_dev_eq (dev_copiedIn_nil h0) ⟨_, hx', hsize.symm⟩

/-! ## 3. Saving the size -/

/-- **What the end of a write comes to**, by what the store holds once the data is copied. -/
theorem saveInode_resized_cases (fs : Fs) (d : Nat) (x : Dentry) (ppos : Nat) (data : List UInt8)
    (copied : Nat) :
    let fs2 := (fs.copiedIn x ppos data copied).setDentry d (x.resized (ppos + data.length))
    fs.StoreKnows x ppos data copied ∧ (∃ fs3, saveInode d fs2 = .ok (true, fs3)) ∨
      ¬ fs.StoreKnows x ppos data copied ∧
        (fs.past = x.inode.inodeNo ∧ (∃ err, saveInode d fs2 = .error err) ∨
          fs.past ≠ x.inode.inodeNo ∧ saveInode d fs2 = .ok (false, fs2)) := by
  intro fs2
  have hx2 : fs2.dentries d = some (x.resized (ppos + data.length)) := by
    rw [Fs.setDentry_dentries, if_pos rfl]
  rcases firstSlot_or_absent fs2.dev.slot x.inode.inodeNo with ⟨i, hi⟩ | hno
  · have hi' : FirstSlot fs2.dev.slot (x.resized (ppos + data.length)).inode.inodeNo i := hi
    exact Or.inl ⟨⟨i, hi.lt, hi.hit⟩, _, saveInode_found hx2 hi'⟩
  · have hnot : ¬ fs.StoreKnows x ppos data copied := by
      rintro ⟨i, hi, hn⟩
      exact hno i hi hn
    have hsave := saveInode_absent hx2 hno
    refine Or.inr ⟨hnot, ?_⟩
    by_cases hp : fs.past = x.inode.inodeNo
    · exact Or.inl ⟨hp, _, hsave.trans (if_pos hp)⟩
    · exact Or.inr ⟨hp, hsave.trans (if_neg hp)⟩

/-! ## 4. When a failed write changes nothing -/

theorem failsClean_returned {ret : Int} {pos : Nat} :
    FailsClean fs d x ppos (.returned (ret, pos) fs') ↔
      (ret < 0 → Undisturbed fs fs' d x ppos pos) := by
  constructor
  · rintro ⟨_, _, _, hr, h⟩
    cases hr
    exact h
  · exact fun h => ⟨_, _, _, rfl, h⟩

theorem not_failsClean_faulted {err : Fault} : ¬ FailsClean fs d x ppos (.faulted err) := by
  rintro ⟨_, _, _, hr, -⟩
  cases hr

/-- **A write fails without a trace exactly when it has nothing to undo.** -/
theorem failsClean_iff (hx : fs.dentries d = some x) (hm : lk.held .inodesMgmt = false)
    (hs : lk.held .sb = false) :
    FailsClean fs d x ppos (run intr (simplefsWrite d ppos data copied) lk fs).1 ↔
      fs.NothingToUndo x ppos data copied intr := by
  rw [← bind_pure (simplefsWrite d ppos data copied), run_write _ hx hm hs, Fs.NothingToUndo]
  by_cases hfit : Fits ppos data
  swap
  · rw [if_neg hfit]
    exact iff_of_false not_failsClean_faulted fun h => hfit h.1
  rw [if_pos hfit, and_iff_right hfit]
  simp only [Prog.run_pure]
  by_cases hlt : copied < data.length
  · rw [if_pos hlt, if_pos hlt, failsClean_returned, imp_iff_right (by decide)]
    exact undisturbed_copiedIn_iff hx hfit
  rw [if_neg hlt, if_neg hlt]
  by_cases hw : intr .write = true
  · rw [if_pos hw, if_pos hw, failsClean_returned, imp_iff_right (by decide)]
    refine ⟨fun h => h.empty, fun h0 => ?_⟩
    rw [h0, Nat.add_zero]
    exact undisturbed_of_dev_eq (dev_copiedIn_nil h0) ⟨x, hx, rfl⟩
  rw [if_neg hw, if_neg hw]
  by_cases hv : intr .save = true
  · rw [if_pos hv, failsClean_returned, imp_iff_right (by decide), undisturbed_resized_iff]
    simp [hv]
  rw [if_neg hv]
  rcases saveInode_resized_cases fs d x ppos data copied with
    ⟨hk, fs3, hsave⟩ | ⟨hk, ⟨hp, err, hsave⟩ | ⟨hp, hsave⟩⟩
  · -- found: the write succeeds
    rw [hsave]
    simp only [if_true]
    refine iff_of_true (failsClean_returned.mpr fun hneg => ?_) (Or.inl ⟨by simpa using hv, hk⟩)
    omega
  · -- past the store
    rw [hsave]
    exact iff_of_false not_failsClean_faulted (by simp [hk, hv, hp])
  · -- not found
    rw [hsave]
    simp only [Bool.false_eq_true, if_false]
    rw [failsClean_returned, imp_iff_right (by decide), undisturbed_resized_iff]
    simp [hk, hp]

end

/-- The newline at the end of the welcome file and an `H` over its NUL, of which only the newline
can be read: what the failed copy leaves is there already. -/
theorem failsClean_iff_newline : FailsClean foundFs 1 welcomeDentry 39
    (run quiet (simplefsWrite 1 39 [10, 72] 1) LockState.free foundFs).1 := by
  refine (failsClean_iff foundFs_welcome rfl rfl).mpr ⟨by decide, ?_⟩
  rw [if_pos (by decide)]
  have hend : welcomefileBody.getD 39 0 = 10 ∧ welcomefileBody.getD 40 0 = 0 := by
    decide +kernel
  have hblock : welcomeDentry.inode.block = 3 := by decide +kernel
  have h0 : foundFs.dev.byte 3 39 = 10 := (freshDevice.byte_three (by decide)).trans hend.1
  have h1 : foundFs.dev.byte 3 40 = 0 := (freshDevice.byte_three (by decide)).trans hend.2
  intro i hi
  rw [hblock]
  have hi' : i < 2 := hi
  obtain rfl | rfl : i = 0 ∨ i = 1 := by omega
  · exact h0
  · exact h1
/-- **One byte, written to the welcome file while a signal arrives**: the call returns `-EINTR`
with the byte in the block and `*ppos` behind it. -/
theorem write_interrupted_not_clean : ¬ FailsClean foundFs 1 welcomeDentry 0
    (run (fun site => site = .write) (simplefsWrite 1 0 [72] 1) LockState.free foundFs).1 := by
  rw [← bind_pure (simplefsWrite 1 0 [72] 1), run_write _ foundFs_welcome rfl rfl,
    if_pos (by decide)]
  simp only [Prog.run_pure]
  rw [if_neg (by decide), if_pos (by decide), failsClean_returned]
  intro h
  exact absurd (h (by decide)).empty (by decide)

end Simplefs
