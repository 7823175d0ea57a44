/-
# Writes inside the block

The README promises `ENOSPC` for a file that outgrows its one block, and nothing checks for it: a
write copies to wherever `*ppos` points.  It stays inside the block exactly when it ends there,
and as long as every write does, every size is that of a block at most and no read copies past
one.
-/
import Simplefs.Bounds

namespace Simplefs

open Prog (run LockState Ending)

/-! ## 1. What a state and a write have to satisfy -/

section

variable {fs : Fs} {d ppos : Nat} {x : Dentry} {data : List UInt8} {copied : Nat}
  {intr : Site → Bool} {lk : LockState Lock}

/-- A bounded file is read inside its block. -/
theorem Fs.Bounded.readFile_ok (h : fs.Bounded) (hx : fs.dentries d = some x)
    (hreg : isReg x.inode.mode = true) (ppos len : Nat) (userOk : Bool) :
    ∃ r, readFile d ppos len userOk fs = .ok r := by
  have hsize := (h.dentry d x hx).size hreg
  have hn : ¬ 4096 < min x.inode.fileSize.toNat len := by omega
  simp only [readFile, Fs.dentry_of_eq hx, bind, Except.bind, pure, Except.pure, if_neg hn]
  split
  · exact ⟨_, rfl⟩
  · split <;> exact ⟨_, rfl⟩

/-- An empty copy changes nothing. -/
theorem dev_copiedIn_nil (h0 : data.length = 0) :
    (fs.copiedIn x ppos data copied).dev = fs.dev := by
  have hagree := Device.agreeOff_putData fs.dev x.inode.block ppos (copiedBytes data copied)
  rw [length_copiedBytes, h0] at hagree
  exact funext fun a => hagree a (by omega)

end

/-! ## 4. Runs -/

theorem sysBounded_mkfs {size : Nat} {dev : Device} (h : mkfs zeroMem size = (0, dev)) :
    Sys.Bounded ⟨LockState.free, .offline dev⟩ := by
  rw [mkfs_ok h]
  exact freshDevice.bounded

end Simplefs
