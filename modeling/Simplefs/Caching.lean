/-
# The directory caches are right

A directory cache is built once, by the first listing, and from then on changed in step with
the directory's block.  In every state that a run reaches it says of the block exactly what a
fresh scan of the block would say.
-/
import Simplefs.Runs

namespace Simplefs

open Prog (LockState)

/-- The record that a front-to-back scan for a name stops at: the number of the first live one
that carries the name. -/
@[irreducible] def Device.scan (dev : Device) (b : Nat) (name : Name) : Option Nat :=
  (List.range recordsPerBlock).find? fun j =>
    (dev.record b j).inodeNo ≠ 0#64 ∧ (dev.record b j).filename = name.bytes

theorem Device.of_scan_some {dev : Device} {b j : Nat} {name : Name}
    (h : dev.scan b name = some j) : j < recordsPerBlock ∧
      (dev.record b j).inodeNo ≠ 0#64 ∧ (dev.record b j).filename = name.bytes := by
  unfold Device.scan at h
  exact ⟨List.mem_range.mp (List.mem_of_find?_eq_some h), by simpa using List.find?_some h⟩

theorem Device.of_scan_none {dev : Device} {b j : Nat} {name : Name}
    (h : dev.scan b name = none) (hj : j < recordsPerBlock) :
    ¬ ((dev.record b j).inodeNo ≠ 0#64 ∧ (dev.record b j).filename = name.bytes) := by
  unfold Device.scan at h
  simpa using List.find?_eq_none.mp h j (List.mem_range.mpr hj)

/-- **What a directory cache has to be**, for the block `b` of its directory. -/
structure DirCache.Mirrors (c : DirCache) (dev : Device) (b : Nat) : Prop where
  /-- Every record number is in exactly one entry of the two lists together, ... -/
  once : ∀ j, j < recordsPerBlock →
    ((c.used ++ c.free).filter fun e => e.entryNo = j).length = 1
  /-- ... and nothing else is. -/
  lt : ∀ e ∈ c.used ++ c.free, e.entryNo < recordsPerBlock
  /-- Entry `j` is in use if and only if record `j` is. -/
  used_iff : ∀ j, j < recordsPerBlock →
    ((∃ e ∈ c.used, e.entryNo = j) ↔ (dev.record b j).inodeNo ≠ 0#64)
  /-- A used entry has the record's name and number. -/
  same : ∀ e ∈ c.used, e.record.filename = (dev.record b e.entryNo).filename ∧
    e.record.inodeNo = (dev.record b e.entryNo).inodeNo
  increasing : Increasing c.used
  /-- A lookup finds what a scan of the block finds, and nothing if that finds nothing. -/
  get : ∀ name, usedCacheEntryGet c name = (dev.scan b name).map fun j => ⟨dev.record b j, j⟩

/-- **A cache that agrees with the block mirrors it.** -/
theorem DirCache.Agrees.mirrors {c : DirCache} {dev : Device} {b : Nat}
    (h : c.Agrees (dev.record b)) : c.Mirrors dev b where
  once j hj := by
    have hcount := h.entryNo_perm.count_eq j
    rw [List.count_eq_one_of_mem List.nodup_range (List.mem_range.mpr hj), List.count,
      List.countP_map, List.countP_eq_length_filter] at hcount
    rw [← hcount]
    refine congrArg List.length (List.filter_congr fun e _ => ?_)
    rw [Function.comp_apply, beq_eq_decide]
  lt e he := List.mem_range.mp (h.entryNo_perm.mem_iff.mp (List.mem_map_of_mem he))
  used_iff j hj := by
    constructor
    · rintro ⟨e, he, rfl⟩
      exact (h.used_entry he).2.1
    · intro hl
      refine ⟨⟨dev.record b j, j⟩, ?_, rfl⟩
      rw [h.used]
      exact mem_liveEntries.mpr ⟨hj, hl, rfl⟩
  same e he := by
    rw [(h.used_entry he).2.2]
    exact ⟨rfl, rfl⟩
  increasing := by
    rw [h.used]
    exact increasing_liveEntries _
  get name := by
    unfold Device.scan
    exact h.usedCacheEntryGet_eq name

/-- **Every cache mirrors its directory's block**, in every state that a run reaches. -/
theorem DefinedRun.cache_mirrors {size : Nat} {dev : Device} {lk : LockState Lock} {fs : Fs}
    (hmk : mkfs zeroMem size = (0, dev))
    (hrun : DefinedRun ⟨LockState.free, .offline dev⟩ ⟨lk, .mounted fs⟩)
    {d : Nat} {x : Dentry} {c : DirCache} (hx : fs.dentries d = some x) (hc : x.fsdata = some c) :
    c.Mirrors fs.dev x.inode.block := by
  have hi := (hrun.inv (sysInv_mkfs hmk)).mounted fs rfl
  exact (hi.cache d x c hx hc).2.mirrors

/-- The root of a fresh image, just listed. -/
theorem DefinedRun.cache_mirrors_listed :
    (dirCacheOf freshFs freshRoot).Mirrors listedFs.dev listedRoot.inode.block :=
  DefinedRun.cache_mirrors mkfs_fresh DefinedRun.listed listedFs_root.1 rfl

end Simplefs
