/-
# The effect of an unlink

`simplefs_unlink` drops what `simplefs_inode_save` returns and calls `simplefs_inode_del`, which
returns nothing, and then returns 0 whatever happened.  So it does all of its work exactly when
none of the three acquisitions that stand between it and its inode store is interrupted.
-/
import Simplefs.Runs

namespace Simplefs

open Prog (run LockState Ending)

/-! ## 1. What a successful unlink has to do -/

/-- **The whole effect**: of unlinking a file with dentry `y`, whose record in the directory of
dentry `x` is that of `entry`. -/
structure Unlinked (fs fs' : Fs) (y x : Dentry) (entry : CacheEntry) : Prop where
  record : fs'.dev.record x.inode.block entry.entryNo = DirRecord.zero
  /-- The entry is on the free list. -/
  cache : ∃ x' c', fs'.dentries y.parent = some x' ∧ x'.fsdata = some c' ∧ entry ∈ c'.free
  /-- The directory has one child less, in memory and in its slot. -/
  count : ∃ x', fs'.dentries y.parent = some x' ∧
    x'.inode.dirChildrenCount = x.inode.dirChildrenCount - 1
  saved : (fs'.dev.slot x.slot).dirChildrenCount = (fs.dev.slot x.slot).dirChildrenCount - 1
  slot : fs'.dev.slot y.slot = SfsInode.zero
  imap : fs'.imap.getLsbD y.inode.inodeNo.toNat = false
  inodesCount : fs'.dev.inodesCount = fs.dev.inodesCount - 1

/-- Nothing changed. -/
def Untouched (fs fs' : Fs) : Prop :=
  fs'.dev = fs.dev ∧ fs'.imap = fs.imap ∧ fs'.dentries = fs.dentries

/-- **An unlink that returns 0 has its whole effect, and one that returns an error has none.** -/
def UnlinkSound (fs : Fs) (y x : Dentry) (c : DirCache) (r : Ending Fs Lock Fault Int) : Prop :=
  ∃ ret fs', r = .returned ret fs' ∧
    (ret = 0 → ∀ entry, usedCacheEntryGet c y.name = some entry → Unlinked fs fs' y x entry) ∧
    (ret ≠ 0 → Untouched fs fs')

/-! ## 2. What it does -/

/-- The state after the record of `entry` is gone and the parent's inode saved, or not. -/
def Fs.unlinkedRecord (fs : Fs) (p : Nat) (x : Dentry) (c : DirCache) (entry : CacheEntry)
    (saved : Bool) : Fs :=
  let u := fs.unrecorded p x c entry
  if saved then { u with dev := u.dev.setSlot x.slot (x.without c entry).inode } else u

/-- The state after the inode of slot `i` is deleted. -/
def Fs.deleted (fs : Fs) (i : Nat) : Fs :=
  { fs with dev := fs.dev.delAt i, imap := clearBit fs.imap (i + 1) }

/-- The state after `vfs_unlink`: the unlink and `d_delete`. -/
def Fs.unlinked (fs : Fs) (e : Nat) (y x : Dentry) (c : DirCache) (entry : CacheEntry) : Fs :=
  ((fs.unlinkedRecord y.parent x c entry true).deleted y.slot).setDentry e
    { y with linked := false }

section Consistent

variable {fs : Fs} {e : Nat} {y x : Dentry} {c : DirCache} {entry : CacheEntry}

/-- What a consistent state says about a file that may be unlinked. -/
structure Fs.Unlinkable (fs : Fs) (e : Nat) (y x : Dentry) (c : DirCache) : Prop where
  cur : fs.Current Shadow.none e y
  dir : fs.DirAt y.parent x
  fsdata : x.fsdata = some c
  ne : e ≠ 0
  file : isDir y.inode.mode = false

theorem FsInv.unlinkable (hi : FsInv fs Shadow.none) (ha : (Op.unlink e).Allowed fs)
    (hy : fs.dentries e = some y) (hx : fs.dentries y.parent = some x)
    (hc : x.fsdata = some c) : fs.Unlinkable e y x c := by
  obtain ⟨he, y', hy', hl, hreg⟩ := ha
  cases hy.symm.trans hy'
  exact ⟨⟨hy, hl, id⟩, (hi.cache _ x c hx hc).1, hc, he, not_isDir_of_isReg hreg⟩

namespace Fs.Unlinkable

/-- A file is in another slot than its directory. -/
theorem slot_ne (hu : fs.Unlinkable e y x c) (hi : FsInv fs Shadow.none) : y.slot ≠ x.slot := by
  intro heq
  have hep := hi.inj _ _ _ _ hu.cur (hi.current_of_dirAt hu.dir) heq
  have hyx : y = x := Option.some.inj (hu.cur.1.symm.trans (hep ▸ hu.dir.1))
  have hd := hu.dir.2.2
  rw [← hyx, hu.file] at hd
  cases hd

theorem hasEntryOf (hu : fs.Unlinkable e y x c) (hi : FsInv fs Shadow.none)
    (hget : usedCacheEntryGet c y.name = some entry) : fs.HasEntryOf e y x c entry := by
  obtain ⟨entry', hget', -, h15, -⟩ := hi.used_entry hu.cur hu.ne hu.dir hu.fsdata
  cases hget.symm.trans hget'
  exact ⟨hu.cur.1, hu.dir.1, hu.fsdata, hget, h15⟩

/-- With the record gone, the parent's inode is still found. -/
theorem saveInode (hu : fs.Unlinkable e y x c) (hi : FsInv fs Shadow.none)
    (hget : usedCacheEntryGet c y.name = some entry) :
    saveInode y.parent (fs.unrecorded y.parent x c entry) =
      .ok (true, fs.unlinkedRecord y.parent x c entry true) := by
  have horphan : ∀ n, n = y.slot ↔ n = y.slot ∨ Shadow.none.orphan n :=
    fun n => (or_iff_left id).symm
  have hdirty : ∀ d, Shadow.none.dirty d → y.parent = d := fun d hd => hd.elim
  have hgoing : ∀ d, d = e ↔ d = e ∨ Shadow.none.going d := fun d => (or_iff_left id).symm
  obtain ⟨j, dev', x', -, hrun, hp, hn, hl, hs, -, -, -, hinv⟩ :=
    hi.removeRecord hu.cur hu.ne hu.file hu.dir hu.fsdata horphan rfl hdirty hgoing
  rw [removeRecord_eq (hu.hasEntryOf hi hget)] at hrun
  have hst := (Prod.ext_iff.mp (Except.ok.inj hrun)).2
  simp only at hst
  rw [← hst] at hinv
  have hpar : (fs.unrecorded y.parent x c entry).dentries y.parent =
      some (x.without c entry) := by
    rw [Fs.unrecorded, Fs.setDentry_dentries, if_pos rfl]
  have hne : y.parent ≠ e := by
    intro hpe
    have := hu.slot_ne hi
    exact this (by rw [Option.some.inj (hu.cur.1.symm.trans (hpe ▸ hu.dir.1))])
  exact hinv.saveInode_eq ⟨hpar, hu.dir.2.1, hne⟩

/-- **The run of an unlink in a consistent state.** -/
theorem run (hu : fs.Unlinkable e y x c) (hi : FsInv fs Shadow.none)
    (hget : usedCacheEntryGet c y.name = some entry)
    {intr : Site → Bool} {lk : LockState Lock} (hm : lk.held .inodesMgmt = false)
    (hs : lk.held .sb = false) {α : Type} (k : Int → Code α) :
    Prog.run intr (simplefsUnlink e >>= k) lk fs =
      if intr .delMgmt then
        Prog.run intr (k 0) lk (fs.unlinkedRecord y.parent x c entry (!intr .save))
      else if intr .delSb then
        Prog.run intr (k 0) (lk.take .inodesMgmt)
          (fs.unlinkedRecord y.parent x c entry (!intr .save))
      else
        Prog.run intr (k 0) lk
          ((fs.unlinkedRecord y.parent x c entry (!intr .save)).deleted y.slot) := by
  obtain ⟨hyl, -, -⟩ := hi.live e y hu.cur
  have hdel : ∀ fs2 : Fs, delInode y.inode.inodeNo fs2 = .ok ((), fs2.deleted y.slot) := by
    intro fs2
    rw [hi.inodeNo_eq hu.cur, delInode_eq (hi.store.slots _ hyl).2]
    rfl
  rw [run_unlink _ hs, removeRecord_eq (hu.hasEntryOf hi hget)]
  cases h1 : intr .save with
  | true =>
    simp only [if_true, run_inodeDel _ _ hm hs, hdel]
    rfl
  | false =>
    simp only [Bool.false_eq_true, if_false, hu.saveInode hi hget, run_inodeDel _ _ hm hs, hdel]
    rfl

/-- **`vfs_unlink`, uninterrupted.** -/
theorem run_vfsUnlink (hu : fs.Unlinkable e y x c) (hi : FsInv fs Shadow.none)
    (hget : usedCacheEntryGet c y.name = some entry) :
    Prog.run quiet (vfsUnlink e) LockState.free fs =
      (.returned () (fs.unlinked e y x c entry), LockState.free) := by
  have hne : e ≠ y.parent := by
    intro he
    exact hu.slot_ne hi (by rw [Option.some.inj (hu.cur.1.symm.trans (he ▸ hu.dir.1))])
  have hy : ((fs.unlinkedRecord y.parent x c entry true).deleted y.slot).dentries e = some y :=
    (Fs.setDentry_dentries _ _ _ _).trans ((if_neg hne).trans hu.cur.1)
  rw [vfsUnlink, hu.run hi hget rfl rfl]
  simp only [quiet, Bool.false_eq_true, if_false, if_true, Bool.not_false, Prog.run_step, dDelete,
    Fs.dentry_of_eq hy, bind, Except.bind, pure, Except.pure]
  rfl

/-! ### The state afterwards -/

theorem two_le_block (hu : fs.Unlinkable e y x c) (hi : FsInv fs Shadow.none) :
    2 ≤ x.inode.block := by
  obtain ⟨hd, hb⟩ := hi.dir hu.dir
  exact hb ▸ (hi.store.block _ hd.1).1

theorem lt_slots (hu : fs.Unlinkable e y x c) (hi : FsInv fs Shadow.none) :
    x.slot < 128 ∧ y.slot < 128 :=
  ⟨(hi.dir hu.dir).1.1.lt, (hi.live e y hu.cur).1.lt⟩

/-- The slots once the record is gone. -/
theorem slot_unlinkedRecord (hu : fs.Unlinkable e y x c) (hi : FsInv fs Shadow.none)
    (h15 : entry.entryNo < 15) (saved : Bool) {k : Nat} (hk : k < 128) :
    (fs.unlinkedRecord y.parent x c entry saved).dev.slot k =
      if saved = true ∧ k = x.slot then (x.without c entry).inode else fs.dev.slot k := by
  have hb := hu.two_le_block hi
  have hclear : (fs.unrecorded y.parent x c entry).dev.slot k = fs.dev.slot k :=
    Device.slot_congr (Device.agreeOff_clearRecord fs.dev x.inode.block entry.entryNo) (by omega)
  cases saved with
  | false => rw [if_neg (by simp)]; exact hclear
  | true =>
    simp only [Fs.unlinkedRecord, if_true, Device.slot_setSlot, hclear, true_and]

/-- ... and once the inode is deleted. -/
theorem slot_unlinked (hu : fs.Unlinkable e y x c) (hi : FsInv fs Shadow.none)
    (h15 : entry.entryNo < 15) {k : Nat} (hk : k < 128) :
    (fs.unlinked e y x c entry).dev.slot k = if k = y.slot then SfsInode.zero
      else if k = x.slot then (x.without c entry).inode else fs.dev.slot k := by
  change ((fs.unlinkedRecord y.parent x c entry true).dev.delAt y.slot).slot k = _
  rw [Device.slot_delAt, hu.slot_unlinkedRecord hi h15 true hk]
  simp only [true_and]

/-- The parent's dentry. -/
theorem dentries_unlinkedRecord (saved : Bool) :
    (fs.unlinkedRecord y.parent x c entry saved).dentries y.parent =
      some (x.without c entry) := by
  have h : (fs.unrecorded y.parent x c entry).dentries y.parent = some (x.without c entry) := by
    rw [Fs.unrecorded, Fs.setDentry_dentries, if_pos rfl]
  cases saved <;> exact h

/-- The record itself, and the counts. -/
theorem record_unlinkedRecord (hu : fs.Unlinkable e y x c) (hi : FsInv fs Shadow.none)
    (h15 : entry.entryNo < 15) (saved : Bool) :
    (fs.unlinkedRecord y.parent x c entry saved).dev.record x.inode.block entry.entryNo =
      DirRecord.zero := by
  have hclear : (fs.unrecorded y.parent x c entry).dev.record x.inode.block entry.entryNo =
      DirRecord.zero := by
    change (fs.dev.clearRecord x.inode.block entry.entryNo).record _ _ = _
    rw [Device.record_clearRecord _ h15 h15, if_pos ⟨rfl, rfl⟩]
  cases saved with
  | false => exact hclear
  | true =>
    simp only [Fs.unlinkedRecord, if_true]
    rw [Device.record_setSlot _ _ _ (hu.lt_slots hi).1 (hu.two_le_block hi), hclear]

theorem counts_unlinkedRecord (hu : fs.Unlinkable e y x c) (hi : FsInv fs Shadow.none)
    (h15 : entry.entryNo < 15) (saved : Bool) :
    (fs.unlinkedRecord y.parent x c entry saved).dev.inodesCount = fs.dev.inodesCount ∧
      (fs.unlinkedRecord y.parent x c entry saved).dev.freeBlocks = fs.dev.freeBlocks := by
  have hb := hu.two_le_block hi
  have hagree := Device.agreeOff_clearRecord fs.dev x.inode.block entry.entryNo
  have hn : (fs.unrecorded y.parent x c entry).dev.inodesCount = fs.dev.inodesCount :=
    Device.inodesCount_congr hagree (by omega)
  have hf : (fs.unrecorded y.parent x c entry).dev.freeBlocks = fs.dev.freeBlocks :=
    Device.freeBlocks_congr hagree (by omega)
  cases saved with
  | false => exact ⟨hn, hf⟩
  | true =>
    simp only [Fs.unlinkedRecord, if_true, Device.inodesCount_setSlot, Device.freeBlocks_setSlot]
    exact ⟨hn, hf⟩

/-! ### Uninterrupted, and interrupted -/

/-- Uninterrupted, it has the whole effect. -/
theorem unlinked (hu : fs.Unlinkable e y x c) (hi : FsInv fs Shadow.none)
    (hget : usedCacheEntryGet c y.name = some entry) :
    Unlinked fs ((fs.unlinkedRecord y.parent x c entry true).deleted y.slot) y x entry := by
  obtain ⟨hx128, hy128⟩ := hu.lt_slots hi
  have h15 := (hu.hasEntryOf hi hget).2.2.2.2
  have hne := hu.slot_ne hi
  refine ⟨?_, ⟨_, _, dentries_unlinkedRecord true, rfl, List.mem_cons_self⟩,
    ⟨_, dentries_unlinkedRecord true, rfl⟩, ?_, ?_, ?_, ?_⟩
  · rw [Fs.deleted, Device.record_delAt _ _ hy128 (hu.two_le_block hi)]
    exact hu.record_unlinkedRecord hi h15 true
  · rw [Fs.deleted, Device.slot_delAt, if_neg (Ne.symm hne),
      hu.slot_unlinkedRecord hi h15 true hx128, if_pos ⟨rfl, rfl⟩,
      hi.clean _ x (hi.current_of_dirAt hu.dir) id]
    rfl
  · rw [Fs.deleted, Device.slot_delAt, if_pos rfl]
  · rw [hi.inodeNo_eq hu.cur, toNat_inoOf hy128, Fs.deleted,
      getLsbD_clearBit _ _ (by have := (hi.store.slots _ (hi.live e y hu.cur).1).2; omega)]
    simp
  · rw [Fs.deleted, Device.inodesCount_delAt, (hu.counts_unlinkedRecord hi h15 true).1]

/-- When the parent is not saved, its slot keeps the old count. -/
theorem not_unlinked_of_not_saved {fs' : Fs}
    (hslot : fs'.dev.slot x.slot = fs.dev.slot x.slot) : ¬ Unlinked fs fs' y x entry := by
  intro h
  have := h.saved
  rw [hslot] at this
  bv_omega

/-- When the inode is not deleted, its slot is not empty. -/
theorem not_unlinked_of_not_deleted (hu : fs.Unlinkable e y x c) (hi : FsInv fs Shadow.none)
    {fs' : Fs} (hslot : fs'.dev.slot y.slot = fs.dev.slot y.slot) :
    ¬ Unlinked fs fs' y x entry := by
  intro h
  have hzero := h.slot
  rw [hslot] at hzero
  refine (hi.live e y hu.cur).1.2 ?_
  rw [hzero]
  rfl

/-- **Interrupted, it returns 0 all the same.** -/
theorem not_sound (hu : fs.Unlinkable e y x c) (hi : FsInv fs Shadow.none)
    {intr : Site → Bool} {lk : LockState Lock} (hm : lk.held .inodesMgmt = false)
    (hs : lk.held .sb = false)
    (hintr : intr .save = true ∨ intr .delMgmt = true ∨ intr .delSb = true) :
    ¬ UnlinkSound fs y x c (Prog.run intr (simplefsUnlink e) lk fs).1 := by
  obtain ⟨entry, hget, -, h15, -⟩ := hi.used_entry hu.cur hu.ne hu.dir hu.fsdata
  obtain ⟨hx128, hy128⟩ := hu.lt_slots hi
  have hne := hu.slot_ne hi
  -- the file's slot, if the inode is not deleted
  have hfile : ∀ b, (fs.unlinkedRecord y.parent x c entry b).dev.slot y.slot =
      fs.dev.slot y.slot := fun b => by
    rw [hu.slot_unlinkedRecord hi h15 b hy128, if_neg fun h => hne h.2]
  rw [← bind_pure (simplefsUnlink e), hu.run hi hget hm hs]
  rintro ⟨ret, fs', hr, hwhole, -⟩
  cases h1 : intr .delMgmt with
  | true =>
    rw [h1, if_pos rfl] at hr
    cases hr
    exact hu.not_unlinked_of_not_deleted hi (hfile _) (hwhole rfl entry hget)
  | false =>
    cases h2 : intr .delSb with
    | true =>
      rw [h1, h2, if_neg Bool.false_ne_true, if_pos rfl] at hr
      cases hr
      exact hu.not_unlinked_of_not_deleted hi (hfile _) (hwhole rfl entry hget)
    | false =>
      have h3 : intr .save = true := by simpa [h1, h2] using hintr
      rw [h1, h2, h3, if_neg Bool.false_ne_true, if_neg Bool.false_ne_true] at hr
      cases hr
      refine not_unlinked_of_not_saved ?_ (hwhole rfl entry hget)
      rw [Fs.deleted, Device.slot_delAt, if_neg (Ne.symm hne),
        hu.slot_unlinkedRecord hi h15 _ hx128]
      exact if_neg (by simp)

theorem sound (hu : fs.Unlinkable e y x c) (hi : FsInv fs Shadow.none)
    {intr : Site → Bool} {lk : LockState Lock} (hm : lk.held .inodesMgmt = false)
    (hs : lk.held .sb = false) (h1 : intr .save = false) (h2 : intr .delMgmt = false)
    (h3 : intr .delSb = false) :
    UnlinkSound fs y x c (Prog.run intr (simplefsUnlink e) lk fs).1 := by
  obtain ⟨entry, hget, -⟩ := hi.used_entry hu.cur hu.ne hu.dir hu.fsdata
  rw [← bind_pure (simplefsUnlink e), hu.run hi hget hm hs, h1, h2, h3]
  refine ⟨0, _, rfl, fun _ entry' hget' => ?_, fun h => absurd rfl h⟩
  cases hget.symm.trans hget'
  exact hu.unlinked hi hget

end Fs.Unlinkable

/-- What an unlink in a case the source handles ends in, when it is not interrupted. -/
theorem FsInv.unlinked_of_run {fs' : Fs} {lk : LockState Lock} (hi : FsInv fs Shadow.none)
    (ha : (Op.unlink e).Allowed fs) (hdef : (Op.unlink e).Defined fs)
    (hrun : Prog.run quiet (Op.unlink e).code LockState.free fs = (.returned () fs', lk)) :
    ∃ y x c entry, fs.Unlinkable e y x c ∧ usedCacheEntryGet c y.name = some entry ∧
      entry.entryNo < 15 ∧ fs' = fs.unlinked e y x c entry := by
  obtain ⟨he, y, hy, hrest⟩ := ha
  obtain ⟨x, c, hx, hc⟩ := hdef y hy
  have hu := hi.unlinkable ⟨he, y, hy, hrest⟩ hy hx hc
  obtain ⟨entry, hget, -, h15, -⟩ := hi.used_entry hu.cur hu.ne hu.dir hu.fsdata
  have hend : Prog.run quiet (Op.unlink e).code LockState.free fs = _ := hu.run_vfsUnlink hi hget
  rw [hend] at hrun
  cases hrun
  exact ⟨y, x, c, entry, hu, hget, h15, rfl⟩

/-! ## 3. When it is sound -/

/-- **An unlink is sound exactly when no acquisition between it and its inode store is
interrupted.** -/
theorem unlinkSound_iff {lk : LockState Lock} (hi : FsInv fs Shadow.none)
    (ha : (Op.unlink e).Allowed fs) (hy : fs.dentries e = some y)
    (hx : fs.dentries y.parent = some x) (hc : x.fsdata = some c)
    (hm : lk.held .inodesMgmt = false) (hs : lk.held .sb = false) (intr : Site → Bool) :
    UnlinkSound fs y x c (run intr (simplefsUnlink e) lk fs).1 ↔
      intr .save = false ∧ intr .delMgmt = false ∧ intr .delSb = false := by
  have hu := hi.unlinkable ha hy hx hc
  constructor
  · intro h
    by_contra hno
    refine hu.not_sound hi hm hs ?_ h
    cases h1 : intr .save <;> cases h2 : intr .delMgmt <;> cases h3 : intr .delSb <;> simp_all
  · rintro ⟨h1, h2, h3⟩
    exact hu.sound hi hm hs h1 h2 h3

end Consistent

/-- The welcome file of a fresh image, unlinked without an interruption. -/
theorem unlinkSound_iff_welcome : UnlinkSound foundFs welcomeDentry listedRoot
    (dirCacheOf freshFs freshRoot) (run quiet (simplefsUnlink 1) LockState.free foundFs).1 :=
  (unlinkSound_iff foundFs_inv foundFs_unlink foundFs_welcome foundFs_root.1 rfl rfl rfl quiet).mpr
    ⟨rfl, rfl, rfl⟩

/-- **The welcome file, unlinked while a signal interrupts `simplefs_inode_save`.** -/
theorem unlink_interrupted_not_sound : ¬ UnlinkSound foundFs welcomeDentry listedRoot
    (dirCacheOf freshFs freshRoot)
    (run (fun site => site = .save) (simplefsUnlink 1) LockState.free foundFs).1 :=
  (foundFs_inv.unlinkable foundFs_unlink foundFs_welcome foundFs_root.1 rfl).not_sound foundFs_inv
    rfl rfl (Or.inl (by decide))

end Simplefs
