/-
# The operations, outlined

Each operation of `simple.c` that works in a directory is checked piece by piece against the
discipline of `Sections.lean`: the helpers first, followed by whatever comes after them, then
the operations.  What follows from the outlines is at the end: the invariant holds at every
point of every schedule, and an operation run alone takes one state between operations to the
next.
-/
import Simplefs.Sections

namespace Simplefs

open Prog (Outline run LockState Config Admit Reach update_release)

variable {T : Type} [DecidableEq T] {t : T} {h : Lock → Bool} {α : Type}

/-! ## 1. Helpers -/

theorem discard_eq (p : Code α) : discard p = p >>= fun _ => pure () := rfl

/-- The locks held inside the first of two nested sections. -/
theorem update_mgmt_sb (hs : h .sb = false) : Function.update h .inodesMgmt true .sb = false := by
  rw [Function.update_of_ne (by decide), hs]

/-- The end of an operation with nothing under way. -/
theorem outline_end {a : α} {g : Phase} (hh : ∀ l, h l = false) (hp : g.pend = none)
    (ho : g.orphan = none) (hd : g.dirty = none) (hg : g.going = none) :
    Outline (discipline T) t (pure a : Code α) h g := by
  refine Outline.pure hh ?_
  rintro fs G hi rfl
  exact Inv.finish hi hp ho hd hg

theorem outline_getObjectsCount {k : Except Int (BitVec 64) → Code α} {g : Phase}
    (hl : h .inodesMgmt = false) (hg : g.pick = none)
    (hk : ∀ count, Outline (discipline T) t (k (.ok count)) h g) :
    Outline (discipline T) t (simplefsSbGetObjectsCount >>= k) h g := by
  unfold simplefsSbGetObjectsCount
  rw [bind_assoc]
  refine Outline.lock hl ?_
  simp only [Bool.false_eq_true, if_false, bind_assoc, pure_bind]
  refine Outline.read (fun l hr => absurd hr (not_relies hg l)) fun count => ?_
  refine Outline.unlock (Function.update_self ..) (not_relies hg _) ?_
  rw [update_release hl]
  exact hk count

theorem outline_getAFreeblock {k : Except Int Nat → Code α} {d i : Nat} {name : Name}
    (hc : h .childrenUpdate = true) (hl : h .sb = false)
    (hnone : Outline (discipline T) t (k (.error (-ENOSPC))) h (.busy d))
    (hsome : ∀ b, b < 64 → Outline (discipline T) t (k (.ok b)) h (.alloc d name i b)) :
    Outline (discipline T) t (simplefsSbGetAFreeblock >>= k) h (.chosen d name i) := by
  unfold simplefsSbGetAFreeblock
  rw [bind_assoc]
  refine Outline.lock hl ?_
  simp only [Bool.false_eq_true, if_false, bind_assoc]
  have hc' : Function.update h .sb true .childrenUpdate = true := by
    rw [Function.update_of_ne (by decide), hc]
  refine Outline.stepObs (sect_takeFreeBlock hc') ?_
  rintro r g' (⟨rfl, rfl⟩ | ⟨b, rfl, hb, rfl⟩)
  · simp only [bind_assoc, pure_bind]
    refine Outline.unlock (Function.update_self ..) (not_relies rfl _) ?_
    rw [update_release hl]
    exact hnone
  · simp only [bind_assoc, pure_bind]
    refine Outline.unlock (Function.update_self ..) (fun hr => by cases hr.1) ?_
    rw [update_release hl]
    exact hsome b hb

/-- A piece of code under the two locks of `simplefs_inode_add` and `simplefs_inode_del`. -/
theorem outline_nested {k : Unit → Code α} {site site' : Site} {f : Fs → Except Fault (Unit × Fs)}
    {obs : Unit → Progress → Progress} {g g' : Phase} (hl : h .inodesMgmt = false)
    (hl' : h .sb = false) (hg' : g'.pick = none)
    (hs : ∀ h, Prog.Sect (discipline T) t f obs h g fun _ u => u = g')
    (hk : Outline (discipline T) t (k ()) h g') :
    Outline (discipline T) t ((do
      if ← Prog.lock site .inodesMgmt then
        return
      if ← Prog.lock site' .sb then
        return
      Prog.stepObs f obs
      Prog.unlock .sb
      Prog.unlock .inodesMgmt : Code Unit) >>= k) h g := by
  have hsb : Function.update h .inodesMgmt true .sb = false := by
    rw [Function.update_of_ne (by decide), hl']
  rw [bind_assoc]
  refine Outline.lock hl ?_
  simp only [Bool.false_eq_true, if_false, bind_assoc]
  refine Outline.lock hsb ?_
  simp only [Bool.false_eq_true, if_false, bind_assoc]
  refine Outline.stepObs (hs _) ?_
  rintro _ u rfl
  refine Outline.unlock (Function.update_self ..) (not_relies hg' _) ?_
  rw [update_release hsb]
  refine Outline.unlock (Function.update_self ..) (not_relies hg' _) ?_
  rw [update_release hl]
  exact hk

theorem outline_inodeAdd {k : Unit → Code α} {d i b : Nat} {name : Name} {v : SfsInode}
    (hl : h .inodesMgmt = false) (hl' : h .sb = false) (hno : v.inodeNo = inoOf i)
    (hb : v.block = b) (hm : isDir v.mode = true ∨ isReg v.mode = true)
    (hk : Outline (discipline T) t (k ()) h (.added d name i v)) :
    Outline (discipline T) t (simplefsInodeAdd v >>= k) h (.alloc d name i b) :=
  outline_nested hl hl' rfl (fun _ => sect_addInode hno hb hm) hk

/-- `simplefs_inode_save` of the directory, which the search finds. -/
theorem outline_inodeSave {k : Int → Code α} {d : Nat} {g g' : Phase} (hl : h .sb = false)
    (hg' : g'.pick = none)
    (hs : ∀ h, Prog.Sect (discipline T) t (saveInode d) (fun _ w => w) h g
      fun r u => r = true ∧ u = g')
    (hk : Outline (discipline T) t (k 0) h g') :
    Outline (discipline T) t (simplefsInodeSave d >>= k) h g := by
  unfold simplefsInodeSave
  rw [bind_assoc]
  refine Outline.lock hl ?_
  simp only [Bool.false_eq_true, if_false, bind_assoc]
  refine Outline.step (hs _) ?_
  rintro r u ⟨rfl, rfl⟩
  simp only [if_true, bind_assoc, pure_bind]
  refine Outline.unlock (Function.update_self ..) (not_relies hg' _) ?_
  rw [update_release hl]
  exact hk

theorem outline_inodeDel {k : Unit → Code α} {d e i : Nat} (hl : h .inodesMgmt = false)
    (hl' : h .sb = false) (hi : i < 63)
    (hk : Outline (discipline T) t (k ()) h (.unlinking d e none false)) :
    Outline (discipline T) t (simplefsInodeDel (inoOf i) >>= k) h
      (.unlinking d e (some i) false) :=
  outline_nested hl hl' rfl (fun _ => sect_delInode hi) hk

theorem outline_getInode {k : Option SfsInode → Code α} {d i : Nat} {name : Name} {v : SfsInode}
    {mine dirty : Bool} (hl : h .inodesMgmt = false)
    (hk : Outline (discipline T) t (k (some v)) h (.found d name i v mine dirty)) :
    Outline (discipline T) t (simplefsGetInode (inoOf i) >>= k) h
      (.found d name i v mine dirty) := by
  unfold simplefsGetInode
  rw [bind_assoc]
  refine Outline.lock hl ?_
  simp only [Bool.false_eq_true, if_false, bind_assoc]
  refine Outline.step sect_readInode ?_
  rintro r g' ⟨rfl, rfl⟩
  simp only [pure_bind]
  refine Outline.unlock (Function.update_self ..) (not_relies rfl _) ?_
  rw [update_release hl]
  exact hk

/-! ## 2. The operations -/

theorem outline_iterate {d pos : Nat} :
    Outline (discipline T) t (Op.iterate d pos).code (fun _ => false) (.busy d) := by
  change Outline (discipline T) t (discard (simplefsIterate d pos)) _ _
  rw [discard_eq, simplefsIterate]
  refine Outline.step sect_iterate ?_
  rintro _ g' rfl
  exact outline_end (fun _ => rfl) rfl rfl rfl rfl

theorem outline_lookup {d : Nat} {name : Name} :
    Outline (discipline T) t (Op.lookup d name).code (fun _ => false) (.looking d name) := by
  change Outline (discipline T) t (discard (simplefsLookup d name)) _ _
  rw [discard_eq, simplefsLookup, bind_assoc]
  refine Outline.step sect_lookupEntry ?_
  rintro r g' (⟨rfl, rfl⟩ | ⟨i, v, rfl, rfl⟩)
  · exact outline_end (fun _ => rfl) rfl rfl rfl rfl
  · simp only [bind_assoc]
    refine outline_getInode rfl ?_
    simp only [bind_assoc]
    refine Outline.step sect_attach ?_
    rintro _ g' rfl
    exact outline_end (fun _ => rfl) rfl rfl rfl rfl

/-- **`simplefs_create_fs_object`.** -/
theorem outline_create {d : Nat} {name : Name} {mode : BitVec 16}
    (hn : name.bytes.length ≤ 255) : Outline (discipline T) t
      (discard (simplefsCreateFsObject d name mode)) (fun _ => false) (.ready d name) := by
  unfold simplefsCreateFsObject
  rw [discard_eq, bind_assoc]
  refine Outline.step sect_bugOnNoCache ?_
  rintro _ g' rfl
  rw [bind_assoc]
  refine Outline.lock rfl ?_
  simp only [Bool.false_eq_true, if_false, bind_assoc]
  -- from here on the lock on the directory's children is held
  obtain ⟨h1, hh1⟩ : ∃ h1, h1 = Function.update (fun _ : Lock => false) .childrenUpdate true :=
    ⟨_, rfl⟩
  rw [← hh1]
  have hc : h1 .childrenUpdate = true := by rw [hh1]; rfl
  have hm : h1 .inodesMgmt = false := by rw [hh1]; rfl
  have hs : h1 .sb = false := by rw [hh1]; rfl
  have hend : ∀ (a : Int) (g : Phase), g.pick = none → g.pend = none → g.orphan = none →
      g.dirty = none → g.going = none →
      Outline (discipline T) t (do
        Prog.unlock .childrenUpdate
        let _ ← (pure a : Code Int)
        pure ()) h1 g := by
    intro a g h0 h1' h2 h3 h4
    refine Outline.unlock hc (not_relies h0 _) (outline_end ?_ h1' h2 h3 h4)
    intro l
    rw [hh1]
    cases l <;> rfl
  refine outline_getObjectsCount hm rfl fun count => ?_
  simp only
  split
  · rw [bind_assoc]
    exact hend _ _ rfl rfl rfl rfl rfl
  split
  · rw [bind_assoc]
    exact hend _ _ rfl rfl rfl rfl rfl
  rename_i hmode
  rw [bind_assoc]
  refine Outline.stepObs (sect_pickInodeNumber hc) ?_
  rintro k g' ⟨i, rfl, rfl⟩
  rw [bind_assoc]
  refine outline_getAFreeblock hc hs ?_ fun b hb => ?_
  · simp only [bind_assoc]
    exact hend _ _ rfl rfl rfl rfl rfl
  simp only [bind_assoc]
  refine outline_inodeAdd hm hs rfl ?_ ?_ ?_
  · rw [SfsInode.block, BitVec.toNat_ofNat]
    omega
  · by_contra hno
    rw [not_or, Bool.not_eq_true, Bool.not_eq_true] at hno
    rw [hno.1, hno.2] at hmode
    exact hmode rfl
  refine Outline.step (sect_addRecord hn) ?_
  rintro _ g' rfl
  refine Outline.lock hm ?_
  simp only [Bool.false_eq_true, if_false, bind_assoc]
  refine Outline.step sect_countChild ?_
  rintro _ g' rfl
  refine outline_inodeSave (by rw [Function.update_of_ne (by decide), hs]) rfl
    (fun _ => sect_saveInode_found) ?_
  simp only [ne_eq, not_true, if_false, bind_assoc]
  refine Outline.unlock (Function.update_self ..) (not_relies rfl _) ?_
  rw [update_release hm]
  refine Outline.unlock hc (not_relies rfl _) ?_
  refine Outline.step sect_attach ?_
  rintro _ g' rfl
  refine outline_end ?_ rfl rfl rfl rfl
  intro l
  rw [hh1]
  cases l <;> rfl

/-- **`simplefs_unlink`**, as `vfs_unlink` calls it. -/
theorem outline_unlink {d e : Nat} :
    Outline (discipline T) t (Op.unlink e).code (fun _ => false) (.leaving d e) := by
  change Outline (discipline T) t (vfsUnlink e) _ _
  unfold vfsUnlink simplefsUnlink
  rw [bind_assoc]
  refine Outline.step sect_removeRecord ?_
  rintro r g' ⟨i, rfl, hi, rfl⟩
  simp only [bind_assoc]
  refine outline_inodeSave rfl rfl (fun _ => sect_saveInode_unlinking) ?_
  refine outline_inodeDel rfl rfl hi ?_
  simp only [pure_bind, if_true]
  refine Outline.step_last sect_dDelete ?_
  rintro _ g' rfl
  exact outline_end (fun _ => rfl) rfl rfl rfl rfl

end Simplefs
