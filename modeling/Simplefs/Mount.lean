/-
# Mounting

`simplefs_fill_super` computes the inode bitmap from the inode store and makes a dentry for the
root.  On a device that satisfies the invariants it gives the bitmap that the invariants
determine, so the bitmap need not be on the device at all.  What every event does is said here
once, for all the kinds of run.
-/
import Simplefs.Inv

namespace Simplefs

open Prog (run LockState)

/-! ## 1. The bitmap -/

/-- One turn of the loop of `fill_imap`. -/
def fillImapTurn (slot : Nat → SfsInode) (w : BitVec 64) (i : Nat) : Except Fault (BitVec 64) :=
  if (slot i).inodeNo = 0#64 then .ok w
  else if (slot i).inodeNo.toNat < 64 then .ok (setBit w (slot i).inodeNo.toNat)
  else .error .outOfImap

theorem fillImap_def (slot : Nat → SfsInode) :
    fillImap slot = (List.range (slotsPerBlock - 1)).foldlM (fillImapTurn slot) (setBit 0 0) := rfl

/-- The loop looks at the numbers in the slots and at nothing else. -/
theorem fillImap_congr {slot slot' : Nat → SfsInode}
    (h : ∀ i, i < slotsPerBlock → (slot' i).inodeNo = (slot i).inodeNo) :
    fillImap slot' = fillImap slot := by
  have hfold : ∀ (l : List Nat) (w : BitVec 64), (∀ i ∈ l, i < slotsPerBlock) →
      l.foldlM (fillImapTurn slot') w = l.foldlM (fillImapTurn slot) w := by
    intro l
    induction l with
    | nil => intro w _; rfl
    | cons i l ih =>
      intro w hl
      have hturn : fillImapTurn slot' w i = fillImapTurn slot w i := by
        rw [fillImapTurn, fillImapTurn, h i (hl i List.mem_cons_self)]
      rw [List.foldlM_cons, List.foldlM_cons, hturn]
      exact bind_congr fun w' => ih w' fun j hj => hl j (List.mem_cons_of_mem _ hj)
  rw [fillImap_def, fillImap_def]
  refine hfold _ _ fun i hi => ?_
  have hlt := List.mem_range.mp hi
  omega

variable {dev : Device} {imap : BitVec 64} {pend : Nat → Prop}

/-- The loop over any list of slots sets the bits of the live ones. -/
theorem foldlM_fillImapTurn
    (h : ∀ i, dev.Live i → (dev.slot i).inodeNo = inoOf i ∧ i < 63) :
    ∀ (l : List Nat) (w : BitVec 64), (∀ i ∈ l, i < 128) →
      ∃ w', l.foldlM (fillImapTurn dev.slot) w = .ok w' ∧ ∀ k, k < 64 →
        (w'.getLsbD k = true ↔ w.getLsbD k = true ∨ ∃ i ∈ l, dev.Live i ∧ k = i + 1)
  | [], w, _ => ⟨w, rfl, fun k _ => by simp⟩
  | i :: l, w, hl => by
    have hi : i < 128 := hl i List.mem_cons_self
    have hl' : ∀ j ∈ l, j < 128 := fun j hj => hl j (List.mem_cons_of_mem _ hj)
    by_cases hlive : dev.Live i
    · obtain ⟨hno, hi63⟩ := h i hlive
      have hturn : fillImapTurn dev.slot w i = .ok (setBit w (i + 1)) := by
        unfold fillImapTurn
        rw [hno, if_neg (inoOf_ne_zero hi), toNat_inoOf hi, if_pos (by omega)]
      obtain ⟨w', hw', hbits⟩ := foldlM_fillImapTurn h l (setBit w (i + 1)) hl'
      refine ⟨w', ?_, fun k hk => ?_⟩
      · rw [List.foldlM_cons, hturn]
        exact hw'
      · rw [hbits k hk, getLsbD_setBit w (i + 1) hk, Bool.or_eq_true, decide_eq_true_eq]
        constructor
        · rintro ((hw | rfl) | ⟨j, hj, hjl, rfl⟩)
          · exact Or.inl hw
          · exact Or.inr ⟨i, List.mem_cons_self, hlive, rfl⟩
          · exact Or.inr ⟨j, List.mem_cons_of_mem _ hj, hjl, rfl⟩
        · rintro (hw | ⟨j, hj, hjl, rfl⟩)
          · exact Or.inl (Or.inl hw)
          · rcases List.mem_cons.mp hj with rfl | hj
            · exact Or.inl (Or.inr rfl)
            · exact Or.inr ⟨j, hj, hjl, rfl⟩
    · have hzero : (dev.slot i).inodeNo = 0#64 := by
        by_contra hne
        exact hlive ⟨hi, hne⟩
      have hturn : fillImapTurn dev.slot w i = .ok w := by
        unfold fillImapTurn
        rw [if_pos hzero]
      obtain ⟨w', hw', hbits⟩ := foldlM_fillImapTurn h l w hl'
      refine ⟨w', ?_, fun k hk => ?_⟩
      · rw [List.foldlM_cons, hturn]
        exact hw'
      · rw [hbits k hk]
        refine or_congr_right ⟨fun ⟨j, hj, hr⟩ => ⟨j, List.mem_cons_of_mem _ hj, hr⟩, ?_⟩
        rintro ⟨j, hj, hjl, rfl⟩
        rcases List.mem_cons.mp hj with rfl | hj
        · exact absurd hjl hlive
        · exact ⟨j, hj, hjl, rfl⟩

/-- **`fill_imap` computes the bitmap** of the slots: bit 0, and the bits of the live ones. -/
theorem fillImap_bits (h : ∀ i, dev.Live i → (dev.slot i).inodeNo = inoOf i ∧ i < 63) :
    ∃ w, fillImap dev.slot = .ok w ∧ w.getLsbD 0 = true ∧
      ∀ i, i < 63 → (w.getLsbD (i + 1) = true ↔ dev.Live i) := by
  have hrange : ∀ i ∈ List.range (slotsPerBlock - 1), i < 128 := by
    intro i hi
    have : i < 127 := List.mem_range.mp hi
    omega
  obtain ⟨w, hw, hbits⟩ := foldlM_fillImapTurn h _ (setBit 0 0) hrange
  refine ⟨w, hw, (hbits 0 (by omega)).mpr (Or.inl (by decide)), fun i hi => ?_⟩
  rw [hbits (i + 1) (by omega), getLsbD_setBit 0 0 (by omega), Bool.or_eq_true, decide_eq_true_eq]
  constructor
  · rintro ((h0 | h0) | ⟨j, -, hj, heq⟩)
    · simp at h0
    · omega
    · obtain rfl : i = j := by omega
      exact hj
  · intro hl
    exact Or.inr ⟨i, List.mem_range.mpr (show i < 127 by omega), hl, rfl⟩

/-- It is the bitmap that goes with the inode store. -/
theorem StoreInv.fillImap (h : StoreInv dev imap pend) : fillImap dev.slot = .ok imap := by
  obtain ⟨w, hw, h0, hbits⟩ := fillImap_bits h.slots
  rw [hw]
  refine congrArg Except.ok (BitVec.eq_of_getLsbD_eq fun k hk => ?_)
  rw [Bool.eq_iff_iff]
  obtain _ | i := k
  · exact iff_of_true h0 h.imap_zero
  · rw [hbits i (by omega), h.imap_iff i (by omega)]

/-! ## 2. The mounted filesystem -/

/-- The state a mount starts with. -/
def mountedFs (dev : Device) (imap past : BitVec 64) : Fs where
  dev := dev
  imap := imap
  dentries := Function.update (fun _ => none) 0
    (some ⟨0, ⟨[], Name.noNul_nil⟩, dev.slot 0, none, true⟩)
  next := 1
  past := past
  torn := fun _ => none

/-- A formatted device mounts if its inode store gives a bitmap. -/
theorem run_fillSuper_of_fillImap (hf : dev.Formatted) (hmap : fillImap dev.slot = .ok imap)
    (past : BitVec 64) {lk : LockState Lock} (hl : lk.held .inodesMgmt = false) :
    run quiet simplefsFillSuper lk (Fs.blank dev past) =
      (.returned 0 (mountedFs dev imap past), lk) := by
  have hmagic : decide ((Fs.blank dev past).dev.magic ≠ superMagic) = false :=
    decide_eq_false (not_not.mpr hf.1)
  have hsize : decide ((Fs.blank dev past).dev.blockSize ≠ 4096) = false :=
    decide_eq_false (not_not.mpr hf.2)
  have himap : fillImapStep (Fs.blank dev past) =
      .ok ((), { Fs.blank dev past with imap := imap }) := by
    have hf : Simplefs.fillImap (Fs.blank dev past).dev.slot = .ok imap := hmap
    simp only [fillImapStep, hf, bind, Except.bind, pure, Except.pure]
  have hread : ∀ fs : Fs,
      readInode (BitVec.ofNat 64 rootInodeNumber) fs = .ok (fs.dev.slot 0, fs) := fun _ => rfl
  unfold simplefsFillSuper simplefsGetInode
  simp only [Prog.run_read_bind, hmagic, hsize, Bool.false_eq_true, if_false, Prog.run_step_bind,
    himap, bind_assoc, Prog.run_lock_bind, quiet, hl, hread, Prog.run_unlock_bind, pure_bind,
    Prog.run_pure, makeRoot, LockState.drop_take lk _ hl]
  rfl

/-- **A device that satisfies the invariants mounts.** -/
theorem run_fillSuper (hs : StoreInv dev imap pend) (past : BitVec 64) {lk : LockState Lock}
    (hl : lk.held .inodesMgmt = false) : run quiet simplefsFillSuper lk (Fs.blank dev past) =
      (.returned 0 (mountedFs dev imap past), lk) :=
  run_fillSuper_of_fillImap hs.formatted hs.fillImap past hl

theorem mountedFs_dentries {past : BitVec 64} {e : Nat} {y : Dentry}
    (h : (mountedFs dev imap past).dentries e = some y) :
    e = 0 ∧ y = ⟨0, ⟨[], Name.noNul_nil⟩, dev.slot 0, none, true⟩ := by
  unfold mountedFs at h
  simp only [Function.update_apply] at h
  split at h
  · rename_i he
    exact ⟨he, (Option.some.inj h).symm⟩
  · cases h

/-- **... into a state that satisfies the invariant of a mounted filesystem.** -/
theorem mountedFs_inv (hs : StoreInv dev imap fun _ => False) (ht : TreeInv dev fun _ => False)
    (past : BitVec 64) : FsInv (mountedFs dev imap past) Shadow.none := by
  have hlive : dev.Live 0 := ht.wf.root_dir.1
  have hslot : slotIndex (dev.slot 0).inodeNo = 0 := by
    rw [(hs.slots 0 hlive).1, slotIndex_inoOf (by omega)]
  refine ⟨hs, ht, ?_, ?_, ?_, ?_, ?_, ?_, ?_, ?_, fun b hno => absurd rfl hno⟩
  · intro e he
    have he1 : 1 ≤ e := he
    cases hy : (mountedFs dev imap past).dentries e with
    | none => rfl
    | some y =>
      have := (mountedFs_dentries hy).1
      omega
  · exact ⟨_, ⟨rfl, rfl, id⟩, hslot⟩
  · rintro e y ⟨hy, -⟩
    obtain ⟨-, rfl⟩ := mountedFs_dentries hy
    simp only [Dentry.slot, hslot]
    exact ⟨hlive, id, .refl _⟩
  · rintro e y ⟨hy, -⟩ -
    obtain ⟨-, rfl⟩ := mountedFs_dentries hy
    simp only [Dentry.slot, hslot]
    rfl
  · rintro e y ⟨hy, -⟩ he
    exact absurd (mountedFs_dentries hy).1 he
  · rintro e e' y y' ⟨hy, -⟩ ⟨hy', -⟩ -
    rw [(mountedFs_dentries hy).1, (mountedFs_dentries hy').1]
  · intro e y c hy hc
    obtain ⟨-, rfl⟩ := mountedFs_dentries hy
    cases hc
  · intro e y hy hno
    obtain ⟨-, rfl⟩ := mountedFs_dentries hy
    exact absurd ⟨rfl, id⟩ hno

/-! ## 3. What an event does -/

/-- A mount is refused if the magic number or the block size is wrong. -/
theorem run_fillSuper_refused (hf : ¬ dev.Formatted) (past : BitVec 64) {lk : LockState Lock} :
    run quiet simplefsFillSuper lk (Fs.blank dev past) =
      (.returned (- EPERM) (Fs.blank dev past), lk) := by
  unfold simplefsFillSuper
  rw [Prog.run_read_bind]
  split
  · rfl
  · rename_i hmagic
    have hsize : (Fs.blank dev past).dev.blockSize ≠ 4096 := fun hsize =>
      hf ⟨not_not.mp fun hne => hmagic (decide_eq_true hne), hsize⟩
    rw [Prog.run_read_bind, if_pos (decide_eq_true hsize)]
    rfl

/-- A mount that returns changed no lock, and if it succeeded it started from what is on the
device. -/
theorem mounted_of_run {past : BitVec 64} {lk lk' : LockState Lock} {ret : Int} {fs : Fs}
    (h : run quiet simplefsFillSuper lk (Fs.blank dev past) = (.returned ret fs, lk')) :
    lk' = lk ∧ (ret = 0 → ∃ imap, fillImap dev.slot = .ok imap ∧
      fs = mountedFs dev imap past) := by
  by_cases hf : dev.Formatted
  swap
  · rw [run_fillSuper_refused hf past] at h
    cases h
    exact ⟨rfl, fun h0 => by cases h0⟩
  have hmagic : decide ((Fs.blank dev past).dev.magic ≠ superMagic) = false :=
    decide_eq_false (not_not.mpr hf.1)
  have hsize : decide ((Fs.blank dev past).dev.blockSize ≠ 4096) = false :=
    decide_eq_false (not_not.mpr hf.2)
  cases hmap : fillImap dev.slot with
  | error e =>
    have hstep : fillImapStep (Fs.blank dev past) = .error e := by
      have hmap' : fillImap (Fs.blank dev past).dev.slot = .error e := hmap
      rw [fillImapStep, hmap']
      rfl
    unfold simplefsFillSuper at h
    simp only [Prog.run_read_bind, hmagic, hsize, Bool.false_eq_true, if_false,
      Prog.run_step_bind, hstep] at h
    cases h
  | ok imap =>
    cases hl : lk.held .inodesMgmt with
    | true =>
      have hstep : fillImapStep (Fs.blank dev past) =
          .ok ((), { Fs.blank dev past with imap := imap }) := by
        have hmap' : fillImap (Fs.blank dev past).dev.slot = .ok imap := hmap
        rw [fillImapStep, hmap']
        rfl
      unfold simplefsFillSuper simplefsGetInode at h
      simp only [Prog.run_read_bind, hmagic, hsize, Bool.false_eq_true, if_false,
        Prog.run_step_bind, hstep, bind_assoc, Prog.run_lock_bind, hl, if_true] at h
      cases h
    | false =>
      rw [run_fillSuper_of_fillImap hf hmap past hl] at h
      cases h
      exact ⟨rfl, fun _ => ⟨imap, rfl, rfl⟩⟩

/-- A mount that returns, with what `simplefs_fill_super` returned. -/
theorem Event.apply_mount_iff {lk : LockState Lock} {past : BitVec 64} {s' : Sys} :
    (Event.mount past).apply ⟨lk, .offline dev⟩ = some s' ↔
      ∃ ret fs lk', run quiet simplefsFillSuper lk (Fs.blank dev past) = (.returned ret fs, lk') ∧
        s' = ⟨lk', if ret = 0 then .mounted fs else .offline dev⟩ := by
  simp only [Event.apply]
  constructor
  · intro h
    split at h
    · rename_i ret fs lk' hrun
      cases h
      exact ⟨ret, fs, lk', hrun, rfl⟩
    · cases h
  · rintro ⟨ret, fs, lk', hrun, rfl⟩
    rw [hrun]

/-- What the events that return do. -/
inductive Event.LeadsTo : Event → Sys → Sys → Prop
  | refused {lk dev past} : LeadsTo (.mount past) ⟨lk, .offline dev⟩ ⟨lk, .offline dev⟩
  | mount {lk dev past imap} (hmap : fillImap dev.slot = .ok imap) :
      LeadsTo (.mount past) ⟨lk, .offline dev⟩ ⟨lk, .mounted (mountedFs dev imap past)⟩
  | umount {lk fs} : LeadsTo .umount ⟨lk, .mounted fs⟩ ⟨lk, .offline fs.flushed⟩
  | call {lk lk' op intr fs fs'} (hrun : run intr op.code lk fs = (.returned () fs', lk')) :
      LeadsTo (.call op intr) ⟨lk, .mounted fs⟩ ⟨lk', .mounted fs'⟩

/-- **`Event.apply`, taken apart.** -/
theorem Event.leadsTo {ev : Event} {s s' : Sys} (h : ev.apply s = some s') : ev.LeadsTo s s' := by
  obtain ⟨lk, m⟩ := s
  cases m with
  | offline dev =>
    cases ev with
    | mount past =>
      obtain ⟨ret, fs, lk', hrun, rfl⟩ := Event.apply_mount_iff.mp h
      obtain ⟨rfl, hmounted⟩ := mounted_of_run hrun
      split
      · rename_i h0
        obtain ⟨imap, hmap, rfl⟩ := hmounted h0
        exact .mount hmap
      · exact .refused
    | umount => cases h
    | call op intr => cases h
  | mounted fs =>
    cases ev with
    | mount past => cases h
    | umount =>
      cases h
      exact .umount
    | call op intr =>
      simp only [Event.apply] at h
      split at h
      · rename_i u fs' lk' hrun
        cases h
        exact .call hrun
      · cases h

end Simplefs
