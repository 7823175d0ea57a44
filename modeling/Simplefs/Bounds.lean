/-
# Sizes within the block

`simplefs_write` sets `file_size` to where it ends, and `simplefs_read` trusts `file_size` as the
bound of its copy; the check that would keep a write inside the file's block, in
`generic_write_checks`, is compiled out.  If every write ends inside its block, then so does every
read, in every run: with other calls interrupted or not, to linked files or stale ones.

The invariant is that of a bound, much weaker than the invariant of a consistent filesystem, and
no interruption breaks it: an inode's mode, block and size always travel together.
-/
import Simplefs.Lib.Wlp
import Simplefs.Runs

namespace Simplefs

open Prog (run LockState Ending wlp wlp_step wlp_stepObs wlp_lock wlp_unlock wlp_read wlp_bind)

/-! ## 1. The invariant -/

/-- An inode with a data block, and, if it is a file's, no larger than that. -/
structure SfsInode.Bounded (v : SfsInode) : Prop where
  size : isReg v.mode = true → v.fileSize.toNat ≤ 4096
  block : isReg v.mode = true ∨ isDir v.mode = true → 2 ≤ v.block

/-- Every inode is bounded, on the device and in memory, and only directories have a cache. -/
structure Fs.Bounded (fs : Fs) : Prop where
  slot : ∀ i, i < slotsPerBlock → (fs.dev.slot i).Bounded
  dentry : ∀ d x, fs.dentries d = some x → x.inode.Bounded
  cached : ∀ d x c, fs.dentries d = some x → x.fsdata = some c → isDir x.inode.mode = true
  torn : fs.DataTorn

theorem not_isReg_of_isDir {mode : BitVec 32} (h : isDir mode = true) : isReg mode ≠ true := by
  intro hr
  rw [not_isDir_of_isReg hr] at h
  cases h

/-- Of another size, a directory's inode is bounded all the same. -/
theorem SfsInode.Bounded.resize_dir {v : SfsInode} (h : v.Bounded) (hd : isDir v.mode = true)
    (size : BitVec 64) : SfsInode.Bounded { v with fileSize := size } :=
  ⟨fun hr => absurd hr (not_isReg_of_isDir hd), h.block⟩

/-- An inode that was just made. -/
theorem bounded_newInode (mode : BitVec 16) (ino : Nat) {b : Nat} (h3 : 3 ≤ b)
    (h64 : b < maxObjects) : (newInode mode ino b).Bounded := by
  have h64' : b < 64 := h64
  refine ⟨fun _ => Nat.zero_le _, fun _ => ?_⟩
  simp only [newInode, SfsInode.block, BitVec.toNat_ofNat]
  omega

/-- An empty slot is neither a file nor a directory. -/
theorem bounded_zero : SfsInode.zero.Bounded :=
  ⟨fun hr => absurd hr (by decide), fun hr => absurd hr (by decide)⟩

namespace Fs.Bounded

variable {fs : Fs} {d : Nat} {x x' : Dentry} {v : SfsInode}

/-- The slots are the same. -/
theorem of_slots (h : fs.Bounded) {dev : Device} {imap : BitVec 64}
    (hs : ∀ i, i < slotsPerBlock → dev.slot i = fs.dev.slot i) :
    Fs.Bounded { fs with dev := dev, imap := imap } :=
  ⟨fun i hi => by rw [hs i hi]; exact h.slot i hi, h.dentry, h.cached, h.torn⟩

/-- One slot is written. -/
theorem setSlot (h : fs.Bounded) {i : Nat} (hv : v.Bounded) :
    Fs.Bounded { fs with dev := fs.dev.setSlot i v } := by
  refine ⟨fun k hk => ?_, h.dentry, h.cached, h.torn⟩
  simp only [Device.slot_setSlot]
  split
  · exact hv
  · exact h.slot k hk

/-- One dentry is written. -/
theorem setDentry (h : fs.Bounded) (hv : x'.inode.Bounded)
    (hc : ∀ c, x'.fsdata = some c → isDir x'.inode.mode = true) :
    (fs.setDentry d x').Bounded := by
  constructor
  case slot => exact h.slot
  case torn => exact h.torn
  case dentry =>
    intro e y hy
    rw [Fs.setDentry_dentries] at hy
    split at hy
    · cases hy
      exact hv
    · exact h.dentry e y hy
  case cached =>
    intro e y c hy
    rw [Fs.setDentry_dentries] at hy
    split at hy
    · cases hy
      exact hc c
    · exact h.cached e y c hy

/-- A dentry is added. -/
theorem dAdd (h : fs.Bounded) (hv : v.Bounded) (p : Nat) (name : Name) :
    (fs.dAdd p name v).Bounded := by
  constructor
  case slot => exact h.slot
  case torn => exact h.torn
  case dentry =>
    intro e y hy
    rw [Fs.dAdd_dentries] at hy
    split at hy
    · cases hy
      exact hv
    · exact h.dentry e y hy
  case cached =>
    intro e y c hy hc
    rw [Fs.dAdd_dentries] at hy
    split at hy
    · cases hy
      cases hc
    · exact h.cached e y c hy hc

end Fs.Bounded

/-! ## 2. The pieces that write -/

section Pieces

variable {fs fs' : Fs} {intr : Site → Bool} {d p : Nat} {name : Name} {ino : BitVec 64}

/-- Dentry `p` is a directory, linked or not. -/
def Fs.IsDirAt (fs : Fs) (p : Nat) : Prop :=
  ∃ x, fs.dentries p = some x ∧ isDir x.inode.mode = true

theorem bounded_addRecord (h : fs.Bounded) {u : Unit}
    (hr : addRecord p name ino fs = .ok (u, fs')) : fs'.Bounded ∧ fs'.IsDirAt p := by
  obtain ⟨x, c, e, hx, hc, -, hlt, rfl⟩ := addRecord_ok hr
  have hd := h.cached p x c hx hc
  have h2 := (h.dentry p x hx).block (Or.inr hd)
  have hagree := Device.agreeOff_putRecord_block fs.dev x.inode.block ino hlt.1 hlt.2
  refine ⟨?_, _, (Fs.setDentry_dentries _ _ _ _).trans (if_pos rfl), hd⟩
  refine Fs.Bounded.setDentry ?_ (h.dentry p x hx) fun _ _ => hd
  refine h.of_slots fun i hi => Device.slot_congr hagree ?_
  have hi' : i < 128 := hi
  omega

theorem bounded_countChild (h : fs.Bounded) (hd : fs.IsDirAt p) {u : Unit}
    (hr : countChild p fs = .ok (u, fs')) : fs'.Bounded := by
  obtain ⟨x, hx, hdir⟩ := hd
  rw [countChild_eq hx] at hr
  cases hr
  exact h.setDentry ((h.dentry p x hx).resize_dir hdir _) fun _ _ => hdir

theorem bounded_saveInode (h : fs.Bounded) {r : Bool} (hr : saveInode d fs = .ok (r, fs')) :
    fs'.Bounded := by
  obtain ⟨x, hx, ⟨-, rfl⟩ | ⟨-, i, -, -, rfl⟩⟩ := saveInode_ok hr
  · exact h
  · exact h.setSlot (h.dentry d x hx)

theorem bounded_removeRecord (h : fs.Bounded) {e : Nat} {r : Nat × BitVec 64}
    (hr : removeRecord e fs = .ok (r, fs')) : fs'.Bounded := by
  obtain ⟨y, x, c, entry, ⟨-, hx, hc, -, hlt⟩, -, rfl⟩ := removeRecord_ok hr
  have hd := h.cached _ x c hx hc
  have h2 := (h.dentry _ x hx).block (Or.inr hd)
  have hagree := Device.agreeOff_clearRecord fs.dev x.inode.block entry.entryNo
  refine Fs.Bounded.setDentry ?_ ((h.dentry _ x hx).resize_dir hd _) fun _ _ => hd
  refine h.of_slots fun i hi => Device.slot_congr hagree ?_
  have hi' : i < 128 := hi
  omega

theorem bounded_taken (h : fs.Bounded) (b : Nat) : (fs.taken b).Bounded :=
  h.of_slots fun _ _ => Device.slot_setFreeBlocks _ _ _

/-! ## 3. The helpers -/

/-- The number that passes the checks of `simplefs_inode_add` and `simplefs_inode_del`. -/
theorem inoOf_of_checks {ino : BitVec 64} (hat : slotAt ino < slotsPerBlock)
    (h64 : ino.toNat < 64) : ∃ i, i < 63 ∧ ino = inoOf i := by
  -- the number 0 would lead to slot `2 ^ 59 - 1`
  have h128 : slotIndex ino < 128 := by
    have hlt : slotAt ino < 128 := hat
    rw [slotAt, slotIndex, BitVec.toNat_sub] at hlt
    rw [slotIndex, BitVec.toNat_sub]
    simp only [BitVec.reduceToNat] at hlt ⊢
    omega
  have hno := inoOf_slotIndex h128
  refine ⟨slotIndex ino, ?_, hno.symm⟩
  rw [← hno, toNat_inoOf h128] at h64
  omega

/-- What `simplefs_inode_add` did. -/
theorem addInode_ok {v : SfsInode} {u : Unit} (hr : addInode v fs = .ok (u, fs')) :
    ∃ i, i < 63 ∧ v.inodeNo = inoOf i ∧
      fs' = { fs with dev := fs.dev.addAt i v, imap := setBit fs.imap (i + 1) } := by
  have hr' := hr
  unfold addInode at hr'
  split at hr'
  swap
  · cases hr'
  rename_i h128
  split at hr'
  swap
  · cases hr'
  rename_i h64
  obtain ⟨i, hi, hno⟩ := inoOf_of_checks h128 h64
  rw [addInode_eq hi hno] at hr
  cases hr
  exact ⟨i, hi, hno, rfl⟩

/-- What `simplefs_inode_del` did. -/
theorem delInode_ok {u : Unit} (hr : delInode ino fs = .ok (u, fs')) :
    ∃ i, i < 63 ∧ ino = inoOf i ∧
      fs' = { fs with dev := fs.dev.delAt i, imap := clearBit fs.imap (i + 1) } := by
  have hr' := hr
  unfold delInode at hr'
  split at hr'
  swap
  · cases hr'
  rename_i h128
  split at hr'
  swap
  · cases hr'
  rename_i h64
  obtain ⟨i, hi, rfl⟩ := inoOf_of_checks h128 h64
  rw [delInode_eq hi] at hr
  cases hr
  exact ⟨i, hi, rfl, rfl⟩

/-- The rule for `simplefs_inode_save`. -/
theorem wlp_simplefsInodeSave {R : Fs → Prop} (hskip : R fs)
    (hsave : ∀ found fs1, saveInode d fs = .ok (found, fs1) → R fs1) :
    wlp intr (simplefsInodeSave d) (fun _ => R) fs := by
  refine wlp_lock fun i _ => ?_
  cases i with
  | true => exact hskip
  | false =>
    refine wlp_step fun found fs1 hr => ?_
    cases found <;> exact hsave _ fs1 hr

/-- The rule for `simplefs_inode_add`. -/
theorem wlp_simplefsInodeAdd {v : SfsInode} {R : Fs → Prop} (hskip : R fs)
    (hadd : ∀ i, i < 63 → v.inodeNo = inoOf i →
      R { fs with dev := fs.dev.addAt i v, imap := setBit fs.imap (i + 1) }) :
    wlp intr (simplefsInodeAdd v) (fun _ => R) fs := by
  refine wlp_lock fun i _ => ?_
  cases i with
  | true => exact hskip
  | false =>
    refine wlp_lock fun i _ => ?_
    cases i with
    | true => exact hskip
    | false =>
      refine wlp_stepObs fun u fs1 hr => ?_
      obtain ⟨i, hi, hno, rfl⟩ := addInode_ok hr
      exact hadd i hi hno

/-- The rule for `simplefs_inode_del`. -/
theorem wlp_simplefsInodeDel {R : Fs → Prop} (hskip : R fs)
    (hdel : ∀ i, i < 63 → ino = inoOf i →
      R { fs with dev := fs.dev.delAt i, imap := clearBit fs.imap (i + 1) }) :
    wlp intr (simplefsInodeDel ino) (fun _ => R) fs := by
  refine wlp_lock fun i _ => ?_
  cases i with
  | true => exact hskip
  | false =>
    refine wlp_lock fun i _ => ?_
    cases i with
    | true => exact hskip
    | false =>
      refine wlp_step fun u fs1 hr => ?_
      obtain ⟨i, hi, hno, rfl⟩ := delInode_ok hr
      exact hdel i hi hno

/-- `simplefs_inode_save`. -/
theorem wlp_inodeSave (h : fs.Bounded) (d : Nat) :
    wlp intr (simplefsInodeSave d) (fun _ fs' => fs'.Bounded) fs :=
  wlp_simplefsInodeSave h fun _ _ hr => bounded_saveInode h hr

/-- `simplefs_inode_add` of a bounded inode. -/
theorem wlp_inodeAdd (h : fs.Bounded) {v : SfsInode} (hv : v.Bounded) :
    wlp intr (simplefsInodeAdd v) (fun _ fs' => fs'.Bounded) fs := by
  refine wlp_simplefsInodeAdd h fun i _ _ => ⟨fun k hk => ?_, h.dentry, h.cached, h.torn⟩
  rw [Device.slot_addAt]
  split
  · exact hv
  · exact h.slot k hk

/-- `simplefs_inode_del`. -/
theorem wlp_inodeDel (h : fs.Bounded) (ino : BitVec 64) :
    wlp intr (simplefsInodeDel ino) (fun _ fs' => fs'.Bounded) fs := by
  refine wlp_simplefsInodeDel h fun i _ _ => ⟨fun k hk => ?_, h.dentry, h.cached, h.torn⟩
  rw [Device.slot_delAt]
  split
  · exact bounded_zero
  · exact h.slot k hk

/-- `simplefs_get_inode`: what it returns has been in a slot. -/
theorem wlp_getInode (ino : BitVec 64) :
    wlp intr (simplefsGetInode ino) (fun v fs' => fs = fs' ∧
      ∀ w, v = some w → slotAt ino < slotsPerBlock ∧ w = fs.dev.slot (slotAt ino)) fs := by
  refine wlp_lock fun i _ => ?_
  cases i with
  | true => exact ⟨rfl, fun w hw => by cases hw⟩
  | false =>
    refine wlp_step fun v fs1 hr => ?_
    unfold readInode at hr
    split at hr
    · rename_i hlt
      cases hr
      refine ⟨rfl, fun w hw => ⟨hlt, ?_⟩⟩
      cases hw
      rfl
    · cases hr

/-- `simplefs_sb_get_a_freeblock`: the block that the scan finds is taken, or there is an error. -/
theorem wlp_getAFreeblock :
    wlp intr simplefsSbGetAFreeblock (fun r fs' => (∀ ret, r = .error ret → ret ≠ 0 ∧ fs = fs') ∧
      ∀ b, r = .ok b → freeBlockScan fs.dev.freeBlocks = some b ∧ fs' = fs.taken b) fs := by
  refine wlp_lock fun i _ => ?_
  cases i with
  | true =>
    refine ⟨fun ret hret => ?_, fun b hb => by cases hb⟩
    cases hret
    exact ⟨by decide, rfl⟩
  | false =>
    refine wlp_stepObs fun r fs1 hr => ?_
    cases hs : freeBlockScan fs.dev.freeBlocks with
    | none =>
      rw [takeFreeBlock_none hs] at hr
      cases hr
      refine ⟨fun ret hret => ?_, fun b hb => by cases hb⟩
      cases hret
      exact ⟨by decide, rfl⟩
    | some b =>
      rw [takeFreeBlock_some hs] at hr
      cases hr
      refine ⟨fun ret hret => (by cases hret), fun b' hb' => ?_⟩
      cases hb'
      exact ⟨rfl, rfl⟩

/-- `simplefs_sb_get_objects_count`: the count is read, or there is an error. -/
theorem wlp_getObjectsCount :
    wlp intr simplefsSbGetObjectsCount
      (fun r fs' => fs = fs' ∧ ∀ ret, r = .error ret → ret ≠ 0) fs := by
  refine wlp_lock fun i _ => ?_
  cases i with
  | true =>
    refine ⟨rfl, fun ret hret => ?_⟩
    cases hret
    decide
  | false => exact wlp_read fun _ _ => ⟨rfl, fun ret hret => by cases hret⟩

end Pieces

/-! ## 4. The calls -/

section Calls

variable {fs : Fs} {intr : Site → Bool} {p : Nat} {name : Name}

/-- What a call returns is dropped. -/
theorem wlp_discard {α : Type} {q : Code α} {Q : Fs → Prop}
    (h : wlp intr q (fun _ fs' => Q fs') fs) : wlp intr (discard q) (fun _ fs' => Q fs') fs :=
  wlp_bind h fun _ _ h' => h'

/-- `simplefs_iterate`. -/
theorem wlp_iterate (h : fs.Bounded) {d : Nat} {x : Dentry} (hx : fs.DirAt d x) (pos : Nat) :
    wlp intr (simplefsIterate d pos) (fun _ fs' => fs'.Bounded) fs := by
  intro r fs1 hr
  rw [iterate_eq hx.1 pos] at hr
  cases hr
  exact h.setDentry (h.dentry d x hx.1) fun _ _ => hx.2.2

/-- The rule for a lookup: it attaches the inode that an entry of the cache leads to, or nothing. -/
theorem wlp_lookupObject {R : Int → Fs → Prop} (hskip : ∀ ret, R ret fs)
    (hfound : ∀ x c e, fs.dentries p = some x → x.fsdata = some c →
      usedCacheEntryGet c name = some e → slotAt e.record.inodeNo < slotsPerBlock →
      R 0 (fs.dAdd p name (fs.dev.slot (slotAt e.record.inodeNo)))) :
    wlp intr (simplefsLookup p name) R fs := by
  refine wlp_step fun r fs1 hr => ?_
  obtain ⟨rfl, x, c, hx, hc, rfl⟩ := lookupEntry_ok hr
  cases he : usedCacheEntryGet c name with
  | none => exact hskip 0
  | some e =>
    refine wlp_bind (wlp_getInode e.record.inodeNo) ?_
    rintro v _ ⟨rfl, hv⟩
    cases v with
    | none => exact hskip _
    | some v =>
      obtain ⟨hlt, rfl⟩ := hv v rfl
      refine wlp_step fun u fs2 hr2 => ?_
      cases hr2
      exact hfound x c e hx hc he hlt

/-- `simplefs_lookup`. -/
theorem wlp_lookup (h : fs.Bounded) (p : Nat) (name : Name) :
    wlp intr (simplefsLookup p name) (fun _ fs' => fs'.Bounded) fs :=
  wlp_lookupObject (fun _ => h) fun _ _ _ _ _ _ hlt => h.dAdd (h.slot _ hlt) p name

/-- The rule for the end of a create: `J` holds once the record is written, `K` once the child
is counted, and `M` once the directory is saved. -/
theorem wlp_createTail {v : SfsInode} {J K : Fs → Prop} {M R : Int → Fs → Prop}
    (hrecord : ∀ u fs1, addRecord p name v.inodeNo fs = .ok (u, fs1) → J fs1)
    (hgiveUp : ∀ fs1, J fs1 → intr .createMgmt = true → R (-EINTR) fs1)
    (hcount : ∀ fs1 u fs2, J fs1 → countChild p fs1 = .ok (u, fs2) → K fs2)
    (hsave : ∀ fs2, K fs2 → wlp intr (simplefsInodeSave p) M fs2)
    (hfail : ∀ ret fs3, M ret fs3 → ret ≠ 0 → R ret fs3)
    (hattach : ∀ fs3, M 0 fs3 → R 0 (fs3.dAdd p name v)) :
    wlp intr (createTail p name v) R fs := by
  refine wlp_step fun u fs1 hr => ?_
  have h1 := hrecord u fs1 hr
  refine wlp_lock fun i hi => ?_
  cases i with
  | true => exact hgiveUp fs1 h1 hi
  | false =>
    simp only [Bool.false_eq_true, if_false]
    refine wlp_step fun u fs2 hr => ?_
    have h2 := hcount fs1 u fs2 h1 hr
    refine wlp_bind (hsave fs2 h2) fun ret fs3 h3 => ?_
    split
    · rename_i hret
      exact hfail ret fs3 h3 hret
    · rename_i hret
      obtain rfl := not_not.mp hret
      refine wlp_unlock (wlp_unlock (wlp_step fun _ fs4 hr => ?_))
      cases hr
      exact hattach fs3 h3

/-- The rule for a create up to there: `A` holds of the number and the block once the block is
taken and the inode is in the store. -/
theorem wlp_createObject {mode : BitVec 16} {A : Nat → Nat → Fs → Prop} {R : Int → Fs → Prop}
    (hrefuse : ∀ ret, ret ≠ 0 → R ret fs)
    (hadd : ∀ ino b, freeBlockScan fs.dev.freeBlocks = some b →
      wlp intr (simplefsInodeAdd (newInode mode ino b)) (fun _ => A ino b) (fs.taken b))
    (htail : ∀ ino b fs2, A ino b fs2 →
      wlp intr (createTail p name (newInode mode ino b)) R fs2) :
    wlp intr (simplefsCreateFsObject p name mode) R fs := by
  refine wlp_step fun u fs1 hr => ?_
  obtain rfl := bugOnNoCache_state hr
  refine wlp_lock fun i _ => ?_
  cases i with
  | true => exact hrefuse _ (by decide)
  | false =>
  refine wlp_bind wlp_getObjectsCount ?_
  rintro count _ ⟨rfl, hcount⟩
  cases count with
  | error ret => exact hrefuse ret (hcount ret rfl)
  | ok count =>
  simp only
  split
  · exact hrefuse _ (by decide)
  split
  · exact hrefuse _ (by decide)
  refine wlp_stepObs fun ino fs1 hr => ?_
  obtain ⟨-, rfl⟩ := pickInodeNumber_ok hr
  refine wlp_bind wlp_getAFreeblock ?_
  rintro blk fs2 ⟨herr, hblk⟩
  cases blk with
  | error ret =>
    obtain ⟨hret, rfl⟩ := herr ret rfl
    exact hrefuse ret hret
  | ok b =>
    obtain ⟨hb, rfl⟩ := hblk b rfl
    refine wlp_bind (hadd ino b hb) fun _ fs3 h3 => ?_
    have hend := htail ino b fs3 h3
    exact hend

/-- `simplefs_create_fs_object`. -/
theorem wlp_create (h : fs.Bounded) (p : Nat) (name : Name) (mode : BitVec 16) :
    wlp intr (simplefsCreateFsObject p name mode) (fun _ fs' => fs'.Bounded) fs := by
  refine wlp_createObject (A := fun ino b fs2 => fs2.Bounded ∧ (newInode mode ino b).Bounded)
    (fun _ _ => h) (fun ino b hb => ?_) ?_
  · obtain ⟨hb3, hb64, -⟩ := freeBlockScan_some hb
    have hv : (newInode mode ino b).Bounded := bounded_newInode mode ino hb3 hb64
    exact Prog.wlp_mono (wlp_inodeAdd (bounded_taken h b) hv) fun _ _ h2 => ⟨h2, hv⟩
  · rintro ino b fs2 ⟨h2, hv⟩
    exact wlp_createTail (J := fun fs' => fs'.Bounded ∧ fs'.IsDirAt p)
      (fun _ _ hr => bounded_addRecord h2 hr) (fun _ h4 _ => h4.1)
      (fun _ _ _ h4 hr => bounded_countChild h4.1 h4.2 hr) (fun _ h5 => wlp_inodeSave h5 p)
      (fun _ _ h6 _ => h6) fun _ h6 => h6.dAdd hv p name

/-- The rule for an unlink: `J` holds once the directory is saved, and `R` from then on that the
inode is given up. -/
theorem wlp_unlinkFile {e : Nat} {J R : Fs → Prop}
    (hrecord : ∀ r fs1, removeRecord e fs = .ok (r, fs1) →
      wlp intr (simplefsInodeSave r.1) (fun _ => J) fs1)
    (hdel : ∀ ino fs2, J fs2 → wlp intr (simplefsInodeDel ino) (fun _ => R) fs2)
    (hunhash : ∀ fs3 y, R fs3 → fs3.dentries e = some y →
      R (fs3.setDentry e { y with linked := false })) : wlp intr (vfsUnlink e) (fun _ => R) fs := by
  have hun : wlp intr (simplefsUnlink e) (fun _ => R) fs := by
    refine wlp_step fun r fs1 hr => ?_
    refine wlp_bind (hrecord r fs1 hr) fun _ fs2 h2 => ?_
    exact wlp_bind (hdel r.2 fs2 h2) fun _ fs3 h3 => h3
  refine wlp_bind hun fun ret fs3 h3 => ?_
  split
  · intro u fs4 hr
    obtain ⟨y, hy, hr⟩ := Fs.of_bind_dentry hr
    cases hr
    exact hunhash fs3 y h3 hy
  · exact h3

/-- `vfs_unlink`. -/
theorem wlp_unlink (h : fs.Bounded) (e : Nat) :
    wlp intr (vfsUnlink e) (fun _ fs' => fs'.Bounded) fs := by
  refine wlp_unlinkFile (J := Fs.Bounded) (fun r fs1 hr => ?_) (fun ino fs2 h2 => ?_)
    fun fs3 y h3 hy => ?_
  · exact wlp_inodeSave (bounded_removeRecord h hr) r.1
  · exact wlp_inodeDel h2 ino
  · exact h3.setDentry (h3.dentry e y hy) fun c hc => h3.cached e y c hy hc

/-- `simplefs_dentry_release`. -/
theorem wlp_release (h : fs.Bounded) (d : Nat) :
    wlp intr (Op.release d).code (fun _ fs' => fs'.Bounded) fs := by
  intro u fs1 hr
  cases hr
  have hold : ∀ e y, Function.update fs.dentries d none e = some y → fs.dentries e = some y :=
    fun _ _ hy => (Fs.of_update_none hy).2
  exact ⟨h.slot, fun e y hy => h.dentry e y (hold e y hy),
    fun e y c hy => h.cached e y c (hold e y hy), h.torn⟩

/-- The write ends inside its block; or it is empty, and interrupted before it sets the size. -/
def EndsInBlock (intr : Site → Bool) (ppos : Nat) (data : List UInt8) : Prop :=
  ppos + data.length ≤ 4096 ∨ data.length = 0 ∧ intr .write = true

theorem EndsInBlock.fits {ppos : Nat} {data : List UInt8} (h : EndsInBlock intr ppos data) :
    Fits ppos data := by
  rcases h with h | ⟨h, -⟩
  · exact Or.inr h
  · exact Or.inl h

/-- The rule for a write: `R` holds once the data is copied, and once the inode is saved. -/
theorem wlp_writeFile {d ppos copied : Nat} {x : Dentry} {data : List UInt8} {R : Fs → Prop}
    (hx : fs.dentries d = some x) (hcopy : Fits ppos data → R (fs.copiedIn x ppos data copied))
    (hsave : Fits ppos data → intr .write = false → wlp intr (simplefsInodeSave d) (fun _ => R)
      ((fs.copiedIn x ppos data copied).setDentry d (x.resized (ppos + data.length)))) :
    wlp intr (simplefsWrite d ppos data copied) (fun _ => R) fs := by
  refine wlp_step fun ok fs1 hr => ?_
  rw [copyFromUser_eq hx] at hr
  split at hr
  swap
  · cases hr
  rename_i hfit
  cases hr
  split
  swap
  · exact hcopy hfit
  refine wlp_lock fun i hi => ?_
  cases i with
  | true => exact hcopy hfit
  | false =>
    refine wlp_step fun _ fs2 hr => ?_
    have hx1 : (fs.copiedIn x ppos data copied).dentries d = some x := hx
    rw [setFileSize_eq hx1] at hr
    cases hr
    exact wlp_bind (hsave hfit hi) fun _ fs3 h3 => wlp_unlock h3

/-- The slots, once data is copied into a data block. -/
theorem slot_copiedIn {x : Dentry} (h2 : 2 ≤ x.inode.block) (ppos : Nat) (data : List UInt8)
    (copied : Nat) {i : Nat} (hi : i < slotsPerBlock) :
    (fs.copiedIn x ppos data copied).dev.slot i = fs.dev.slot i := by
  have hi' : i < 128 := hi
  exact Device.slot_congr (Device.agreeOff_putData _ _ _ _) (by omega)

theorem Fs.Bounded.copiedIn (h : fs.Bounded) {x : Dentry} (h2 : 2 ≤ x.inode.block) (ppos : Nat)
    (data : List UInt8) (copied : Nat) : (fs.copiedIn x ppos data copied).Bounded :=
  ⟨fun i hi => by rw [slot_copiedIn h2 ppos data copied hi]; exact h.slot i hi, h.dentry, h.cached,
    h.torn.tear h2 _⟩

/-- A size inside the block. -/
theorem SfsInode.Bounded.resized {x : Dentry} (h : x.inode.Bounded) {size : Nat}
    (hs : size ≤ 4096) : (x.resized size).inode.Bounded := by
  refine ⟨fun _ => ?_, h.block⟩
  simp only [Dentry.resized, BitVec.toNat_ofNat]
  omega

/-- `simplefs_write`. -/
theorem wlp_write (h : fs.Bounded) {d : Nat} {x : Dentry} (hx : fs.dentries d = some x)
    (hreg : isReg x.inode.mode = true) {ppos : Nat} {data : List UInt8}
    (hw : EndsInBlock intr ppos data) (copied : Nat) :
    wlp intr (simplefsWrite d ppos data copied) (fun _ fs' => fs'.Bounded) fs := by
  have hv := h.dentry d x hx
  have h1 : (fs.copiedIn x ppos data copied).Bounded :=
    h.copiedIn (hv.block (Or.inl hreg)) ppos data copied
  refine wlp_writeFile hx (fun _ => h1) fun _ hi => ?_
  have hlen : ppos + data.length ≤ 4096 := by
    rcases hw with hw | ⟨-, hw⟩
    · exact hw
    · rw [hi] at hw
      cases hw
  have h2 := h1.setDentry (d := d) (hv.resized hlen) fun c hc => h.cached d x c hx hc
  exact wlp_inodeSave h2 d

/-- A call whose write, if it is one, ends inside the block. -/
def Op.EndsInBlock (intr : Site → Bool) : Op → Prop
  | .write _ ppos data _ => Simplefs.EndsInBlock intr ppos data
  | _ => True

/-- **Every call keeps the bounds.** -/
theorem Op.wlp_code {op : Op} (h : fs.Bounded) (ha : op.Allowed fs) (hw : op.EndsInBlock intr) :
    wlp intr op.code (fun _ fs' => fs'.Bounded) fs := by
  cases op with
  | iterate d pos =>
    obtain ⟨x, hx⟩ := ha
    exact wlp_discard (wlp_iterate h hx pos)
  | lookup p name => exact wlp_discard (wlp_lookup h p name)
  | create p name mode => exact wlp_discard (wlp_create h p name mode)
  | mkdir p name mode => exact wlp_discard (wlp_create h p name (0x4000 ||| mode))
  | unlink e => exact wlp_unlink h e
  | read d ppos len userOk =>
    refine wlp_discard fun r fs1 hr => ?_
    rw [readFile_state hr]
    exact h
  | write d ppos data copied =>
    obtain ⟨x, hx, hreg⟩ := ha
    exact wlp_discard (wlp_write h hx hreg hw copied)
  | release d => exact wlp_release h d

end Calls

/-! ## 5. Runs -/

/-- The slots of a device are bounded. -/
def Device.Bounded (dev : Device) : Prop := ∀ i, i < slotsPerBlock → (dev.slot i).Bounded

/-- A mount copies the root's inode. -/
theorem mountedFs_bounded {dev : Device} (h : dev.Bounded) (imap past : BitVec 64) :
    (mountedFs dev imap past).Bounded := by
  refine ⟨h, fun e y hy => ?_, fun e y c hy hc => ?_, fun b hno => absurd rfl hno⟩
  · obtain ⟨-, rfl⟩ := mountedFs_dentries hy
    exact h 0 (by decide)
  · obtain ⟨-, rfl⟩ := mountedFs_dentries hy
    cases hc

/-- The bounds of a system. -/
def Sys.Bounded (s : Sys) : Prop :=
  match s.mnt with
  | .offline dev => dev.Bounded
  | .mounted fs => fs.Bounded

/-- The write, if the event is one, ends inside its block. -/
def Event.EndsInBlock : Event → Prop
  | .call op intr => op.EndsInBlock intr
  | _ => True

/-- One step, interrupted or not, that is no write past its block. -/
def BoundedStep (s s' : Sys) : Prop :=
  ∃ ev : Event, ev.Allowed s ∧ ev.EndsInBlock ∧ ev.apply s = some s'

/-- The states that the runs without a write past a block reach. -/
def BoundedRun : Sys → Sys → Prop := Relation.ReflTransGen BoundedStep

/-- **One step.** -/
theorem BoundedStep.bounded {s s' : Sys} (hstep : BoundedStep s s') (h : s.Bounded) :
    s'.Bounded := by
  obtain ⟨ev, ha, hw, happ⟩ := hstep
  cases Event.leadsTo happ with
  | refused => exact h
  | mount hmap => exact mountedFs_bounded h _ _
  | umount =>
    intro i hi
    rw [h.torn.slot hi]
    exact h.slot i hi
  | @call lk lk' op intr fs fs' hrun =>
    have hend := Prog.wlp_run (Op.wlp_code h (ha op intr fs rfl rfl) hw) hrun
    exact hend

/-- **Every run.** -/
theorem BoundedRun.bounded {s s' : Sys} (hrun : BoundedRun s s') (h : s.Bounded) :
    s'.Bounded := by
  induction hrun with
  | refl => exact h
  | tail _ hstep ih => exact hstep.bounded ih

/-- The uninterrupted runs inside the defined cases are among them. -/
theorem DefinedRun.boundedRun {s s' : Sys} (hrun : DefinedRun s s') : BoundedRun s s' := by
  refine Relation.ReflTransGen.mono (fun a b => ?_) _ _ hrun
  rintro ⟨ev, ha, hd, happ⟩
  refine ⟨ev, ha, ?_, happ⟩
  cases ev with
  | mount past => trivial
  | umount => trivial
  | call op intr =>
    cases op with
    | write d ppos data copied =>
      cases hm : a.mnt with
      | offline dev =>
        obtain ⟨lk, m⟩ := a
        cases hm
        cases happ
      | mounted fs => exact Or.inl (hd _ intr fs rfl hm).2.1
    | _ => trivial

/-- A fresh image is bounded. -/
theorem freshDevice.bounded : freshDevice.Bounded := by
  intro i hi
  rcases Nat.lt_or_ge i 2 with h | h
  · rcases freshDevice.lt_two_cases h with rfl | rfl
    · rw [freshDevice.slot_zero]
      exact ⟨fun hr => absurd hr (by decide), fun _ => by decide⟩
    · rw [freshDevice.slot_one]
      exact ⟨fun _ => by decide +kernel, fun _ => by decide⟩
  · rw [freshDevice.slot_rest h hi]
    exact bounded_zero

end Simplefs
