/-
# What the helpers do, interrupted or not

One equation for each helper of `simple.c` that takes locks: where a call of it goes on, from a
state of the locks in which the helper's own are free, whichever of its acquisitions a signal
interrupts.  The two helpers that are not balanced show it here: `simplefs_sb_get_a_freeblock`
releases a lock it did not get, and `simplefs_inode_add` and `simplefs_inode_del` keep the first
lock when the second one is interrupted.
-/
import Simplefs.Lib.Scan
import Simplefs.Ops

namespace Simplefs

open Prog (step run lock unlock LockState)

/-! ## 1. The helpers -/

variable {α : Type} {intr : Site → Bool} {lk : LockState Lock} {fs : Fs}

/-- Two nested locks, released in the order in which the source releases them. -/
theorem drop_drop_take_take (hm : lk.held .inodesMgmt = false) (hs : lk.held .sb = false) :
    (((lk.take .inodesMgmt).take .sb).drop .sb).drop .inodesMgmt = lk := by
  have hs' : (lk.take .inodesMgmt).held .sb = false := by simp [hs]
  rw [LockState.drop_take _ _ hs', LockState.drop_take _ _ hm]

/-- `simplefs_sb_get_objects_count`. -/
theorem run_getObjectsCount (k : Except Int (BitVec 64) → Code α)
    (hl : lk.held .inodesMgmt = false) :
    run intr (simplefsSbGetObjectsCount >>= k) lk fs =
      run intr (k (if intr .getObjectsCount then .error (-EINTR) else .ok fs.dev.inodesCount))
        lk fs := by
  unfold simplefsSbGetObjectsCount
  simp only [bind_assoc, Prog.run_lock_bind, hl, Bool.false_eq_true, if_false, if_true, pure_bind,
    Prog.run_read_bind, Prog.run_unlock_bind, LockState.drop_take _ _ hl]
  split <;> rfl

/-- `simplefs_sb_get_a_freeblock`: interrupted, it releases a lock it does not hold. -/
theorem run_getAFreeblock (k : Except Int Nat → Code α) (hl : lk.held .sb = false) :
    run intr (simplefsSbGetAFreeblock >>= k) lk fs =
      if intr .getAFreeblock then run intr (k (.error (-EINTR))) (lk.drop .sb) fs
      else match freeBlockScan fs.dev.freeBlocks with
        | none => run intr (k (.error (-ENOSPC))) lk fs
        | some i => run intr (k (.ok i)) lk
            { fs with dev := fs.dev.setFreeBlocks (takeBlock fs.dev.freeBlocks i) } := by
  unfold simplefsSbGetAFreeblock
  simp only [bind_assoc, Prog.run_lock_bind, hl, Bool.false_eq_true, if_false, if_true, pure_bind,
    Prog.run_unlock_bind, Prog.run_stepObs_bind]
  split
  · rfl
  · unfold takeFreeBlock
    cases freeBlockScan fs.dev.freeBlocks with
    | none => simp only [bind_assoc, Prog.run_unlock_bind, pure_bind, LockState.drop_take _ _ hl]
    | some i => simp only [bind_assoc, Prog.run_unlock_bind, pure_bind, LockState.drop_take _ _ hl]

/-- `simplefs_inode_add`: it returns nothing, and keeps a lock when its second acquisition is
interrupted. -/
theorem run_inodeAdd (v : SfsInode) (k : Unit → Code α) (hm : lk.held .inodesMgmt = false)
    (hs : lk.held .sb = false) :
    run intr (simplefsInodeAdd v >>= k) lk fs =
      if intr .addMgmt then run intr (k ()) lk fs
      else if intr .addSb then run intr (k ()) (lk.take .inodesMgmt) fs
      else match addInode v fs with
        | .error e => (.faulted e, (lk.take .inodesMgmt).take .sb)
        | .ok (_, fs') => run intr (k ()) lk fs' := by
  have hs' : (lk.take .inodesMgmt).held .sb = false := by simp [hs]
  unfold simplefsInodeAdd
  simp only [bind_assoc, Prog.run_lock_bind, hm, Bool.false_eq_true, if_false, if_true, pure_bind]
  split
  · rfl
  split
  · rfl
  simp only [hs', Bool.false_eq_true, if_false, Prog.run_stepObs_bind]
  cases addInode v fs with
  | error e => rfl
  | ok r => simp only [Prog.run_unlock_bind, drop_drop_take_take hm hs]

/-- `simplefs_inode_del`, likewise. -/
theorem run_inodeDel (ino : BitVec 64) (k : Unit → Code α) (hm : lk.held .inodesMgmt = false)
    (hs : lk.held .sb = false) :
    run intr (simplefsInodeDel ino >>= k) lk fs =
      if intr .delMgmt then run intr (k ()) lk fs
      else if intr .delSb then run intr (k ()) (lk.take .inodesMgmt) fs
      else match delInode ino fs with
        | .error e => (.faulted e, (lk.take .inodesMgmt).take .sb)
        | .ok (_, fs') => run intr (k ()) lk fs' := by
  have hs' : (lk.take .inodesMgmt).held .sb = false := by simp [hs]
  unfold simplefsInodeDel
  simp only [bind_assoc, Prog.run_lock_bind, hm, Bool.false_eq_true, if_false, if_true, pure_bind]
  split
  · rfl
  split
  · rfl
  simp only [hs', Bool.false_eq_true, if_false, Prog.run_step_bind]
  cases delInode ino fs with
  | error e => rfl
  | ok r => simp only [Prog.run_unlock_bind, drop_drop_take_take hm hs]

/-- `simplefs_inode_save`. -/
theorem run_inodeSave (d : Nat) (k : Int → Code α) (hl : lk.held .sb = false) :
    run intr (simplefsInodeSave d >>= k) lk fs =
      if intr .save then run intr (k (-EINTR)) lk fs
      else match saveInode d fs with
        | .error e => (.faulted e, lk.take .sb)
        | .ok (r, fs') => run intr (k (if r then 0 else - EIO)) lk fs' := by
  unfold simplefsInodeSave
  simp only [bind_assoc, Prog.run_lock_bind, hl, Bool.false_eq_true, if_false, if_true, pure_bind,
    Prog.run_step_bind]
  split
  · rfl
  cases saveInode d fs with
  | error e => rfl
  | ok r =>
    obtain ⟨_ | _, fs'⟩ := r
    · simp only [Bool.false_eq_true, if_false, bind_assoc, Prog.run_unlock_bind, pure_bind,
        LockState.drop_take _ _ hl]
    · simp only [if_true, bind_assoc, Prog.run_unlock_bind, pure_bind, LockState.drop_take _ _ hl]

/-- `simplefs_get_inode`. -/
theorem run_getInode (ino : BitVec 64) (k : Option SfsInode → Code α)
    (hl : lk.held .inodesMgmt = false) :
    run intr (simplefsGetInode ino >>= k) lk fs =
      if intr .getInode then run intr (k none) lk fs
      else match readInode ino fs with
        | .error e => (.faulted e, lk.take .inodesMgmt)
        | .ok (v, fs') => run intr (k (some v)) lk fs' := by
  unfold simplefsGetInode
  simp only [bind_assoc, Prog.run_lock_bind, hl, Bool.false_eq_true, if_false, if_true, pure_bind,
    Prog.run_step_bind]
  split
  · rfl
  cases readInode ino fs with
  | error e => rfl
  | ok r => simp only [Prog.run_unlock_bind, LockState.drop_take _ _ hl]

/-- The first of the 128 slots that has the number. -/
def FirstSlot (slot : Nat → SfsInode) (n : BitVec 64) (i : Nat) : Prop :=
  Scan.FirstAt (fun j => (slot j).inodeNo) n slotsPerBlock i

/-- A number is in the store, or it is not. -/
theorem firstSlot_or_absent (slot : Nat → SfsInode) (n : BitVec 64) :
    (∃ i, FirstSlot slot n i) ∨ ∀ i, i < slotsPerBlock → (slot i).inodeNo ≠ n := by
  by_cases h : ∃ i, i < slotsPerBlock ∧ (slot i).inodeNo = n
  · exact Or.inl (Scan.exists_firstAt h)
  · exact Or.inr fun i hi hn => h ⟨i, hi, hn⟩

section

variable {slot : Nat → SfsInode} {past n : BitVec 64} {i : Nat}

/-- The search of `simplefs_inode_save` stops at the first slot with the number. -/
theorem FirstSlot.search (h : FirstSlot slot n i) : simplefsInodeSearch slot past n = some i := by
  have hfind : (List.range slotsPerBlock).find? (fun j => (slot j).inodeNo == n) = some i := by
    rw [List.find?_range_eq_some]
    simpa [h.hit] using ⟨h.lt, h.before⟩
  rw [simplefsInodeSearch, hfind]

/-- Without one, it looks at the word past the store. -/
theorem simplefsInodeSearch_absent (h : ∀ j, j < slotsPerBlock → (slot j).inodeNo ≠ n) :
    simplefsInodeSearch slot past n = if past = n then some slotsPerBlock else none := by
  have hfind : (List.range slotsPerBlock).find? (fun j => (slot j).inodeNo == n) = none :=
    List.find?_eq_none.mpr fun j hj => by simpa using h j (List.mem_range.mp hj)
  rw [simplefsInodeSearch, hfind]

end

/-- **Saving an inode that is in the store** overwrites the first slot with its number. -/
theorem saveInode_found {d i : Nat} {x : Dentry} (hx : fs.dentries d = some x)
    (h : FirstSlot fs.dev.slot x.inode.inodeNo i) :
    saveInode d fs = .ok (true, { fs with dev := fs.dev.setSlot i x.inode }) := by
  simp only [saveInode, Fs.dentry_of_eq hx, bind, Except.bind, h.search, if_pos h.lt, pure,
    Except.pure]

/-- **Saving one that is not** finds nothing, or what is behind the store. -/
theorem saveInode_absent {d : Nat} {x : Dentry} (hx : fs.dentries d = some x)
    (h : ∀ j, j < slotsPerBlock → (fs.dev.slot j).inodeNo ≠ x.inode.inodeNo) :
    saveInode d fs =
      if fs.past = x.inode.inodeNo then .error .outOfBlock else .ok (false, fs) := by
  by_cases hpast : fs.past = x.inode.inodeNo
  · have hsearch := (simplefsInodeSearch_absent h).trans (if_pos hpast)
    simp only [saveInode, Fs.dentry_of_eq hx, bind, Except.bind, hsearch, if_pos hpast,
      if_neg (Nat.lt_irrefl slotsPerBlock)]
  · have hsearch := (simplefsInodeSearch_absent h).trans (if_neg hpast)
    simp only [saveInode, Fs.dentry_of_eq hx, bind, Except.bind, hsearch, if_neg hpast, pure,
      Except.pure]

/-- What saving an inode did, if it did not run into the memory past the store. -/
theorem saveInode_ok {d : Nat} {r : Bool} {fs' : Fs} (h : saveInode d fs = .ok (r, fs')) :
    ∃ x, fs.dentries d = some x ∧ (r = false ∧ fs' = fs ∨
      r = true ∧ ∃ i, i < slotsPerBlock ∧ (fs.dev.slot i).inodeNo = x.inode.inodeNo ∧
        fs' = { fs with dev := fs.dev.setSlot i x.inode }) := by
  obtain ⟨x, hx, -⟩ := Fs.of_bind_dentry h
  refine ⟨x, hx, ?_⟩
  rcases firstSlot_or_absent fs.dev.slot x.inode.inodeNo with ⟨i, hi⟩ | habsent
  · rw [saveInode_found hx hi] at h
    cases h
    exact Or.inr ⟨rfl, i, hi.lt, hi.hit, rfl⟩
  · rw [saveInode_absent hx habsent] at h
    split at h
    · cases h
    · cases h
      exact Or.inl ⟨rfl, rfl⟩

theorem saveInode_dentries {d : Nat} {r : Bool} {fs' : Fs} (h : saveInode d fs = .ok (r, fs')) :
    fs'.dentries = fs.dentries := by
  obtain ⟨x, -, ⟨-, rfl⟩ | ⟨-, i, -, -, rfl⟩⟩ := saveInode_ok h
  · rfl
  · rfl

/-- Saving an inode touches nothing outside the inode store. -/
theorem byte_saveInode {d : Nat} {r : Bool} {fs' : Fs} (h : saveInode d fs = .ok (r, fs'))
    {b off : Nat} (hb : b ≠ 1) (hoff : off < 4096) : fs'.dev.byte b off = fs.dev.byte b off := by
  obtain ⟨x, -, ⟨-, rfl⟩ | ⟨-, i, hi, -, rfl⟩⟩ := saveInode_ok h
  · rfl
  · have hi' : i < 128 := hi
    exact Device.byte_congr (Device.agreeOff_setSlot _ i _) (by omega)

/-- The bytes `copy_from_user` leaves in the buffer. -/
def copiedBytes (data : List UInt8) (copied : Nat) : List UInt8 :=
  data.take copied ++ List.replicate (data.length - copied) 0

theorem length_copiedBytes (data : List UInt8) (copied : Nat) :
    (copiedBytes data copied).length = data.length := by
  simp only [copiedBytes, List.length_append, List.length_take, List.length_replicate]
  omega

/-- A copy that comes to its end. -/
theorem copiedBytes_of_le {data : List UInt8} {copied : Nat} (h : data.length ≤ copied) :
    copiedBytes data copied = data := by
  rw [copiedBytes, List.take_of_length_le h, Nat.sub_eq_zero_of_le h, List.replicate_zero,
    List.append_nil]

/-- The write stays inside the block; an empty one does, wherever it is. -/
def Fits (ppos : Nat) (data : List UInt8) : Prop := data.length = 0 ∨ ppos + data.length ≤ 4096

instance (ppos : Nat) (data : List UInt8) : Decidable (Fits ppos data) :=
  inferInstanceAs (Decidable (_ ∨ _))

/-- The state once the data is copied. -/
def Fs.copiedIn (fs : Fs) (x : Dentry) (ppos : Nat) (data : List UInt8) (copied : Nat) : Fs :=
  { fs with
    dev := fs.dev.putData x.inode.block ppos (copiedBytes data copied)
    torn := fs.tear x.inode.block (decide (data.length ≤ copied)) }

/-- A dentry whose inode has another size. -/
def Dentry.resized (x : Dentry) (size : Nat) : Dentry :=
  { x with inode := { x.inode with fileSize := BitVec.ofNat 64 size } }

theorem copyFromUser_eq {d ppos : Nat} {data : List UInt8} {copied : Nat} {x : Dentry}
    (hx : fs.dentries d = some x) : copyFromUser d ppos data copied fs =
      if Fits ppos data then
        .ok (decide (data.length ≤ copied), fs.copiedIn x ppos data copied)
      else .error .outOfBlock := by
  by_cases hfit : Fits ppos data
  · have hfit' : data.length = 0 ∨ ppos + data.length ≤ 4096 := hfit
    simp only [copyFromUser, Fs.dentry_of_eq hx, bind, Except.bind, pure, Except.pure,
      if_pos hfit, if_pos hfit', Fs.copiedIn, copiedBytes]
  · have hfit' : ¬ (data.length = 0 ∨ ppos + data.length ≤ 4096) := hfit
    simp only [copyFromUser, Fs.dentry_of_eq hx, bind, Except.bind, if_neg hfit, if_neg hfit']

theorem setFileSize_eq {d size : Nat} {x : Dentry} (hx : fs.dentries d = some x) :
    setFileSize d size fs = .ok ((), fs.setDentry d (x.resized size)) := by
  simp only [setFileSize, Fs.dentry_of_eq hx, bind, Except.bind, pure, Except.pure,
    Dentry.resized]

/-- **`simplefs_write`**, whichever of its two acquisitions is interrupted: the data goes first,
then the size in memory, then the slot. -/
theorem run_write {d ppos : Nat} {data : List UInt8} {copied : Nat} {x : Dentry}
    (k : Int × Nat → Code α) (hx : fs.dentries d = some x) (hm : lk.held .inodesMgmt = false)
    (hs : lk.held .sb = false) :
    run intr (simplefsWrite d ppos data copied >>= k) lk fs =
      if Fits ppos data then
        let fs1 := fs.copiedIn x ppos data copied
        let fs2 := fs1.setDentry d (x.resized (ppos + data.length))
        if copied < data.length then run intr (k (-EFAULT, ppos)) lk fs1
        else if intr .write then run intr (k (-EINTR, ppos + data.length)) lk fs1
        else if intr .save then run intr (k (-EINTR, ppos + data.length)) lk fs2
        else match saveInode d fs2 with
          | .error e => (.faulted e, (lk.take .inodesMgmt).take .sb)
          | .ok (found, fs3) =>
            run intr (k (if found then data.length else - EIO, ppos + data.length)) lk fs3
      else (.faulted .outOfBlock, lk) := by
  have hs' : (lk.take .inodesMgmt).held .sb = false := by simp [hs]
  unfold simplefsWrite
  simp only [bind_assoc, Prog.run_step_bind, copyFromUser_eq hx]
  by_cases hfit : Fits ppos data
  swap
  · simp only [if_neg hfit]
  simp only [if_pos hfit]
  by_cases hlt : copied < data.length
  · simp only [decide_eq_true_eq, if_neg (Nat.not_le.mpr hlt), if_pos hlt, pure_bind]
  have hx1 : (fs.copiedIn x ppos data copied).dentries d = some x := hx
  simp only [decide_eq_true_eq, if_pos (Nat.not_lt.mp hlt), if_neg hlt, bind_assoc,
    Prog.run_lock_bind, hm, Bool.false_eq_true, if_false, if_true, pure_bind,
    Prog.run_step_bind, setFileSize_eq hx1, run_inodeSave _ _ hs', Prog.run_unlock_bind,
    LockState.drop_take _ _ hm]
  split
  · rfl
  split
  · rw [if_neg (by decide)]
  cases saveInode d ((fs.copiedIn x ppos data copied).setDentry d
      (x.resized (ppos + data.length))) with
  | error e => rfl
  | ok r =>
    obtain ⟨_ | _, fs3⟩ := r
    · simp only [Bool.false_eq_true, if_false, if_neg (show - EIO ≠ 0 by decide)]
    · simp only [if_true]

/-! ## 3. A create, up to its block -/

/-- `simplefs_create_fs_object` is not refused before it asks for a block. -/
def Fs.CreateStarts (fs : Fs) (mode : BitVec 16) (intr : Site → Bool) : Prop :=
  intr .createChildren = false ∧ intr .getObjectsCount = false ∧
    fs.dev.inodesCount.toNat < maxObjects ∧
    (isDir (mode.setWidth 32) = true ∨ isReg (mode.setWidth 32) = true)

instance (fs : Fs) (mode : BitVec 16) (intr : Site → Bool) :
    Decidable (fs.CreateStarts mode intr) := inferInstanceAs (Decidable (_ ∧ _))

/-- The inode a create makes. -/
def newInode (mode : BitVec 16) (ino blk : Nat) : SfsInode :=
  ⟨mode.setWidth 32, BitVec.ofNat 64 ino, BitVec.ofNat 64 blk, 0⟩

theorem block_newInode (mode : BitVec 16) (n : Nat) {b : Nat} (hb : b < 64) :
    (newInode mode n b).block = b := by
  simp only [newInode, SfsInode.block, BitVec.toNat_ofNat]
  omega

/-- The state once block `b` is taken. -/
def Fs.taken (fs : Fs) (b : Nat) : Fs :=
  { fs with dev := fs.dev.setFreeBlocks (takeBlock fs.dev.freeBlocks b) }

/-- What is left of a create once its inode has been handed to `simplefs_inode_add`. -/
def createTail (p : Nat) (name : Name) (v : SfsInode) : Code Int := do
  step (addRecord p name v.inodeNo)
  if ← lock .createMgmt .inodesMgmt then
    unlock .childrenUpdate
    return -EINTR
  step (countChild p)
  let ret ← simplefsInodeSave p
  if ret ≠ 0 then
    unlock .inodesMgmt
    unlock .childrenUpdate
    return ret
  unlock .inodesMgmt
  unlock .childrenUpdate
  step (attach p name v)
  return 0

variable {p : Nat} {x : Dentry} {c : DirCache} {name : Name} {mode : BitVec 16}

theorem bugOnNoCache_eq (hx : fs.dentries p = some x) (hc : x.fsdata = some c) :
    bugOnNoCache p fs = .ok ((), fs) := by
  simp only [bugOnNoCache, Fs.dentry_of_eq hx, bind, Except.bind, hc, Option.isSome_some, if_true,
    pure, Except.pure]

theorem bugOnNoCache_state {u : Unit} {fs' : Fs} (h : bugOnNoCache p fs = .ok (u, fs')) :
    fs = fs' := by
  obtain ⟨x, -, h⟩ := Fs.of_bind_dentry h
  split at h <;> cases h
  rfl

theorem pickInodeNumber_ok {k : Nat} {fs' : Fs} (h : pickInodeNumber fs = .ok (k, fs')) :
    ffz fs.imap = some k ∧ fs = fs' := by
  unfold pickInodeNumber at h
  split at h
  · rename_i hk
    cases h
    exact ⟨hk, rfl⟩
  · cases h

/-- The number that a lookup goes on with is in the cache. -/
theorem lookupEntry_ok {r : Option (BitVec 64)} {fs' : Fs}
    (h : lookupEntry p name fs = .ok (r, fs')) : fs = fs' ∧ ∃ x c, fs.dentries p = some x ∧
      x.fsdata = some c ∧ r = (usedCacheEntryGet c name).map fun e => e.record.inodeNo := by
  obtain ⟨x, hx, h⟩ := Fs.of_bind_dentry h
  split at h
  · cases h
  · rename_i c hc
    cases h
    exact ⟨rfl, x, c, hx, hc, rfl⟩

/-- A create that is refused leaves everything as it was. -/
theorem run_create_refused (k : Int → Code α) (hx : fs.dentries p = some x)
    (hc : x.fsdata = some c) (hl : ∀ l, lk.held l = false) (hno : ¬ fs.CreateStarts mode intr) :
    ∃ err, err ≠ 0 ∧
      run intr (simplefsCreateFsObject p name mode >>= k) lk fs = run intr (k err) lk fs := by
  have hm : (lk.take .childrenUpdate).held .inodesMgmt = false := by simp [hl]
  unfold simplefsCreateFsObject
  simp only [bind_assoc, Prog.run_step_bind, bugOnNoCache_eq hx hc, Prog.run_lock_bind, hl,
    Bool.false_eq_true, if_false, if_true, pure_bind]
  split
  · exact ⟨-EINTR, by decide, rfl⟩
  rename_i hchildren
  rw [run_getObjectsCount _ hm]
  by_cases hcount : intr .getObjectsCount = true
  · rw [if_pos hcount]
    simp only [bind_assoc, Prog.run_unlock_bind, pure_bind, LockState.drop_take _ _ (hl _)]
    exact ⟨-EINTR, by decide, rfl⟩
  rw [if_neg hcount]
  by_cases hfull : maxObjects ≤ fs.dev.inodesCount.toNat
  · simp only [if_pos hfull, bind_assoc, Prog.run_unlock_bind, pure_bind,
      LockState.drop_take _ _ (hl _)]
    exact ⟨-ENOSPC, by decide, rfl⟩
  by_cases hmode : (!isDir (mode.setWidth 32) && !isReg (mode.setWidth 32)) = true
  · simp only [if_neg hfull, if_pos hmode, bind_assoc, Prog.run_unlock_bind, pure_bind,
      LockState.drop_take _ _ (hl _)]
    exact ⟨-EINVAL, by decide, rfl⟩
  · refine absurd ⟨by simpa using hchildren, by simpa using hcount, by omega, ?_⟩ hno
    cases hd : isDir (mode.setWidth 32) with
    | true => exact Or.inl rfl
    | false =>
      rw [hd] at hmode
      exact Or.inr (by simpa using hmode)

/-- One that starts goes on to its block, or fails to get one. -/
theorem run_create_started (k : Int → Code α) (hx : fs.dentries p = some x)
    (hc : x.fsdata = some c) (hl : ∀ l, lk.held l = false) (hst : fs.CreateStarts mode intr) :
    run intr (simplefsCreateFsObject p name mode >>= k) lk fs =
      match ffz fs.imap with
      | none => (.faulted .outOfImap, lk.take .childrenUpdate)
      | some ino =>
        if intr .getAFreeblock then
          run intr (k (-EINTR)) (((lk.take .childrenUpdate).drop .sb).drop .childrenUpdate) fs
        else match freeBlockScan fs.dev.freeBlocks with
          | none => run intr (k (-ENOSPC)) lk fs
          | some b =>
            run intr (do
              simplefsInodeAdd (newInode mode ino b)
              let r ← createTail p name (newInode mode ino b)
              k r) (lk.take .childrenUpdate) (fs.taken b) := by
  obtain ⟨h1, h2, h3, h4⟩ := hst
  have hm : (lk.take .childrenUpdate).held .inodesMgmt = false := by simp [hl]
  have hs : (lk.take .childrenUpdate).held .sb = false := by simp [hl]
  have hfull : ¬ maxObjects ≤ fs.dev.inodesCount.toNat := by omega
  have hmode : ¬ (!isDir (mode.setWidth 32) && !isReg (mode.setWidth 32)) = true := by
    rcases h4 with h4 | h4 <;> simp [h4]
  unfold simplefsCreateFsObject
  simp only [bind_assoc, Prog.run_step_bind, bugOnNoCache_eq hx hc, Prog.run_lock_bind, hl, h1,
    Bool.false_eq_true, if_false]
  rw [run_getObjectsCount _ hm, h2]
  simp only [Bool.false_eq_true, if_false, if_neg hfull, if_neg hmode, bind_assoc,
    Prog.run_stepObs_bind, pickInodeNumber]
  cases ffz fs.imap with
  | none => rfl
  | some ino =>
    simp only [run_getAFreeblock _ hs]
    split
    · simp only [bind_assoc, Prog.run_unlock_bind, pure_bind]
    cases freeBlockScan fs.dev.freeBlocks with
    | none =>
      simp only [bind_assoc, Prog.run_unlock_bind, pure_bind, LockState.drop_take _ _ (hl _)]
    | some b => simp only [createTail, newInode, Fs.taken, bind_assoc]

/-! ## 4. A create, from its block on -/

/-- The cache of `p` has a free entry, and the record it stands for holds the name. -/
def Fs.HasRoomFor (fs : Fs) (p : Nat) (name : Name) : Prop :=
  ∃ x c e, fs.dentries p = some x ∧ x.fsdata = some c ∧ freeCacheEntryGet c = some e ∧
    e.entryNo < recordsPerBlock ∧ 264 * e.entryNo + name.bytes.length + 1 ≤ 4096

/-- The state once the record of entry `e` is written and the entry moved. -/
def Fs.recorded (fs : Fs) (p : Nat) (x : Dentry) (c : DirCache) (e : CacheEntry) (name : Name)
    (ino : BitVec 64) : Fs :=
  { fs with dev := fs.dev.putRecord x.inode.block e.entryNo ino name.bytes }.setDentry p
    { x with fsdata := some ⟨c.dirChildrenCount, cacheEntryInsert c.used
      ⟨(fs.dev.putRecord x.inode.block e.entryNo ino name.bytes).record x.inode.block e.entryNo,
        e.entryNo⟩, listDel e c.free⟩ }

variable {ino : BitVec 64} {e : CacheEntry}

theorem addRecord_eq (hx : fs.dentries p = some x) (hc : x.fsdata = some c)
    (he : freeCacheEntryGet c = some e)
    (hlt : e.entryNo < recordsPerBlock ∧ 264 * e.entryNo + name.bytes.length + 1 ≤ 4096) :
    addRecord p name ino fs = .ok ((), fs.recorded p x c e name ino) := by
  simp only [addRecord, Fs.dentry_of_eq hx, bind, Except.bind, hc, he, if_pos hlt, pure,
    Except.pure, Fs.recorded]

theorem addRecord_ok {fs' : Fs} {u : Unit} (h : addRecord p name ino fs = .ok (u, fs')) :
    ∃ x c e, fs.dentries p = some x ∧ x.fsdata = some c ∧ freeCacheEntryGet c = some e ∧
      (e.entryNo < recordsPerBlock ∧ 264 * e.entryNo + name.bytes.length + 1 ≤ 4096) ∧
      fs' = fs.recorded p x c e name ino := by
  obtain ⟨x, hx, h'⟩ := Fs.of_bind_dentry h
  cases hc : x.fsdata with
  | none =>
    rw [hc] at h'
    cases h'
  | some c =>
    cases he : freeCacheEntryGet c with
    | none =>
      simp only [hc, he] at h'
      cases h'
    | some e =>
      simp only [hc, he] at h'
      split at h'
      · rename_i hlt
        rw [addRecord_eq hx hc he hlt] at h
        cases h
        exact ⟨x, c, e, hx, hc, he, hlt, rfl⟩
      · cases h'

/-- The record is written when there is room for it, and only then. -/
theorem addRecord_ok_iff : (∃ fs', addRecord p name ino fs = .ok ((), fs')) ↔
    fs.HasRoomFor p name := by
  constructor
  · rintro ⟨fs', h⟩
    obtain ⟨x, c, e, hx, hc, he, hlt, -⟩ := addRecord_ok h
    exact ⟨x, c, e, hx, hc, he, hlt⟩
  · rintro ⟨x, c, e, hx, hc, he, hlt⟩
    exact ⟨_, addRecord_eq hx hc he hlt⟩

variable {v : SfsInode}

/-- The record, the count and the parent's slot, when the tail finds its lock free. -/
theorem run_createTail (k : Int → Code α) (hm : lk.held .inodesMgmt = false)
    (hs : lk.held .sb = false) : run intr (createTail p name v >>= k) lk fs =
      match addRecord p name v.inodeNo fs with
      | .error e => (.faulted e, lk)
      | .ok (_, fs1) =>
        if intr .createMgmt then run intr (k (-EINTR)) (lk.drop .childrenUpdate) fs1
        else match countChild p fs1 with
          | .error e => (.faulted e, lk.take .inodesMgmt)
          | .ok (_, fs2) =>
            if intr .save then run intr (k (-EINTR)) (lk.drop .childrenUpdate) fs2
            else match saveInode p fs2 with
              | .error e => (.faulted e, (lk.take .inodesMgmt).take .sb)
              | .ok (r, fs3) =>
                if r then run intr (k 0) (lk.drop .childrenUpdate) (fs3.dAdd p name v)
                else run intr (k (- EIO)) (lk.drop .childrenUpdate) fs3 := by
  have hs' : (lk.take .inodesMgmt).held .sb = false := by simp [hs]
  unfold createTail
  simp only [bind_assoc, Prog.run_step_bind, Prog.run_lock_bind, hm, Bool.false_eq_true, if_false]
  cases addRecord p name v.inodeNo fs with
  | error e => rfl
  | ok r1 =>
    simp only
    split
    · simp only [if_true, bind_assoc, Prog.run_unlock_bind, pure_bind]
    cases countChild p r1.2 with
    | error e => rfl
    | ok r2 =>
      simp only [run_inodeSave _ _ hs']
      split
      · simp only [show -EINTR ≠ 0 by decide, ne_eq, not_false_eq_true, if_true, bind_assoc,
          Prog.run_unlock_bind, pure_bind, LockState.drop_take _ _ hm]
      cases saveInode p r2.2 with
      | error e => rfl
      | ok r3 =>
        obtain ⟨_ | _, fs3⟩ := r3
        · simp only [Bool.false_eq_true, if_false, show - EIO ≠ 0 by decide, ne_eq,
            not_false_eq_true, if_true, bind_assoc, Prog.run_unlock_bind, pure_bind,
            LockState.drop_take _ _ hm]
        · simp only [if_true, ne_eq, not_true_eq_false, if_false, bind_assoc,
            Prog.run_unlock_bind, pure_bind, LockState.drop_take _ _ hm, Prog.run_step_bind, attach]

/-- When `simplefs_inode_add` has kept it, the tail waits for itself, unless it is interrupted. -/
theorem run_createTail_held (k : Int → Code α) (hm : lk.held .inodesMgmt = true) :
    run intr (createTail p name v >>= k) lk fs =
      match addRecord p name v.inodeNo fs with
      | .error e => (.faulted e, lk)
      | .ok (_, fs1) =>
        if intr .createMgmt then run intr (k (-EINTR)) (lk.drop .childrenUpdate) fs1
        else (.blocked .inodesMgmt, lk) := by
  unfold createTail
  simp only [bind_assoc, Prog.run_step_bind, Prog.run_lock_bind, hm, if_true]
  cases addRecord p name v.inodeNo fs with
  | error e => rfl
  | ok r1 =>
    simp only
    split
    · simp only [Prog.run_unlock_bind, pure_bind]
    · rfl

/-! ## 5. An unlink -/

/-- The cache of the parent of dentry `e` has the entry of its name. -/
def Fs.HasEntryOf (fs : Fs) (e : Nat) (y x : Dentry) (c : DirCache) (entry : CacheEntry) : Prop :=
  fs.dentries e = some y ∧ fs.dentries y.parent = some x ∧ x.fsdata = some c ∧
    usedCacheEntryGet c y.name = some entry ∧ entry.entryNo < recordsPerBlock

/-- The parent's dentry once the record of `entry` is gone. -/
def Dentry.without (x : Dentry) (c : DirCache) (entry : CacheEntry) : Dentry :=
  { x with
    fsdata := some ⟨c.dirChildrenCount - 1, listDel entry c.used, entry :: c.free⟩
    inode := { x.inode with fileSize := x.inode.fileSize - 1 } }

/-- The state once the record of `entry` is gone. -/
def Fs.unrecorded (fs : Fs) (p : Nat) (x : Dentry) (c : DirCache) (entry : CacheEntry) : Fs :=
  { fs with dev := fs.dev.clearRecord x.inode.block entry.entryNo }.setDentry p (x.without c entry)

variable {d : Nat} {y : Dentry} {entry : CacheEntry}

theorem removeRecord_eq (h : fs.HasEntryOf d y x c entry) : removeRecord d fs =
    .ok ((y.parent, y.inode.inodeNo), fs.unrecorded y.parent x c entry) := by
  obtain ⟨hy, hx, hc, he, hlt⟩ := h
  simp only [removeRecord, Fs.dentry_of_eq hy, Fs.dentry_of_eq hx, bind, Except.bind, hc, he,
    if_pos hlt, pure, Except.pure, Fs.unrecorded, Dentry.without]

theorem removeRecord_ok {fs' : Fs} {r : Nat × BitVec 64} (h : removeRecord d fs = .ok (r, fs')) :
    ∃ y x c entry, fs.HasEntryOf d y x c entry ∧ r = (y.parent, y.inode.inodeNo) ∧
      fs' = fs.unrecorded y.parent x c entry := by
  obtain ⟨y, hy, h'⟩ := Fs.of_bind_dentry h
  obtain ⟨x, hx, h'⟩ := Fs.of_bind_dentry h'
  cases hc : x.fsdata with
  | none =>
    rw [hc] at h'
    cases h'
  | some c =>
    cases he : usedCacheEntryGet c y.name with
    | none =>
      simp only [hc, he] at h'
      cases h'
    | some entry =>
      simp only [hc, he] at h'
      split at h'
      · rename_i hlt
        have hent : fs.HasEntryOf d y x c entry := ⟨hy, hx, hc, he, hlt⟩
        rw [removeRecord_eq hent] at h
        cases h
        exact ⟨y, x, c, entry, hent, rfl, rfl⟩
      · cases h'

/-- `simplefs_unlink`, up to `simplefs_inode_del`, whatever is interrupted: what
`simplefs_inode_save` returns makes no difference. -/
theorem run_unlink (k : Int → Code α) (hs : lk.held .sb = false) :
    run intr (simplefsUnlink d >>= k) lk fs =
      match removeRecord d fs with
      | .error err => (.faulted err, lk)
      | .ok (r, fs1) =>
        match if intr .save then .ok (false, fs1) else saveInode r.1 fs1 with
        | .error err => (.faulted err, lk.take .sb)
        | .ok (_, fs2) => run intr (simplefsInodeDel r.2 >>= fun _ => k 0) lk fs2 := by
  unfold simplefsUnlink
  simp only [bind_assoc, Prog.run_step_bind]
  cases removeRecord d fs with
  | error err => rfl
  | ok r =>
    simp only [run_inodeSave _ _ hs, pure_bind]
    cases h1 : intr .save with
    | true => simp only [if_true]
    | false => simp only [Bool.false_eq_true, if_false]

end Simplefs
