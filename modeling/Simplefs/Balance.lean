/-
# Which interruptions upset the locks

Three helpers leave the locks in disorder when a signal arrives at the wrong moment:
`simplefs_inode_add` and `simplefs_inode_del` keep `simplefs_inodes_mgmt_lock` when their second
acquisition is interrupted, and `simplefs_sb_get_a_freeblock` releases `simplefs_sb_lock` when it
did not get it.  Every other routine puts the locks back, whatever is interrupted, and a create
or an unlink does so exactly when it does not run into one of the three.

This is so in every state of the memory, also where a name is copied over the end of its block or
a slot behind the inode store is written.  Such code goes on, and what it leaves may be anything.
-/
import Simplefs.Runs

namespace Simplefs

open Prog (run step lock unlock Balanced balanced_pure balanced_step balanced_stepObs
  balanced_read balanced_lock balanced_unlock balanced_step_of_forall
  not_balanced_step_of_forall update_release)

/-- A `BUG_ON`, and a pointer that leads nowhere, end the thread; an access outside of a buffer
does not. -/
def Fault.stops : Fault → Bool
  | .bugOn | .nullCache | .nullEntry | .noDentry => true
  | .emptyFreeList | .outOfBlock | .outOfImap => false

/-! ## 1. The routines -/
/-- The operations of the filesystem and the helpers that take locks. -/
inductive Routine where
  | call (op : Op)
  | inodeAdd (v : SfsInode)
  | inodeDel (ino : BitVec 64)
  | getAFreeblock
  | getObjectsCount
  | getInode (ino : BitVec 64)
  | inodeSave (d : Nat)

namespace Routine

/-- The program of a routine. -/
def code : Routine → Code Unit
  | .call op => op.code
  | .inodeAdd v => simplefsInodeAdd v
  | .inodeDel ino => simplefsInodeDel ino
  | .getAFreeblock => do discard simplefsSbGetAFreeblock
  | .getObjectsCount => do discard simplefsSbGetObjectsCount
  | .getInode ino => do discard (simplefsGetInode ino)
  | .inodeSave d => do discard (simplefsInodeSave d)

/-- The locks of a routine's own. -/
def locks : Routine → List Lock
  | .call (.create _ _ _) | .call (.mkdir _ _ _) => [.childrenUpdate, .inodesMgmt, .sb]
  | .call (.unlink _) | .call (.write _ _ _ _) => [.inodesMgmt, .sb]
  | .call (.lookup _ _) => [.inodesMgmt]
  | .call _ => []
  | .inodeAdd _ | .inodeDel _ => [.inodesMgmt, .sb]
  | .getAFreeblock | .inodeSave _ => [.sb]
  | .getObjectsCount | .getInode _ => [.inodesMgmt]

end Routine

/-! ## 2. What upsets them -/

/-- A create asks for a block while a signal arrives, or gets one and is interrupted halfway
through `simplefs_inode_add`.  Without a zero bit in `imap`, `ffz` is undefined. -/
def Fs.CreateUpsets (fs : Fs) (p : Nat) (mode : BitVec 16) (intr : Site → Bool) : Prop :=
  fs.CacheBuilt p ∧ fs.CreateStarts mode intr ∧
    (intr .getAFreeblock = true ∨
      (freeBlockScan fs.dev.freeBlocks ≠ none ∨ ffz fs.imap = none) ∧
        intr .addMgmt = false ∧ intr .addSb = true)

/-- An unlink finds its entry in the parent's cache.  From there it gets to `simplefs_inode_del`. -/
def Fs.UnlinkGoesOn (fs : Fs) (e : Nat) : Prop :=
  ∃ y x c, fs.dentries e = some y ∧ fs.dentries y.parent = some x ∧ x.fsdata = some c ∧
    usedCacheEntryGet c y.name ≠ none

/-- The interruptions that leave the locks in disorder. -/
def Routine.Upsets (fs : Fs) (intr : Site → Bool) : Routine → Prop
  | .inodeAdd _ => intr .addMgmt = false ∧ intr .addSb = true
  | .inodeDel _ => intr .delMgmt = false ∧ intr .delSb = true
  | .getAFreeblock => intr .getAFreeblock = true
  | .call (.create p _ mode) => fs.CreateUpsets p mode intr
  | .call (.mkdir p _ mode) => fs.CreateUpsets p (0x4000 ||| mode) intr
  | .call (.unlink e) => fs.UnlinkGoesOn e ∧ intr .delMgmt = false ∧ intr .delSb = true
  | _ => False

/-! ## 3. The helpers -/

section Helpers

variable {α : Type} {intr : Site → Bool} {home held : Lock → Bool} {fs : Fs}

/-- To keep a lock is not to put it back. -/
theorem update_ne {l : Lock} (h : held l = false) : Function.update held l true ≠ held := by
  intro heq
  have := congrFun heq l
  rw [Function.update_self, h] at this
  cases this

theorem balanced_inodeAdd_bind (v : SfsInode) {k : Unit → Code α}
    (hm : held .inodesMgmt = false) (hs : held .sb = false) :
    Balanced intr Fault.stops home (simplefsInodeAdd v >>= k) held fs ↔
      if intr .addMgmt then Balanced intr Fault.stops home (k ()) held fs
      else if intr .addSb then
        Balanced intr Fault.stops home (k ()) (Function.update held .inodesMgmt true) fs
      else match addInode v fs with
        | .error e => e.stops = false → ∀ _ : Unit, ∀ fs',
            Balanced intr Fault.stops home (k ()) held fs'
        | .ok (_, fs') => Balanced intr Fault.stops home (k ()) held fs' := by
  unfold simplefsInodeAdd
  simp only [bind_assoc, balanced_lock, hm, true_and, Bool.false_eq_true, if_false, if_true,
    pure_bind, update_mgmt_sb hs, balanced_stepObs, balanced_unlock, update_release hm,
    Function.update_self, update_release (update_mgmt_sb hs)]
  cases addInode v fs <;> rfl

theorem balanced_inodeDel_bind (ino : BitVec 64) {k : Unit → Code α}
    (hm : held .inodesMgmt = false) (hs : held .sb = false) :
    Balanced intr Fault.stops home (simplefsInodeDel ino >>= k) held fs ↔
      if intr .delMgmt then Balanced intr Fault.stops home (k ()) held fs
      else if intr .delSb then
        Balanced intr Fault.stops home (k ()) (Function.update held .inodesMgmt true) fs
      else match delInode ino fs with
        | .error e => e.stops = false → ∀ _ : Unit, ∀ fs',
            Balanced intr Fault.stops home (k ()) held fs'
        | .ok (_, fs') => Balanced intr Fault.stops home (k ()) held fs' := by
  unfold simplefsInodeDel
  simp only [bind_assoc, balanced_lock, hm, true_and, Bool.false_eq_true, if_false, if_true,
    pure_bind, update_mgmt_sb hs, balanced_step, balanced_unlock, update_release hm,
    Function.update_self, update_release (update_mgmt_sb hs)]
  cases delInode ino fs <;> rfl

theorem balanced_getAFreeblock_bind {k : Except Int Nat → Code α} (hs : held .sb = false) :
    Balanced intr Fault.stops home (simplefsSbGetAFreeblock >>= k) held fs ↔
      intr .getAFreeblock = false ∧
        match freeBlockScan fs.dev.freeBlocks with
        | none => Balanced intr Fault.stops home (k (.error (-ENOSPC))) held fs
        | some i => Balanced intr Fault.stops home (k (.ok i)) held (fs.taken i) := by
  unfold simplefsSbGetAFreeblock
  rw [bind_assoc, balanced_lock]
  cases intr .getAFreeblock with
  | true => simp only [if_true, bind_assoc, balanced_unlock, hs, Bool.false_eq_true, false_and,
      Bool.true_eq_false]
  | false =>
    simp only [Bool.false_eq_true, if_false, hs, true_and, bind_assoc, balanced_stepObs,
      takeFreeBlock]
    cases freeBlockScan fs.dev.freeBlocks with
    | none => simp only [bind_assoc, balanced_unlock, Function.update_self, true_and, pure_bind,
        update_release hs]
    | some i => simp only [bind_assoc, balanced_unlock, Function.update_self, true_and, pure_bind,
        update_release hs, Fs.taken]

theorem balanced_getObjectsCount_bind {k : Except Int (BitVec 64) → Code α}
    (hm : held .inodesMgmt = false) :
    Balanced intr Fault.stops home (simplefsSbGetObjectsCount >>= k) held fs ↔
      Balanced intr Fault.stops home
        (k (if intr .getObjectsCount then .error (-EINTR) else .ok fs.dev.inodesCount)) held
        fs := by
  unfold simplefsSbGetObjectsCount
  rw [bind_assoc, balanced_lock]
  cases intr .getObjectsCount with
  | true => simp only [if_true, pure_bind]
  | false => simp only [Bool.false_eq_true, if_false, hm, true_and, bind_assoc, balanced_read,
      balanced_unlock, Function.update_self, pure_bind, update_release hm]

theorem balanced_getInode_bind (ino : BitVec 64) {k : Option SfsInode → Code α}
    (hm : held .inodesMgmt = false)
    (hk : ∀ v fs', Balanced intr Fault.stops home (k v) held fs') :
    Balanced intr Fault.stops home (simplefsGetInode ino >>= k) held fs := by
  unfold simplefsGetInode
  rw [bind_assoc, balanced_lock]
  cases intr .getInode with
  | true =>
    rw [if_pos rfl]
    exact hk _ _
  | false =>
    simp only [Bool.false_eq_true, if_false, bind_assoc]
    refine ⟨hm, balanced_step_of_forall fun v fs' => ?_⟩
    simp only [balanced_unlock, Function.update_self, true_and, pure_bind,
      update_release hm]
    exact hk _ _

theorem balanced_inodeSave_bind (d : Nat) {k : Int → Code α} (hs : held .sb = false) :
    Balanced intr Fault.stops home (simplefsInodeSave d >>= k) held fs ↔
      if intr .save then Balanced intr Fault.stops home (k (-EINTR)) held fs
      else match saveInode d fs with
        | .error e => e.stops = false → ∀ (r : Bool) fs',
            Balanced intr Fault.stops home (k (if r then 0 else - EIO)) held fs'
        | .ok (r, fs') => Balanced intr Fault.stops home (k (if r then 0 else - EIO)) held fs' := by
  have hrest : ∀ (r : Bool) fs', Balanced intr Fault.stops home
      ((if r = true then do Prog.unlock .sb; pure 0 else do Prog.unlock .sb; pure (- EIO)) >>= k)
      (Function.update held .sb true) fs' ↔
        Balanced intr Fault.stops home (k (if r then 0 else - EIO)) held fs' := by
    intro r fs'
    cases r <;> simp only [Bool.false_eq_true, if_false, if_true, bind_assoc, balanced_unlock,
      Function.update_self, true_and, pure_bind, update_release hs]
  unfold simplefsInodeSave
  rw [bind_assoc, balanced_lock]
  cases intr .save with
  | true => simp only [if_true, pure_bind]
  | false =>
    simp only [Bool.false_eq_true, if_false, hs, true_and, bind_assoc, balanced_step]
    cases saveInode d fs with
    | error e =>
      exact imp_congr Iff.rfl (forall_congr' fun r => forall_congr' fun fs' => hrest r fs')
    | ok r => exact hrest r.1 r.2

/-- A save that goes on well from every state goes well. -/
theorem balanced_inodeSave_of_forall (d : Nat) {k : Int → Code α} (hs : held .sb = false)
    (hk : ∀ r fs', Balanced intr Fault.stops home (k r) held fs') :
    Balanced intr Fault.stops home (simplefsInodeSave d >>= k) held fs := by
  rw [balanced_inodeSave_bind d hs]
  split
  · exact hk _ _
  · split
    · exact fun _ _ _ => hk _ _
    · exact hk _ _

/-! ## 4. The operations -/

theorem balanced_lookup (p : Nat) (name : Name) (hm : held .inodesMgmt = false) :
    Balanced intr Fault.stops held (simplefsLookup p name >>= fun _ => pure ()) held fs := by
  rw [simplefsLookup, bind_assoc]
  refine balanced_step_of_forall fun r fs1 => ?_
  cases r with
  | none => exact rfl
  | some ino =>
    simp only [bind_assoc]
    refine balanced_getInode_bind ino hm fun v fs2 => ?_
    cases v with
    | none => exact rfl
    | some inode =>
      simp only [bind_assoc, pure_bind]
      exact balanced_step_of_forall fun _ _ => rfl

theorem balanced_write (d ppos : Nat) (data : List UInt8) (copied : Nat)
    (hm : held .inodesMgmt = false) (hs : held .sb = false) :
    Balanced intr Fault.stops held
      (simplefsWrite d ppos data copied >>= fun _ => pure ()) held fs := by
  rw [simplefsWrite, bind_assoc]
  refine balanced_step_of_forall fun full fs1 => ?_
  cases full with
  | false => simp only [Bool.false_eq_true, if_false, pure_bind, balanced_pure]
  | true =>
    simp only [if_true, bind_assoc, balanced_lock]
    cases intr .write with
    | true => simp only [if_true, pure_bind, balanced_pure]
    | false =>
      simp only [Bool.false_eq_true, if_false, bind_assoc]
      refine ⟨hm, balanced_step_of_forall fun _ fs2 =>
        balanced_inodeSave_of_forall d (update_mgmt_sb hs) fun r fs3 => ?_⟩
      simp only [balanced_unlock, Function.update_self, true_and, pure_bind, balanced_pure,
        update_release hm]

section Create

/-- A state with another bitmap. -/
def Fs.withFreeBlocks (fs : Fs) (w : BitVec 64) : Fs :=
  { fs with dev := fs.dev.setFreeBlocks w }

variable {p : Nat} {name : Name} {mode : BitVec 16} {v : SfsInode} {x : Dentry} {c : DirCache}

/-- The tail of a create puts the locks back if it finds them in order. -/
theorem balanced_createTail (hl : ∀ l, held l = false) :
    Balanced intr Fault.stops held (createTail p name v >>= fun _ => pure ())
      (Function.update held .childrenUpdate true) fs := by
  have hm : Function.update held .childrenUpdate true .inodesMgmt = false := by
    rw [Function.update_of_ne (by decide), hl]
  have hs : Function.update held .childrenUpdate true .sb = false := by
    rw [Function.update_of_ne (by decide), hl]
  rw [createTail, bind_assoc]
  refine balanced_step_of_forall fun _ fs1 => ?_
  simp only [bind_assoc, balanced_lock, hm, true_and]
  cases intr .createMgmt with
  | true => simp only [if_true, bind_assoc, balanced_unlock, Function.update_self, true_and,
      pure_bind, balanced_pure, update_release (hl _)]
  | false =>
    simp only [Bool.false_eq_true, if_false, bind_assoc]
    refine balanced_step_of_forall fun _ fs2 =>
      balanced_inodeSave_of_forall p (update_mgmt_sb hs) fun ret fs3 => ?_
    split
    · simp only [bind_assoc, balanced_unlock, Function.update_self, true_and, pure_bind,
        balanced_pure, update_release hm, update_release (hl _)]
    · simp only [bind_assoc, balanced_unlock, Function.update_self, true_and,
        update_release hm, update_release (hl _)]
      exact balanced_step_of_forall fun _ _ => rfl

/-- **If `simplefs_inode_add` has kept its lock, the tail of a create cannot put it back**: it
waits for it, or is interrupted and returns with it.  Nothing stops it before, not even a name
that does not fit behind the others. -/
theorem not_balanced_createTail (hx : fs.dentries p = some x) (hc : x.fsdata = some c)
    (hm : held .inodesMgmt = true) (hhome : home .inodesMgmt = false) :
    ¬ Balanced intr Fault.stops home (createTail p name v >>= fun _ => pure ()) held fs := by
  rw [createTail, bind_assoc]
  refine not_balanced_step_of_forall () (fun _ fs' hbal => ?_) fun e hadd => ?_
  · simp only [bind_assoc, balanced_lock, hm, Bool.true_eq_false, false_and] at hbal
    split at hbal
    · simp only [if_true, bind_assoc, balanced_unlock, pure_bind, balanced_pure] at hbal
      have := congrFun hbal.2 .inodesMgmt
      rw [Function.update_of_ne (by decide), hm, hhome] at this
      cases this
    · exact hbal
  · simp only [addRecord, Fs.dentry_of_eq hx, bind, Except.bind, hc] at hadd
    split at hadd
    · cases hadd
      rfl
    · split at hadd <;> cases hadd
      rfl

/-- What is left of a create once it has its number. -/
def createFrom (p : Nat) (name : Name) (mode : BitVec 16) (ino : Nat) : Code Int := do
  match ← simplefsSbGetAFreeblock with
  | .error ret =>
    unlock .childrenUpdate
    return ret
  | .ok blk =>
    simplefsInodeAdd (newInode mode ino blk)
    createTail p name (newInode mode ino blk)

theorem balanced_createFrom {ino : Nat} (hl : ∀ l, held l = false)
    (hcache : intr .addMgmt = false → intr .addSb = true → fs.CacheBuilt p) :
    Balanced intr Fault.stops held (createFrom p name mode ino >>= fun _ => pure ())
      (Function.update held .childrenUpdate true) fs ↔
        ¬ (intr .getAFreeblock = true ∨
          freeBlockScan fs.dev.freeBlocks ≠ none ∧ intr .addMgmt = false ∧ intr .addSb = true) := by
  have hm : Function.update held .childrenUpdate true .inodesMgmt = false := by
    rw [Function.update_of_ne (by decide), hl]
  have hs : Function.update held .childrenUpdate true .sb = false := by
    rw [Function.update_of_ne (by decide), hl]
  rw [createFrom, bind_assoc, balanced_getAFreeblock_bind hs]
  cases intr .getAFreeblock with
  | true => simp only [Bool.true_eq_false, false_and, true_or, not_true_eq_false]
  | false =>
    simp only [true_and, Bool.false_eq_true, false_or]
    cases hscan : freeBlockScan fs.dev.freeBlocks with
    | none =>
      simp only [bind_assoc, balanced_unlock, Function.update_self, true_and, pure_bind,
        balanced_pure, update_release (hl _), ne_eq, not_true_eq_false, false_and,
        not_false_eq_true]
    | some b =>
      simp only [bind_assoc, balanced_inodeAdd_bind _ hm hs, ne_eq, reduceCtorEq,
        not_false_eq_true, true_and]
      have htail : ∀ fs', Balanced intr Fault.stops held
          (createTail p name (newInode mode ino b) >>= fun _ => pure ())
          (Function.update held .childrenUpdate true) fs' := fun _ => balanced_createTail hl
      cases h1 : intr .addMgmt with
      | true => simpa only [if_true, Bool.true_eq_false, false_and, not_false_eq_true, iff_true]
          using htail _
      | false =>
        cases h2 : intr .addSb with
        | true =>
          simp only [Bool.false_eq_true, if_false, if_true, and_self, not_true_eq_false, iff_false]
          obtain ⟨x, c, hx, hc⟩ := hcache h1 h2
          exact not_balanced_createTail (x := x) hx hc (Function.update_self _ _ _) (hl _)
        | false =>
          simp only [Bool.false_eq_true, if_false, and_false, not_false_eq_true, iff_true]
          cases addInode (newInode mode ino b) (fs.taken b) with
          | error e => exact fun _ _ => htail
          | ok r => exact htail _

/-- A create is refused, or goes on to its number. -/
theorem balanced_create_bind {home : Lock → Bool} (hl : ∀ l, held l = false)
    (hx : fs.dentries p = some x) (hc : x.fsdata = some c) :
    Balanced intr Fault.stops home (simplefsCreateFsObject p name mode >>= fun _ => pure ()) held
        fs ↔
      if fs.CreateStarts mode intr then
        match ffz fs.imap with
        | some ino =>
          Balanced intr Fault.stops home (createFrom p name mode ino >>= fun _ => pure ())
            (Function.update held .childrenUpdate true) fs
        | none => ∀ ino fs', Balanced intr Fault.stops home
            (createFrom p name mode ino >>= fun _ => pure ())
            (Function.update held .childrenUpdate true) fs'
      else held = home := by
  have hm : Function.update held .childrenUpdate true .inodesMgmt = false := by
    rw [Function.update_of_ne (by decide), hl]
  unfold simplefsCreateFsObject
  rw [bind_assoc, balanced_step, bugOnNoCache_eq hx hc]
  dsimp only
  rw [bind_assoc, balanced_lock]
  cases h1 : intr .createChildren with
  | true =>
    rw [if_neg fun hst : fs.CreateStarts mode intr => Bool.false_ne_true (hst.1.symm.trans h1)]
    simp only [if_true, pure_bind, balanced_pure]
  | false =>
    simp only [Bool.false_eq_true, if_false, hl, bind_assoc, balanced_getObjectsCount_bind hm,
      true_and]
    cases h2 : intr .getObjectsCount with
    | true =>
      rw [if_neg fun hst : fs.CreateStarts mode intr => Bool.false_ne_true (hst.2.1.symm.trans h2)]
      simp only [if_true, bind_assoc, balanced_unlock, Function.update_self, true_and,
        pure_bind, balanced_pure, update_release (hl _)]
    | false =>
      simp only [Bool.false_eq_true, if_false]
      by_cases hfull : maxObjects ≤ fs.dev.inodesCount.toNat
      · rw [if_neg fun hst : fs.CreateStarts mode intr => absurd hst.2.2.1 (Nat.not_lt.mpr hfull)]
        simp only [if_pos hfull, bind_assoc, balanced_unlock, Function.update_self, true_and,
          pure_bind, balanced_pure, update_release (hl _)]
      by_cases hmode : isDir (mode.setWidth 32) = true ∨ isReg (mode.setWidth 32) = true
      swap
      · have hmode' : (!isDir (mode.setWidth 32) && !isReg (mode.setWidth 32)) = true := by
          simpa [not_or] using hmode
        rw [if_neg fun hst : fs.CreateStarts mode intr => hmode hst.2.2.2]
        simp only [if_neg hfull, if_pos hmode', bind_assoc, balanced_unlock, Function.update_self,
          true_and, pure_bind, balanced_pure, update_release (hl _)]
      have hmode' : ¬ (!isDir (mode.setWidth 32) && !isReg (mode.setWidth 32)) = true := by
        simpa [or_iff_not_imp_left] using hmode
      rw [if_pos (show fs.CreateStarts mode intr from ⟨h1, h2, Nat.not_le.mp hfull, hmode⟩)]
      simp only [if_neg hfull, if_neg hmode', bind_assoc, balanced_stepObs, pickInodeNumber]
      cases ffz fs.imap with
      | some ino =>
        refine iff_of_eq (congrArg (Balanced intr Fault.stops home · _ fs) (Eq.symm ?_))
        exact (bind_assoc _ _ _).trans (bind_congr fun r => by cases r <;> rfl)
      | none =>
        simp only [Fault.stops, forall_const]
        refine forall_congr' fun ino => forall_congr' fun fs' =>
          iff_of_eq (congrArg (Balanced intr Fault.stops home · _ fs') (Eq.symm ?_))
        exact (bind_assoc _ _ _).trans (bind_congr fun r => by cases r <;> rfl)

/-- **A create.** -/
theorem balanced_create (hl : ∀ l, held l = false) :
    Balanced intr Fault.stops held (simplefsCreateFsObject p name mode >>= fun _ => pure ()) held
        fs ↔
      ¬ fs.CreateUpsets p mode intr := by
  by_cases hcache : fs.CacheBuilt p
  swap
  · -- without a cache it stops at once
    refine iff_of_true ?_ fun h => hcache h.1
    rw [simplefsCreateFsObject, bind_assoc, balanced_step, bugOnNoCache]
    cases hx : fs.dentries p with
    | none =>
      simp only [Fs.dentry, hx, bind, Except.bind]
      exact fun h => absurd h (by decide)
    | some x =>
      cases hc : x.fsdata with
      | none =>
        simp only [Fs.dentry_of_eq hx, bind, Except.bind, hc, Option.isSome_none]
        exact fun h => absurd h (by decide)
      | some c => exact absurd ⟨x, c, hx, hc⟩ hcache
  obtain ⟨x, c, hx, hc⟩ := id hcache
  rw [balanced_create_bind hl hx hc, Fs.CreateUpsets]
  by_cases hstart : fs.CreateStarts mode intr
  swap
  · rw [if_neg hstart]
    simp only [hstart, false_and, and_false, not_false_eq_true]
  rw [if_pos hstart]
  simp only [hcache, hstart, true_and]
  cases hffz : ffz fs.imap with
  | some ino =>
    simp only [reduceCtorEq, or_false]
    exact balanced_createFrom hl fun _ _ => hcache
  | none =>
    simp only [or_true, true_and]
    constructor
    · -- a number was found nowhere; a block may be free all the same
      intro h hup
      have hcache' : (fs.withFreeBlocks (BitVec.allOnes 64)).CacheBuilt p := hcache
      refine (balanced_createFrom hl fun _ _ => hcache').mp (h 0 _) (hup.imp_right fun hup => ⟨by
        rw [Fs.withFreeBlocks, Device.freeBlocks_setFreeBlocks]
        decide, hup⟩)
    · intro hno ino fs'
      refine (balanced_createFrom hl fun h1 h2 => absurd (Or.inr ⟨h1, h2⟩) hno).mpr ?_
      exact fun hup => hno (hup.imp_right And.right)

end Create

section Unlink

variable {ino : BitVec 64} {e : Nat}

theorem balanced_dDelete :
    Balanced intr Fault.stops held (step (dDelete e) : Code Unit) held fs := by
  rw [← bind_pure (step (dDelete e) : Code Unit)]
  exact balanced_step_of_forall fun _ _ => rfl

/-- `simplefs_inode_del` and `d_delete`. -/
theorem balanced_delAndUnhash (hm : held .inodesMgmt = false) (hs : held .sb = false)
    (he : intr .delMgmt = false → intr .delSb = true → fs.dentries e ≠ none) :
    Balanced intr Fault.stops held
      (simplefsInodeDel ino >>= fun _ => (step (dDelete e) : Code Unit)) held fs ↔
        ¬ (intr .delMgmt = false ∧ intr .delSb = true) := by
  rw [balanced_inodeDel_bind ino hm hs]
  cases h1 : intr .delMgmt with
  | true => simpa using balanced_dDelete
  | false =>
    cases h2 : intr .delSb with
    | true =>
      simp only [Bool.false_eq_true, if_false, if_true, and_self, not_true_eq_false, iff_false]
      rw [← bind_pure (step (dDelete e) : Code Unit)]
      refine not_balanced_step_of_forall () (fun _ _ => update_ne hm) fun err herr => ?_
      obtain ⟨z, hz⟩ := Option.ne_none_iff_exists'.mp (he h1 h2)
      simp only [dDelete, Fs.dentry_of_eq hz, bind, Except.bind, pure, Except.pure] at herr
      cases herr
    | false =>
      simp only [Bool.false_eq_true, if_false, and_false, not_false_eq_true, iff_true]
      cases delInode ino fs with
      | error err => exact fun _ _ _ => balanced_dDelete
      | ok r => exact balanced_dDelete

/-- What is left of an unlink once the record is gone. -/
theorem balanced_saveAndDel {p : Nat} (hm : held .inodesMgmt = false) (hs : held .sb = false)
    (he : intr .delMgmt = false → intr .delSb = true →
      fs.dentries e ≠ none ∧ fs.dentries p ≠ none) :
    Balanced intr Fault.stops held (simplefsInodeSave p >>= fun _ =>
      simplefsInodeDel ino >>= fun _ => (step (dDelete e) : Code Unit)) held fs ↔
        ¬ (intr .delMgmt = false ∧ intr .delSb = true) := by
  by_cases hup : intr .delMgmt = false ∧ intr .delSb = true
  swap
  · refine iff_of_true ?_ hup
    exact balanced_inodeSave_of_forall p hs fun _ _ =>
      (balanced_delAndUnhash hm hs fun h1 h2 => absurd ⟨h1, h2⟩ hup).mpr hup
  refine iff_of_false (fun hbal => ?_) (not_not.mpr hup)
  obtain ⟨hde, hdp⟩ := he hup.1 hup.2
  -- the save goes on, in this state or in one with the same dentries
  obtain ⟨fs', hd, hbal⟩ : ∃ fs', fs'.dentries = fs.dentries ∧ Balanced intr Fault.stops held
      (simplefsInodeDel ino >>= fun _ => (step (dDelete e) : Code Unit)) held fs' := by
    rw [balanced_inodeSave_bind p hs] at hbal
    split at hbal
    · exact ⟨fs, rfl, hbal⟩
    · obtain ⟨x, hx⟩ := Option.ne_none_iff_exists'.mp hdp
      cases hsave : saveInode p fs with
      | error err =>
        rw [hsave] at hbal
        refine ⟨fs, rfl, hbal ?_ true fs⟩
        simp only [saveInode, Fs.dentry_of_eq hx, bind, Except.bind] at hsave
        split at hsave
        · split at hsave <;> cases hsave
          rfl
        · cases hsave
      | ok r =>
        rw [hsave] at hbal
        exact ⟨r.2, saveInode_dentries hsave, hbal⟩
  rw [balanced_delAndUnhash hm hs fun _ _ => by rwa [hd]] at hbal
  exact hbal hup

/-- **An unlink.** -/
theorem balanced_unlink (e : Nat) (hm : held .inodesMgmt = false) (hs : held .sb = false) :
    Balanced intr Fault.stops held (vfsUnlink e) held fs ↔
      ¬ (fs.UnlinkGoesOn e ∧ intr .delMgmt = false ∧ intr .delSb = true) := by
  simp only [vfsUnlink, simplefsUnlink, bind_assoc, pure_bind, if_true]
  by_cases hgo : fs.UnlinkGoesOn e
  swap
  · -- without its entry it stops at once
    refine iff_of_true ?_ fun h => hgo h.1
    rw [balanced_step, removeRecord]
    cases hy : fs.dentries e with
    | none =>
      simp only [Fs.dentry, hy, bind, Except.bind]
      exact fun h => absurd h (by decide)
    | some y =>
      cases hx : fs.dentries y.parent with
      | none =>
        simp only [Fs.dentry, hy, hx, bind, Except.bind]
        exact fun h => absurd h (by decide)
      | some x =>
        cases hc : x.fsdata with
        | none =>
          simp only [Fs.dentry, hy, hx, bind, Except.bind, hc]
          exact fun h => absurd h (by decide)
        | some c =>
          cases he : usedCacheEntryGet c y.name with
          | none =>
            simp only [Fs.dentry, hy, hx, bind, Except.bind, hc, he]
            exact fun h => absurd h (by decide)
          | some entry =>
            have hne : usedCacheEntryGet c y.name ≠ none := by rw [he]; exact Option.some_ne_none _
            exact absurd ⟨y, x, c, hy, hx, hc, hne⟩ hgo
  simp only [hgo, true_and]
  obtain ⟨y, x, c, hy, hx, hc, he⟩ := hgo
  obtain ⟨entry, he⟩ := Option.ne_none_iff_exists'.mp he
  have hde : fs.dentries e ≠ none := by rw [hy]; exact Option.some_ne_none _
  have hdp : fs.dentries y.parent ≠ none := by rw [hx]; exact Option.some_ne_none _
  rw [balanced_step]
  by_cases hlt : entry.entryNo < recordsPerBlock
  · rw [removeRecord_eq ⟨hy, hx, hc, he, hlt⟩]
    refine balanced_saveAndDel hm hs fun _ _ => ⟨?_, ?_⟩
    all_goals
      rw [Fs.unrecorded, Fs.setDentry_dentries]
      split
      · exact Option.some_ne_none _
    · exact hde
    · exact hdp
  · have herr : removeRecord e fs = .error .outOfBlock := by
      simp only [removeRecord, Fs.dentry_of_eq hy, Fs.dentry_of_eq hx, bind, Except.bind, hc, he,
        if_neg hlt]
    rw [herr]
    constructor
    · intro hbal
      exact (balanced_saveAndDel hm hs fun _ _ => ⟨hde, hdp⟩).mp (hbal rfl (y.parent, 0) fs)
    · exact fun hup _ _ _ => (balanced_saveAndDel hm hs fun h1 h2 => absurd ⟨h1, h2⟩ hup).mpr hup

end Unlink

/-! ## 5. All of them -/

theorem Routine.balanced_code (r : Routine) (hfree : ∀ l ∈ r.locks, held l = false) :
    Balanced intr Fault.stops held r.code held fs ↔ ¬ r.Upsets fs intr := by
  cases r with
  | call op =>
    cases op with
    | iterate d pos => exact iff_of_true (balanced_step_of_forall fun _ _ => rfl) id
    | lookup p name => exact iff_of_true (balanced_lookup p name (hfree _ (by simp [locks]))) id
    | create p name mode =>
      refine balanced_create fun l => hfree l ?_
      cases l <;> simp [locks]
    | mkdir p name mode =>
      refine balanced_create fun l => hfree l ?_
      cases l <;> simp [locks]
    | unlink e =>
      exact balanced_unlink e (hfree _ (by simp [locks])) (hfree _ (by simp [locks]))
    | read d ppos len userOk => exact iff_of_true (balanced_step_of_forall fun _ _ => rfl) id
    | write d ppos data copied =>
      exact iff_of_true (balanced_write d ppos data copied (hfree _ (by simp [locks]))
        (hfree _ (by simp [locks]))) id
    | release d => exact iff_of_true rfl id
  | inodeAdd v =>
    have hm := hfree .inodesMgmt (by simp [locks])
    change Balanced intr Fault.stops held (simplefsInodeAdd v) held fs ↔ ¬ (_ ∧ _)
    rw [← bind_pure (simplefsInodeAdd v), balanced_inodeAdd_bind v hm (hfree _ (by simp [locks]))]
    cases intr .addMgmt <;> cases intr .addSb <;> simp [update_ne hm]
    cases addInode v fs <;> simp
  | inodeDel ino =>
    have hm := hfree .inodesMgmt (by simp [locks])
    change Balanced intr Fault.stops held (simplefsInodeDel ino) held fs ↔ ¬ (_ ∧ _)
    rw [← bind_pure (simplefsInodeDel ino),
      balanced_inodeDel_bind ino hm (hfree _ (by simp [locks]))]
    cases intr .delMgmt <;> cases intr .delSb <;> simp [update_ne hm]
    cases delInode ino fs <;> simp
  | getAFreeblock =>
    change Balanced intr Fault.stops held (simplefsSbGetAFreeblock >>= fun _ => pure ()) held fs ↔
      ¬ (_ = true)
    rw [balanced_getAFreeblock_bind (hfree _ (by simp [locks]))]
    cases intr .getAFreeblock <;> simp
    cases freeBlockScan fs.dev.freeBlocks <;> simp
  | getObjectsCount =>
    exact iff_of_true ((balanced_getObjectsCount_bind (hfree _ (by simp [locks]))).mpr rfl) id
  | getInode ino =>
    exact iff_of_true (balanced_getInode_bind ino (hfree _ (by simp [locks])) fun _ _ => rfl) id
  | inodeSave d =>
    exact iff_of_true (balanced_inodeSave_of_forall d (hfree _ (by simp [locks])) fun _ _ => rfl) id

end Helpers

/-- **A routine puts the locks back exactly when no interruption upsets it**: started with its
own locks free, it releases only locks that it holds, never waits for one of them, and holds at
its return what it held at its start.  So it is in particular where it runs alone. -/
theorem Routine.balanced_iff (r : Routine) (fs : Fs) (held : Lock → Bool) (intr : Site → Bool)
    (hfree : ∀ l ∈ r.locks, held l = false) :
    (Balanced intr Fault.stops held r.code held fs ↔ ¬ r.Upsets fs intr) ∧
      (¬ r.Upsets fs intr → ∀ ending lk, run intr r.code ⟨held, false⟩ fs = (ending, lk) →
        lk.stray = false ∧ (∀ l, ending ≠ .blocked l) ∧
          ∀ a fs', ending = .returned a fs' → lk.held = held) := by
  refine ⟨r.balanced_code hfree, fun hup ending lk hrun => ?_⟩
  have hbal : Balanced intr Fault.stops held r.code held fs := (r.balanced_code hfree).mpr hup
  exact hbal.run hrun

/-- A create in the root of a fresh image with interruptions that it survives: it loses its inode
and its parent's count, and no lock. -/
theorem Routine.balanced_iff_create :
    Balanced (fun site => site = .addMgmt || site = .createMgmt) Fault.stops (fun _ => false)
      (Routine.call (.create 0 newName 0x81a4)).code (fun _ => false) listedFs := by
  refine (Routine.balanced_iff (.call (.create 0 newName 0x81a4)) listedFs (fun _ => false)
    (fun site => site = .addMgmt || site = .createMgmt) fun _ _ => rfl).1.mpr ?_
  rintro ⟨-, -, h | ⟨-, h, -⟩⟩ <;> exact absurd h (by decide)

/-- **A create that a signal interrupts as it asks for a block releases a lock it does not
hold.** -/
theorem create_interrupted_not_balanced :
    ¬ Balanced (fun site => site = .getAFreeblock) Fault.stops (fun _ => false)
      (Routine.call (.create 0 newName 0x81a4)).code (fun _ => false) listedFs := by
  have hcount : listedFs.dev.inodesCount = 2#64 := freshDevice.inodesCount
  refine mt (balanced_create fun _ => rfl).mp (not_not.mpr ?_)
  refine ⟨⟨_, _, listedFs_root.1, rfl⟩, ⟨by decide, by decide, ?_, by decide⟩, Or.inl (by decide)⟩
  rw [hcount]
  decide

end Simplefs
