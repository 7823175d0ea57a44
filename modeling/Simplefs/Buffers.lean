/-
# The buffers of `simple.c`

`Ops.lean` takes the buffer cache to be one with the device.  Here it is not: the functions of the
source are given once more with their calls of `sb_bread`, `brelse`, `mark_buffer_dirty` and
`sync_dirty_buffer`, in the places where the source has them, and `Op.erases` says that without
these calls they are the functions of `Ops.lean`.

The device holds, for each block, what was last written back.  The kernel may write a dirty buffer
back between any two pieces of code, and the power may fail there (`PowerStep`): what is then left
is the device, and the locks are those of a module that has just been loaded.

A call that is interrupted may keep a buffer for good, but none gives back a buffer that it does not
hold (`PowerRun.refs_nonneg`).
-/
import Simplefs.Lib.Buffers
import Simplefs.Vfs

namespace Simplefs

open Prog (step stepObs read lock unlock LockState Passes)
open Buffered (inMemory onBuffers)

/-! ## 1. Blocks -/

/-- The blocks of the buffers. -/
def Fs.blocks (fs : Fs) : Nat → Block := fs.dev.blocks

/-- A mounted filesystem with its buffers, and code over it. -/
abbrev Buf := Buffered Fs Nat Block

abbrev BufCode := Prog Buf Progress Lock Site Fault

/-- What is on the device. -/
def Buf.device (c : Buf) : Device := Device.ofBlocks c.disk

/-- What is in memory becomes `s`. -/
abbrev Buf.store (c : Buf) (s : Fs) : Buf := { c with mem := s }

/-- Block `b` is written back. -/
abbrev Buf.writeBack (c : Buf) (b : Nat) : Buf := Buffered.writeBack Fs.blocks b c

/-- The kernel's own write-backs. -/
abbrev Buf.Background : Buf → Buf → Prop := Buffered.Background Fs.blocks

/-! ## 2. The functions with their buffers -/

namespace Buf

/-- `sb_bread`. -/
def sbBread (b : Nat) : BufCode Unit := step (onBuffers (Buffered.bread b))

/-- `brelse`. -/
def brelse (b : Nat) : BufCode Unit := step (onBuffers (Buffered.brelse b))

/-- `mark_buffer_dirty`. -/
def markBufferDirty (b : Nat) : BufCode Unit := step (onBuffers (Buffered.markDirty b))

/-- `sync_dirty_buffer`. -/
def syncDirtyBuffer (b : Nat) : BufCode Unit := step (onBuffers (Buffered.syncDirty Fs.blocks b))

/-- The data block of a dentry's inode.  Code that goes on with a dentry that is not there
faults. -/
def dataBlock (fs : Fs) (d : Nat) : Nat :=
  match fs.dentries d with
  | some x => x.inode.block
  | none => 0

/-- The data block of the directory that a dentry is in. -/
def parentBlock (fs : Fs) (e : Nat) : Nat :=
  match fs.dentries e with
  | some y => dataBlock fs y.parent
  | none => 0

/-- `simplefs_sb_sync`. -/
def simplefsSbSync : BufCode Unit := do
  sbBread 0
  markBufferDirty 0
  syncDirtyBuffer 0
  brelse 0

/-- `simplefs_inode_add`: the inode store is marked dirty, and only the superblock is synced. -/
def simplefsInodeAdd (inode : SfsInode) : BufCode Unit := do
  if ← lock .addMgmt .inodesMgmt then
    return
  sbBread 1
  if ← lock .addSb .sb then
    return
  stepObs (inMemory (addInode inode)) fun _ w => { w with added := true }
  markBufferDirty 1
  simplefsSbSync
  brelse 1
  unlock .sb
  unlock .inodesMgmt

/-- `simplefs_inode_del`, likewise. -/
def simplefsInodeDel (ino : BitVec 64) : BufCode Unit := do
  if ← lock .delMgmt .inodesMgmt then
    return
  sbBread 1
  if ← lock .delSb .sb then
    return
  step (inMemory (delInode ino))
  markBufferDirty 1
  simplefsSbSync
  brelse 1
  unlock .sb
  unlock .inodesMgmt

/-- `simplefs_sb_get_a_freeblock`. -/
def simplefsSbGetAFreeblock : BufCode (Except Int Nat) := do
  if ← lock .getAFreeblock .sb then
    unlock .sb
    return .error (-EINTR)
  match ← stepObs (inMemory takeFreeBlock)
    fun r w => { w with ino := r.bind fun _ => w.ino, blk := r } with
  | none =>
    unlock .sb
    return .error (-ENOSPC)
  | some i =>
    simplefsSbSync
    unlock .sb
    return .ok i

/-- `simplefs_sb_get_objects_count` reads the superblock's buffer without `sb_bread`. -/
def simplefsSbGetObjectsCount : BufCode (Except Int (BitVec 64)) := do
  if ← lock .getObjectsCount .inodesMgmt then
    return .error (-EINTR)
  let out ← read fun c => c.mem.dev.inodesCount
  unlock .inodesMgmt
  return .ok out

/-- `simplefs_iterate` reads the directory's block if there is no cache. -/
def simplefsIterate (d pos : Nat) : BufCode (Nat × List DirRecord) := do
  if ← read fun c => (c.mem.dentries d).any fun x => x.fsdata.isNone then
    let bh ← read fun c => dataBlock c.mem d
    sbBread bh
    let r ← step (inMemory (iterate d pos))
    brelse bh
    return r
  else
    step (inMemory (iterate d pos))

/-- `simplefs_get_inode`. -/
def simplefsGetInode (ino : BitVec 64) : BufCode (Option SfsInode) := do
  sbBread 1
  if ← lock .getInode .inodesMgmt then
    return none
  let inode ← step (inMemory (readInode ino))
  unlock .inodesMgmt
  brelse 1
  return some inode

/-- `simplefs_inode_save`. -/
def simplefsInodeSave (d : Nat) : BufCode Int := do
  sbBread 1
  if ← lock .save .sb then
    return -EINTR
  if ← step (inMemory (saveInode d)) then
    markBufferDirty 1
    syncDirtyBuffer 1
    brelse 1
    unlock .sb
    return 0
  unlock .sb
  return - EIO

/-- `simplefs_read`: at the end of the file or behind it the block is not read. -/
def simplefsRead (d ppos len : Nat) (userOk : Bool) : BufCode (Except Int (List UInt8) × Nat) := do
  if ← read fun c => (c.mem.dentries d).any fun x => decide (ppos < x.inode.fileSize.toNat) then
    let bh ← read fun c => dataBlock c.mem d
    sbBread bh
    let r ← step (inMemory (readFile d ppos len userOk))
    brelse bh
    return r
  else
    step (inMemory (readFile d ppos len userOk))

/-- `simplefs_write`: a copy that fails has changed the buffer and does not mark it dirty. -/
def simplefsWrite (d ppos : Nat) (data : List UInt8) (copied : Nat) : BufCode (Int × Nat) := do
  let bh ← read fun c => dataBlock c.mem d
  sbBread bh
  if ← step (inMemory (copyFromUser d ppos data copied)) then
    markBufferDirty bh
    syncDirtyBuffer bh
    brelse bh
    if ← lock .write .inodesMgmt then
      return (-EINTR, ppos + data.length)
    step (inMemory (setFileSize d (ppos + data.length)))
    let retval ← simplefsInodeSave d
    unlock .inodesMgmt
    return (if retval = 0 then data.length else retval, ppos + data.length)
  else
    brelse bh
    return (-EFAULT, ppos)

/-- `simplefs_create_fs_object`. -/
def simplefsCreateFsObject (p : Nat) (name : Name) (mode : BitVec 16) : BufCode Int := do
  step (inMemory (bugOnNoCache p))
  if ← lock .createChildren .childrenUpdate then
    return -EINTR
  match ← simplefsSbGetObjectsCount with
  | .error ret =>
    unlock .childrenUpdate
    return ret
  | .ok count =>
    if maxObjects ≤ count.toNat then
      unlock .childrenUpdate
      return -ENOSPC
    if !isDir (mode.setWidth 32) && !isReg (mode.setWidth 32) then
      unlock .childrenUpdate
      return -EINVAL
    let ino ← stepObs (inMemory pickInodeNumber) fun k w => { w with ino := some k }
    match ← simplefsSbGetAFreeblock with
    | .error ret =>
      unlock .childrenUpdate
      return ret
    | .ok blk =>
      let sfsInode : SfsInode := ⟨mode.setWidth 32, BitVec.ofNat 64 ino, BitVec.ofNat 64 blk, 0⟩
      simplefsInodeAdd sfsInode
      let bh ← read fun c => dataBlock c.mem p
      sbBread bh
      step (inMemory (addRecord p name sfsInode.inodeNo))
      markBufferDirty bh
      syncDirtyBuffer bh
      brelse bh
      if ← lock .createMgmt .inodesMgmt then
        unlock .childrenUpdate
        return -EINTR
      step (inMemory (countChild p))
      let ret ← simplefsInodeSave p
      if ret ≠ 0 then
        unlock .inodesMgmt
        unlock .childrenUpdate
        return ret
      unlock .inodesMgmt
      unlock .childrenUpdate
      step (inMemory (attach p name sfsInode))
      return 0

/-- `simplefs_unlink`. -/
def simplefsUnlink (e : Nat) : BufCode Int := do
  let bh ← read fun c => parentBlock c.mem e
  sbBread bh
  let (p, ino) ← step (inMemory (removeRecord e))
  markBufferDirty bh
  syncDirtyBuffer bh
  brelse bh
  let _ret ← simplefsInodeSave p
  simplefsInodeDel ino
  return 0

/-- `simplefs_lookup`. -/
def simplefsLookup (p : Nat) (name : Name) : BufCode Int := do
  match ← step (inMemory (lookupEntry p name)) with
  | none => return 0
  | some ino =>
    match ← simplefsGetInode ino with
    | none => return -ENOENT
    | some inode =>
      step (inMemory (attach p name inode))
      return 0

/-- `simplefs_fill_super`: the superblock's buffer is released at the end, and `sb_info->sb` goes
on pointing into it. -/
def simplefsFillSuper : BufCode Int := do
  sbBread 0
  if ← read fun c => decide (c.mem.dev.magic ≠ superMagic) then
    brelse 0
    return -EPERM
  if ← read fun c => decide (c.mem.dev.blockSize ≠ 4096) then
    brelse 0
    return -EPERM
  sbBread 1
  step (inMemory fillImapStep)
  brelse 1
  match ← simplefsGetInode (BitVec.ofNat 64 rootInodeNumber) with
  | none => step (inMemory fun _ => .error .nullEntry)
  | some inode =>
    step (inMemory (makeRoot inode))
    brelse 0
    return 0

/-- `vfs_unlink`. -/
def vfsUnlink (e : Nat) : BufCode Unit := do
  let ret ← simplefsUnlink e
  if ret = 0 then
    step (inMemory (dDelete e))

end Buf

/-- The program a call runs, with its buffers. -/
def Op.bufCode : Op → BufCode Unit
  | .iterate d pos => do discard (Buf.simplefsIterate d pos)
  | .lookup p name => do discard (Buf.simplefsLookup p name)
  | .create p name mode => do discard (Buf.simplefsCreateFsObject p name mode)
  | .mkdir p name mode => do discard (Buf.simplefsCreateFsObject p name (0x4000 ||| mode))
  | .unlink e => Buf.vfsUnlink e
  | .read d ppos len userOk => do discard (Buf.simplefsRead d ppos len userOk)
  | .write d ppos data copied => do discard (Buf.simplefsWrite d ppos data copied)
  | .release d => step (inMemory (dentryRelease d))

/-! ## 3. Without the buffers -/

namespace Buf

open Prog (Erases)

/-- A sync of the superblock is nothing that a program without buffers does. -/
theorem erases_sbSync {α : Type} {k : Unit → BufCode α} {q : Code α} (hk : Erases (k ()) q) :
    Erases (simplefsSbSync >>= k) q := by
  unfold simplefsSbSync
  simp only [bind_assoc]
  refine .buffers (fun _ => rfl) (.buffers (fun _ => rfl) (.buffers (fun c => ?_) ?_))
  · exact Buffered.syncDirty_mem
  · exact .buffers (fun _ => rfl) hk

theorem erases_inodeAdd (v : SfsInode) :
    Erases (simplefsInodeAdd v) (Simplefs.simplefsInodeAdd v) := by
  refine .bind (.lock _ _) fun i => ?_
  cases i with
  | true => exact .ret _
  | false =>
    refine .buffers (fun _ => rfl) (.bind (.lock _ _) fun i => ?_)
    cases i with
    | true => exact .ret _
    | false =>
      refine .bind (.stepObs _ _) fun _ => .buffers (fun _ => rfl) (erases_sbSync ?_)
      exact .buffers (fun _ => rfl) (.bind (.unlock _) fun _ => .unlock _)

theorem erases_inodeDel (ino : BitVec 64) :
    Erases (simplefsInodeDel ino) (Simplefs.simplefsInodeDel ino) := by
  refine .bind (.lock _ _) fun i => ?_
  cases i with
  | true => exact .ret _
  | false =>
    refine .buffers (fun _ => rfl) (.bind (.lock _ _) fun i => ?_)
    cases i with
    | true => exact .ret _
    | false =>
      refine .bind (.step _) fun _ => .buffers (fun _ => rfl) (erases_sbSync ?_)
      exact .buffers (fun _ => rfl) (.bind (.unlock _) fun _ => .unlock _)

theorem erases_getAFreeblock :
    Erases simplefsSbGetAFreeblock Simplefs.simplefsSbGetAFreeblock := by
  refine .bind (.lock _ _) fun i => ?_
  cases i with
  | true => exact .bind (.unlock _) fun _ => .ret _
  | false =>
    refine .bind (.stepObs _ _) fun r => ?_
    cases r with
    | none => exact .bind (.unlock _) fun _ => .ret _
    | some b => exact erases_sbSync (.bind (.unlock _) fun _ => .ret _)

/-- What is read of the device is read in memory. -/
theorem erases_read_mem {β : Type} (f : Device → β) :
    Erases (read fun c => f c.mem.dev : BufCode β) (read fun fs => f fs.dev) :=
  .read fun fs : Fs => f fs.dev

theorem erases_getObjectsCount :
    Erases simplefsSbGetObjectsCount Simplefs.simplefsSbGetObjectsCount := by
  refine .bind (.lock _ _) fun i => ?_
  cases i with
  | true => exact .ret _
  | false =>
    exact (erases_read_mem Device.inodesCount).bind fun _ => .bind (.unlock _) fun _ => .ret _

theorem erases_iterate (d pos : Nat) :
    Erases (simplefsIterate d pos) (Simplefs.simplefsIterate d pos) := by
  refine .look fun b => ?_
  cases b with
  | true =>
    refine .look fun bh => .buffers (fun _ => rfl) ?_
    exact .act fun r => .buffers (fun _ => rfl) (.ret r)
  | false => exact .step _

theorem erases_getInode (ino : BitVec 64) :
    Erases (simplefsGetInode ino) (Simplefs.simplefsGetInode ino) := by
  refine .buffers (fun _ => rfl) (.bind (.lock _ _) fun i => ?_)
  cases i with
  | true => exact .ret _
  | false =>
    exact .bind (.step _) fun _ => .bind (.unlock _) fun _ => .buffers (fun _ => rfl) (.ret _)

theorem erases_inodeSave (d : Nat) :
    Erases (simplefsInodeSave d) (Simplefs.simplefsInodeSave d) := by
  refine .buffers (fun _ => rfl) (.bind (.lock _ _) fun i => ?_)
  cases i with
  | true => exact .ret _
  | false =>
    refine .bind (.step _) fun r => ?_
    cases r with
    | true =>
      refine .buffers (fun _ => rfl) (.buffers (fun _ => Buffered.syncDirty_mem) ?_)
      exact .buffers (fun _ => rfl) (.bind (.unlock _) fun _ => .ret _)
    | false => exact .bind (.unlock _) fun _ => .ret _

theorem erases_read (d ppos len : Nat) (userOk : Bool) :
    Erases (simplefsRead d ppos len userOk) (Simplefs.simplefsRead d ppos len userOk) := by
  refine .look fun b => ?_
  cases b with
  | true =>
    refine .look fun bh => .buffers (fun _ => rfl) ?_
    exact .act fun r => .buffers (fun _ => rfl) (.ret r)
  | false => exact .step _

theorem erases_write (d ppos : Nat) (data : List UInt8) (copied : Nat) :
    Erases (simplefsWrite d ppos data copied) (Simplefs.simplefsWrite d ppos data copied) := by
  refine .look fun bh => .buffers (fun _ => rfl) (.bind (.step _) fun r => ?_)
  cases r with
  | false => exact .buffers (fun _ => rfl) (.ret _)
  | true =>
    refine .buffers (fun _ => rfl) (.buffers (fun _ => Buffered.syncDirty_mem) ?_)
    refine .buffers (fun _ => rfl) (.bind (.lock _ _) fun i => ?_)
    cases i with
    | true => exact .ret _
    | false =>
      refine .bind (.step _) fun _ => .bind (erases_inodeSave d) fun ret => ?_
      exact .bind (.unlock _) fun _ => .ret _

theorem erases_create (p : Nat) (name : Name) (mode : BitVec 16) :
    Erases (simplefsCreateFsObject p name mode) (Simplefs.simplefsCreateFsObject p name mode) := by
  refine .bind (.step _) fun _ => .bind (.lock _ _) fun i => ?_
  cases i with
  | true => exact .ret _
  | false =>
    refine .bind erases_getObjectsCount fun r => ?_
    cases r with
    | error ret => exact .bind (.unlock _) fun _ => .ret _
    | ok count =>
      simp only
      split
      · exact .bind (.unlock _) fun _ => .ret _
      split
      · exact .bind (.unlock _) fun _ => .ret _
      refine .bind (.stepObs _ _) fun ino => .bind erases_getAFreeblock fun r => ?_
      cases r with
      | error ret => exact .bind (.unlock _) fun _ => .ret _
      | ok blk =>
        refine .bind (erases_inodeAdd _) fun _ => .look fun bh => .buffers (fun _ => rfl) ?_
        refine .bind (.step _) fun _ => .buffers (fun _ => rfl) ?_
        refine .buffers (fun _ => Buffered.syncDirty_mem) (.buffers (fun _ => rfl) ?_)
        refine .bind (.lock _ _) fun i => ?_
        cases i with
        | true => exact .bind (.unlock _) fun _ => .ret _
        | false =>
          refine .bind (.step _) fun _ => .bind (erases_inodeSave p) fun ret => ?_
          split
          · exact .bind (.unlock _) fun _ => .bind (.unlock _) fun _ => .ret _
          · exact .bind (.unlock _) fun _ => .bind (.unlock _) fun _ => .bind (.step _) fun _ =>
              .ret _

theorem erases_unlink (e : Nat) : Erases (vfsUnlink e) (Simplefs.vfsUnlink e) := by
  refine .bind ?_ fun ret => ?_
  · refine .look fun bh => .buffers (fun _ => rfl) (.bind (.step _) fun r => ?_)
    refine .buffers (fun _ => rfl) (.buffers (fun _ => Buffered.syncDirty_mem) ?_)
    refine .buffers (fun _ => rfl) (.bind (erases_inodeSave r.1) fun _ => ?_)
    exact .bind (erases_inodeDel r.2) fun _ => .ret _
  · split
    · exact .step _
    · exact .ret _

theorem erases_lookup (p : Nat) (name : Name) :
    Erases (simplefsLookup p name) (Simplefs.simplefsLookup p name) := by
  refine .bind (.step _) fun r => ?_
  cases r with
  | none => exact .ret _
  | some ino =>
    refine .bind (erases_getInode ino) fun r => ?_
    cases r with
    | none => exact .ret _
    | some v => exact .bind (.step _) fun _ => .ret _

theorem erases_fillSuper : Erases simplefsFillSuper Simplefs.simplefsFillSuper := by
  refine .buffers (fun _ => rfl) ?_
  refine (erases_read_mem fun dev => decide (dev.magic ≠ superMagic)).bind fun b => ?_
  cases b with
  | true => exact .buffers (fun _ => rfl) (.ret _)
  | false =>
    refine (erases_read_mem fun dev => decide (dev.blockSize ≠ 4096)).bind fun b => ?_
    cases b with
    | true => exact .buffers (fun _ => rfl) (.ret _)
    | false =>
      refine .buffers (fun _ => rfl) (.bind (.step _) fun _ => .buffers (fun _ => rfl) ?_)
      refine .bind (erases_getInode _) fun r => ?_
      cases r with
      | none => exact .step _
      | some v => exact .bind (.step _) fun _ => .buffers (fun _ => rfl) (.ret _)

theorem erases_discard {α : Type} {p : BufCode α} {q : Code α} (h : Erases p q) :
    Erases (discard p) (discard q) := .bind h fun _ => .ret _

end Buf

/-- **The calls of `Ops.lean` are these, without their buffers.** -/
theorem Op.erases (op : Op) : Prog.Erases op.bufCode op.code := by
  cases op with
  | iterate d pos => exact Buf.erases_discard (Buf.erases_iterate d pos)
  | lookup p name => exact Buf.erases_discard (Buf.erases_lookup p name)
  | create p name mode => exact Buf.erases_discard (Buf.erases_create p name mode)
  | mkdir p name mode => exact Buf.erases_discard (Buf.erases_create p name (0x4000 ||| mode))
  | unlink e => exact Buf.erases_unlink e
  | read d ppos len userOk => exact Buf.erases_discard (Buf.erases_read d ppos len userOk)
  | write d ppos data copied => exact Buf.erases_discard (Buf.erases_write d ppos data copied)
  | release d => exact .step _

/-! ## 4. Power failures -/

/-- What a mount starts from. -/
def Buf.blank (disk : Nat → Block) (past : BitVec 64) : Buf :=
  ⟨Fs.blank (Device.ofBlocks disk) past, disk, fun _ => false, fun _ => 0⟩

/-- `kill_block_super`: dirty buffers are written back, and every buffer is dropped. -/
def Buf.flushed (c : Buf) : Nat → Block := fun b => if c.dirty b then c.mem.blocks b else c.disk b

/-- A device, mounted or not. -/
inductive BufMount where
  | offline (disk : Nat → Block)
  | mounted (c : Buf)

/-- The module's locks and the device. -/
structure BufSys where
  locks : LockState Lock
  mnt : BufMount

/-- One step of a system whose power may fail.  A call that is cut off leaves what is on the
device, and so does one that never returns. -/
inductive PowerStep : BufSys → BufSys → Prop
  | mount {lk lk' : LockState Lock} {disk : Nat → Block} {past : BitVec 64} {c : Buf} {ret : Int}
      {intr : Site → Bool}
      (h : Passes intr Buf.Background ⟨Buf.simplefsFillSuper, lk, Buf.blank disk past⟩
        ⟨.ret ret, lk', c⟩) :
      PowerStep ⟨lk, .offline disk⟩ ⟨lk', if ret = 0 then .mounted c else .offline c.flushed⟩
  | umount {lk : LockState Lock} {c : Buf} : PowerStep ⟨lk, .mounted c⟩ ⟨lk, .offline c.flushed⟩
  | call {lk lk' : LockState Lock} {c c' : Buf} {op : Op} {intr : Site → Bool}
      (ha : op.Allowed c.mem)
      (h : Passes intr Buf.Background ⟨op.bufCode, lk, c⟩ ⟨.ret (), lk', c'⟩) :
      PowerStep ⟨lk, .mounted c⟩ ⟨lk', .mounted c'⟩
  | background {lk : LockState Lock} {c c' : Buf} (h : Buf.Background c c') :
      PowerStep ⟨lk, .mounted c⟩ ⟨lk, .mounted c'⟩
  | fail {lk : LockState Lock} {c : Buf} :
      PowerStep ⟨lk, .mounted c⟩ ⟨LockState.free, .offline c.disk⟩
  | failOffline {lk : LockState Lock} {disk : Nat → Block} :
      PowerStep ⟨lk, .offline disk⟩ ⟨LockState.free, .offline disk⟩
  | failIn {lk : LockState Lock} {c : Buf} {op : Op} {intr : Site → Bool}
      {y : Prog.Point Buf Progress Lock Site Fault Unit} (ha : op.Allowed c.mem)
      (h : Passes intr Buf.Background ⟨op.bufCode, lk, c⟩ y) :
      PowerStep ⟨lk, .mounted c⟩ ⟨LockState.free, .offline y.state.disk⟩

/-- The runs of such a system. -/
def PowerRun : BufSys → BufSys → Prop := Relation.ReflTransGen PowerStep

/-- A call that returns without buffers returns with them. -/
theorem PowerStep.of_call {lk lk' : LockState Lock} {c : Buf} {op : Op} {intr : Site → Bool}
    {fs' : Fs} (ha : op.Allowed c.mem)
    (h : Prog.run intr op.code lk c.mem = (.returned () fs', lk')) :
    ∃ c', c'.mem = fs' ∧ PowerStep ⟨lk, .mounted c⟩ ⟨lk', .mounted c'⟩ := by
  obtain ⟨c', hc', hpass⟩ := op.erases.run h
  exact ⟨c', hc', .call ha hpass⟩

/-- So does a mount. -/
theorem PowerStep.of_mount {lk lk' : LockState Lock} {disk : Nat → Block} {past : BitVec 64}
    {intr : Site → Bool} {fs' : Fs}
    (h : Prog.run intr simplefsFillSuper lk (Fs.blank (Device.ofBlocks disk) past) =
      (.returned 0 fs', lk')) :
    ∃ c, c.mem = fs' ∧ PowerStep ⟨lk, .offline disk⟩ ⟨lk', .mounted c⟩ := by
  obtain ⟨c, hc, hpass⟩ := Buf.erases_fillSuper.run (c := Buf.blank disk past) h
  exact ⟨c, hc, .mount hpass⟩

/-- Code that works in memory is passed. -/
theorem Buf.comes_inMemory {α β : Type} {intr : Site → Bool} {P : Buf → Prop} {c : Buf}
    {lk : LockState Lock} {f : Fs → Except Fault (β × Fs)} {obs : β → Progress → Progress} {b : β}
    {s : Fs} {k : β → BufCode α} (hf : f c.mem = .ok (b, s))
    (h : Prog.Comes intr Buf.Background P ⟨k b, lk, c.store s⟩) :
    Prog.Comes intr Buf.Background P ⟨Prog.stepObs (inMemory f) obs >>= k, lk, c⟩ :=
  Prog.comes_stepObs (Buffered.inMemory_ok.mpr ⟨s, hf, rfl⟩) h

/-- An unlink on its way: the record is gone, and synced. -/
theorem Buf.comes_unrecorded {intr : Site → Bool} {c : Buf} {lk : LockState Lock} {e : Nat}
    {r : Nat × BitVec 64} {s : Fs} (hr : removeRecord e c.mem = .ok (r, s)) :
    Prog.Comes intr Buf.Background
      (fun c' => c'.mem = s ∧
        c'.disk (Buf.parentBlock c.mem e) = s.blocks (Buf.parentBlock c.mem e))
      ⟨Buf.vfsUnlink e, lk, c⟩ := by
  refine .bind (Prog.comes_read (Prog.comes_stepObs rfl (Buf.comes_inMemory hr ?_)))
  refine Prog.comes_stepObs rfl (Prog.comes_stepObs rfl (Prog.comes_here ⟨?_, ?_⟩))
  · exact Buffered.syncDirty_mem
  · exact Buffered.Due.settled (Or.inl (Function.update_self ..))

/-! ## 5. References -/

namespace Buf

/-- The program gives back no reference that it does not hold. -/
abbrev Borrows {α : Type} (held : List Nat) (p : BufCode α) : Prop := Prog.Borrows Fs.blocks held p

theorem borrows_sbSync : Borrows [] simplefsSbSync := by
  refine .bread (.markDirty (.syncDirty ?_))
  exact .brelse (k := pure) (.ret _)

theorem borrows_inodeAdd (v : SfsInode) : Borrows [] (simplefsInodeAdd v) := by
  refine .lock fun i => ?_
  cases i with
  | true => exact .ret _
  | false =>
    refine .bread (.lock fun i => ?_)
    cases i with
    | true => exact .ret _
    | false =>
      refine .inMemory fun _ => .markDirty (.bind borrows_sbSync fun _ => .brelse (.unlock ?_))
      exact .unlock (k := pure) (.ret _)

theorem borrows_inodeDel (ino : BitVec 64) : Borrows [] (simplefsInodeDel ino) := by
  refine .lock fun i => ?_
  cases i with
  | true => exact .ret _
  | false =>
    refine .bread (.lock fun i => ?_)
    cases i with
    | true => exact .ret _
    | false =>
      refine .inMemory fun _ => .markDirty (.bind borrows_sbSync fun _ => .brelse (.unlock ?_))
      exact .unlock (k := pure) (.ret _)

theorem borrows_getAFreeblock : Borrows [] simplefsSbGetAFreeblock := by
  refine .lock fun i => ?_
  cases i with
  | true => exact .unlock (.ret _)
  | false =>
    refine .inMemory fun r => ?_
    cases r with
    | none => exact .unlock (.ret _)
    | some b => exact .bind borrows_sbSync fun _ => .unlock (.ret _)

theorem borrows_getObjectsCount : Borrows [] simplefsSbGetObjectsCount := by
  refine .lock fun i => ?_
  cases i with
  | true => exact .ret _
  | false => exact .read fun _ => .unlock (.ret _)

theorem borrows_getInode (ino : BitVec 64) : Borrows [] (simplefsGetInode ino) := by
  refine .bread (.lock fun i => ?_)
  cases i with
  | true => exact .ret _
  | false => exact .inMemory fun _ => .unlock (.brelse (.ret _))

theorem borrows_inodeSave (d : Nat) : Borrows [] (simplefsInodeSave d) := by
  refine .bread (.lock fun i => ?_)
  cases i with
  | true => exact .ret _
  | false =>
    refine .inMemory fun r => ?_
    cases r with
    | true => exact .markDirty (.syncDirty (.brelse (.unlock (.ret _))))
    | false => exact .unlock (.ret _)

theorem borrows_iterate (d pos : Nat) : Borrows [] (simplefsIterate d pos) := by
  refine .read fun b => ?_
  cases b with
  | true => exact .read fun _ => .bread (.inMemory fun _ => .brelse (.ret _))
  | false => exact .inMemory (k := pure) fun _ => .ret _

theorem borrows_read (d ppos len : Nat) (userOk : Bool) :
    Borrows [] (simplefsRead d ppos len userOk) := by
  refine .read fun b => ?_
  cases b with
  | true => exact .read fun _ => .bread (.inMemory fun _ => .brelse (.ret _))
  | false => exact .inMemory (k := pure) fun _ => .ret _

theorem borrows_write (d ppos : Nat) (data : List UInt8) (copied : Nat) :
    Borrows [] (simplefsWrite d ppos data copied) := by
  refine .read fun bh => .bread (.inMemory fun r => ?_)
  cases r with
  | false => exact .brelse (.ret _)
  | true =>
    refine .markDirty (.syncDirty (.brelse (.lock fun i => ?_)))
    cases i with
    | true => exact .ret _
    | false => exact .inMemory fun _ => .bind (borrows_inodeSave d) fun _ => .unlock (.ret _)

theorem borrows_create (p : Nat) (name : Name) (mode : BitVec 16) :
    Borrows [] (simplefsCreateFsObject p name mode) := by
  refine .inMemory fun _ => .lock fun i => ?_
  cases i with
  | true => exact .ret _
  | false =>
    refine .bind borrows_getObjectsCount fun r => ?_
    cases r with
    | error ret => exact .unlock (.ret _)
    | ok count =>
      simp only
      split
      · exact .unlock (.ret _)
      split
      · exact .unlock (.ret _)
      refine .inMemory fun ino => .bind borrows_getAFreeblock fun r => ?_
      cases r with
      | error ret => exact .unlock (.ret _)
      | ok blk =>
        refine .bind (borrows_inodeAdd _) fun _ => .read fun bh => .bread (.inMemory fun _ => ?_)
        refine .markDirty (.syncDirty (.brelse (.lock fun i => ?_)))
        cases i with
        | true => exact .unlock (.ret _)
        | false =>
          refine .inMemory fun _ => .bind (borrows_inodeSave p) fun ret => ?_
          split
          · exact .unlock (.unlock (.ret _))
          · exact .unlock (.unlock (.inMemory fun _ => .ret _))

theorem borrows_unlink (e : Nat) : Borrows [] (vfsUnlink e) := by
  refine .bind ?_ fun ret => ?_
  · refine .read fun bh => .bread (.inMemory fun r => .markDirty (.syncDirty (.brelse ?_)))
    exact .bind (borrows_inodeSave r.1) fun _ => .bind (borrows_inodeDel r.2) fun _ => .ret _
  · split
    · exact .inMemory (k := pure) fun _ => .ret _
    · exact .ret _

theorem borrows_lookup (p : Nat) (name : Name) : Borrows [] (simplefsLookup p name) := by
  refine .inMemory fun r => ?_
  cases r with
  | none => exact .ret _
  | some ino =>
    refine .bind (borrows_getInode ino) fun r => ?_
    cases r with
    | none => exact .ret _
    | some v => exact .inMemory fun _ => .ret _

theorem borrows_fillSuper : Borrows [] simplefsFillSuper := by
  refine .bread (.read fun b => ?_)
  cases b with
  | true => exact .brelse (.ret _)
  | false =>
    refine .read fun b => ?_
    cases b with
    | true => exact .brelse (.ret _)
    | false =>
      refine .bread (.inMemory fun _ => .brelse (.bind (borrows_getInode _) fun r => ?_))
      cases r with
      | none => exact .inMemory (k := pure) fun _ => .ret _
      | some v => exact .inMemory fun _ => .brelse (.ret _)

theorem borrows_discard {α : Type} {p : BufCode α} (h : Borrows [] p) : Borrows [] (discard p) :=
  .bind h fun _ => .ret _

end Buf

/-- **No call gives back a buffer that it does not hold**, interrupted or not. -/
theorem Op.borrows (op : Op) : Buf.Borrows [] op.bufCode := by
  cases op with
  | iterate d pos => exact Buf.borrows_discard (Buf.borrows_iterate d pos)
  | lookup p name => exact Buf.borrows_discard (Buf.borrows_lookup p name)
  | create p name mode => exact Buf.borrows_discard (Buf.borrows_create p name mode)
  | mkdir p name mode => exact Buf.borrows_discard (Buf.borrows_create p name (0x4000 ||| mode))
  | unlink e => exact Buf.borrows_unlink e
  | read d ppos len userOk => exact Buf.borrows_discard (Buf.borrows_read d ppos len userOk)
  | write d ppos data copied => exact Buf.borrows_discard (Buf.borrows_write d ppos data copied)
  | release d => exact .inMemory (k := pure) fun _ => .ret _

/-- No buffer has lost more references than it was given. -/
def BufSys.Counted (s : BufSys) : Prop :=
  ∀ c, s.mnt = .mounted c → ∀ b, 0 ≤ c.refs b

theorem Buf.refs_iff {c : Buf} : Prog.Refs (fun _ => 0) [] c ↔ ∀ b, 0 ≤ c.refs b :=
  forall_congr' fun b => by rw [List.count_nil, Int.natCast_zero, Int.add_zero]

/-- **One step.** -/
theorem PowerStep.counted {s s' : BufSys} (hstep : PowerStep s s') (h : s.Counted) :
    s'.Counted := by
  cases hstep with
  | @mount lk lk' disk past c ret intr hpass =>
    have hblank : Prog.Refs (fun _ => 0) [] (Buf.blank disk past) :=
      Buf.refs_iff.mpr fun _ => Int.le_refl 0
    have hend := Prog.wpc_returns hpass (Buf.borrows_fillSuper intr _ _ hblank)
    intro c' hc'
    split at hc'
    · cases hc'
      exact Buf.refs_iff.mp hend
    · cases hc'
  | umount => exact fun c hc => by cases hc
  | @call lk lk' c c' op intr ha hpass =>
    have hend := Prog.wpc_returns hpass (op.borrows intr _ c (Buf.refs_iff.mpr (h c rfl)))
    rintro _ ⟨⟩
    exact Buf.refs_iff.mp hend
  | @background lk c c' hbg =>
    rintro _ ⟨⟩
    exact Buf.refs_iff.mp (Prog.refs_stable _ _ _ (Buf.refs_iff.mpr (h c rfl)) hbg)
  | fail => exact fun c hc => by cases hc
  | failOffline => exact fun c hc => by cases hc
  | failIn => exact fun c hc => by cases hc

theorem PowerRun.counted {s s' : BufSys} (hrun : PowerRun s s') (h : s.Counted) : s'.Counted := by
  induction hrun with
  | refl => exact h
  | tail _ hstep ih => exact hstep.counted ih

/-- **No buffer is given back that is not held**, in a state of any run or at any point of a call,
whatever is interrupted and wherever the power has failed before. -/
theorem PowerRun.refs_nonneg {lk lk' : LockState Lock} {disk : Nat → Block} {c : Buf}
    (hrun : PowerRun ⟨lk, .offline disk⟩ ⟨lk', .mounted c⟩) :
    (∀ b, 0 ≤ c.refs b) ∧ ∀ (op : Op) intr y,
      Passes intr Buf.Background ⟨op.bufCode, lk', c⟩ y → ∀ b, 0 ≤ y.state.refs b := by
  have h : ∀ b, 0 ≤ c.refs b := hrun.counted (fun c hc => by cases hc) c rfl
  refine ⟨h, fun op intr y hpass => ?_⟩
  have hwpc := op.borrows intr _ c (Buf.refs_iff.mpr h)
  exact Buf.refs_iff.mp (Prog.wpc_here (Prog.wpc_passes hpass hwpc))

end Simplefs
