/-
# The operations of `simple.c`

Each function of the source is a program (`Prog.lean`): the code between two lock operations
is one piece of straight-line code, and each `mutex_lock_interruptible` is a node with its own
site, so that every error path of the source is a path of the program.  Allocations succeed
and `sb_bread` returns its buffer.  Where the source runs into undefined behaviour the piece of
code is an error.

The pieces come first, then the functions, in the order of the source.
-/
import Simplefs.State

namespace Simplefs

open Prog (step stepObs read lock unlock)

/-! ## 1. Error codes -/

abbrev EPERM : Int := 1
abbrev ENOENT : Int := 2
abbrev EINTR : Int := 4
abbrev EIO : Int := 5
abbrev EFAULT : Int := 14
abbrev EINVAL : Int := 22
abbrev ENOSPC : Int := 28

/-! ## 2. The inode store and the superblock -/

/-- `simplefs_inode_search`: the loop stops at the first slot that matches or after 128 of
them, and then compares once more, which after 128 reads the word past the buffer. -/
def simplefsInodeSearch (slot : Nat → SfsInode) (past : BitVec 64) (search : BitVec 64) :
    Option Nat :=
  match (List.range slotsPerBlock).find? fun i => (slot i).inodeNo == search with
  | some i => some i
  | none => if past = search then some slotsPerBlock else none

/-- The slot of an inode number. -/
def slotIndex (ino : BitVec 64) : Nat := (ino - 1).toNat

/-- The slot that `start += inode_no - 1` points at.  A slot has 32 bytes, and addresses are taken
modulo `2 ^ 64`. -/
def slotAt (ino : BitVec 64) : Nat := slotIndex ino % 2 ^ 59

/-- The number of a slot leads there. -/
theorem slotAt_of_lt {ino : BitVec 64} (h : slotIndex ino < slotsPerBlock) :
    slotAt ino = slotIndex ino :=
  Nat.mod_eq_of_lt (Nat.lt_trans h (by decide))

/-- `simplefs_inode_add`, inside its two locks. -/
def addInode (inode : SfsInode) (fs : Fs) : Except Fault (Unit × Fs) :=
  if slotAt inode.inodeNo < slotsPerBlock then
    if inode.inodeNo.toNat < 64 then
      let dev := fs.dev.setSlot (slotAt inode.inodeNo) inode
      .ok ((), { fs with
        dev := dev.setInodesCount (dev.inodesCount + 1)
        imap := setBit fs.imap inode.inodeNo.toNat })
    else .error .outOfImap
  else .error .outOfBlock

/-- `simplefs_inode_add`. -/
def simplefsInodeAdd (inode : SfsInode) : Code Unit := do
  if ← lock .addMgmt .inodesMgmt then
    return
  if ← lock .addSb .sb then
    return
  stepObs (addInode inode) fun _ w => { w with added := true }
  unlock .sb
  unlock .inodesMgmt

/-- `simplefs_inode_del`, inside its two locks; of the inode it only reads the number. -/
def delInode (ino : BitVec 64) (fs : Fs) : Except Fault (Unit × Fs) :=
  if slotAt ino < slotsPerBlock then
    if ino.toNat < 64 then
      let dev := fs.dev.clearSlot (slotAt ino)
      .ok ((), { fs with
        dev := dev.setInodesCount (dev.inodesCount - 1)
        imap := clearBit fs.imap ino.toNat })
    else .error .outOfImap
  else .error .outOfBlock

/-- `simplefs_inode_del`. -/
def simplefsInodeDel (ino : BitVec 64) : Code Unit := do
  if ← lock .delMgmt .inodesMgmt then
    return
  if ← lock .delSb .sb then
    return
  step (delInode ino)
  unlock .sb
  unlock .inodesMgmt

/-- `simplefs_sb_get_a_freeblock`, inside its lock. -/
def takeFreeBlock (fs : Fs) : Except Fault (Option Nat × Fs) :=
  match freeBlockScan fs.dev.freeBlocks with
  | some i =>
    .ok (some i, { fs with dev := fs.dev.setFreeBlocks (takeBlock fs.dev.freeBlocks i) })
  | none => .ok (none, fs)

/-- `simplefs_sb_get_a_freeblock`: `*out`, or the error.  An interrupted acquisition goes to
`end`, which unlocks all the same.  A create that gets no block is over: it publishes that it
gives its inode number up. -/
def simplefsSbGetAFreeblock : Code (Except Int Nat) := do
  if ← lock .getAFreeblock .sb then
    unlock .sb
    return .error (-EINTR)
  match ← stepObs takeFreeBlock fun r w => { w with ino := r.bind fun _ => w.ino, blk := r } with
  | none =>
    unlock .sb
    return .error (-ENOSPC)
  | some i =>
    unlock .sb
    return .ok i

/-- `simplefs_sb_get_objects_count`: `*out`, or the error. -/
def simplefsSbGetObjectsCount : Code (Except Int (BitVec 64)) := do
  if ← lock .getObjectsCount .inodesMgmt then
    return .error (-EINTR)
  let out ← read fun fs => fs.dev.inodesCount
  unlock .inodesMgmt
  return .ok out

/-! ## 3. Listing a directory -/

/-- `simplefs_iterate`: build the cache if there is none, then, from position 0, hand every used
entry's record to `dir_emit`.  Returns the new position and the records handed over. -/
def iterate (d pos : Nat) (fs : Fs) : Except Fault ((Nat × List DirRecord) × Fs) := do
  let x ← fs.dentry d
  let c := match x.fsdata with
    | some c => c
    | none => dirCacheBuild simplefsCacheAlloc (fs.dev.record x.inode.block)
  let fs := fs.setDentry d { x with fsdata := some c }
  if pos ≠ 0 then
    return ((pos, []), fs)
  return ((pos + 264 * c.used.length, c.used.map CacheEntry.record), fs)

/-- `simplefs_iterate`. -/
def simplefsIterate (d pos : Nat) : Code (Nat × List DirRecord) := step (iterate d pos)

/-! ## 4. Fetching and saving an inode -/

/-- `simplefs_get_inode`, inside its lock. -/
def readInode (ino : BitVec 64) (fs : Fs) : Except Fault (SfsInode × Fs) :=
  if slotAt ino < slotsPerBlock then .ok (fs.dev.slot (slotAt ino), fs)
  else .error .outOfBlock

/-- `simplefs_get_inode`; `none` is `NULL`. -/
def simplefsGetInode (ino : BitVec 64) : Code (Option SfsInode) := do
  if ← lock .getInode .inodesMgmt then
    return none
  let inode ← step (readInode ino)
  unlock .inodesMgmt
  return some inode

/-- `simplefs_inode_save`, inside its lock, of the private inode of dentry `d`: whether the
search found a slot. -/
def saveInode (d : Nat) (fs : Fs) : Except Fault (Bool × Fs) := do
  let x ← fs.dentry d
  match simplefsInodeSearch fs.dev.slot fs.past x.inode.inodeNo with
  | some i =>
    if i < slotsPerBlock then
      return (true, { fs with dev := fs.dev.setSlot i x.inode })
    else .error .outOfBlock
  | none => return (false, fs)

/-- `simplefs_inode_save`. -/
def simplefsInodeSave (d : Nat) : Code Int := do
  if ← lock .save .sb then
    return -EINTR
  if ← step (saveInode d) then
    unlock .sb
    return 0
  unlock .sb
  return - EIO

/-! ## 5. Reading and writing a file -/

/-- `simplefs_read`: the bytes copied out, or the error; and the new `*ppos`.  `userOk` says
whether `copy_to_user` succeeds. -/
def readFile (d ppos len : Nat) (userOk : Bool) (fs : Fs) :
    Except Fault ((Except Int (List UInt8) × Nat) × Fs) := do
  let x ← fs.dentry d
  if x.inode.fileSize.toNat ≤ ppos then
    return ((.ok [], ppos), fs)
  let nbytes := min x.inode.fileSize.toNat len
  if 4096 < nbytes then .error .outOfBlock
  else if userOk then
    return ((.ok ((List.range nbytes).map (fs.dev.byte x.inode.block)), ppos + nbytes), fs)
  else return ((.error (-EFAULT), ppos), fs)

/-- `simplefs_read`. -/
def simplefsRead (d ppos len : Nat) (userOk : Bool) : Code (Except Int (List UInt8) × Nat) :=
  step (readFile d ppos len userOk)

/-- The `copy_from_user` of `simplefs_write`.  The user's buffer can be read up to byte
`copied`; if that is short of its end, the kernel fills the rest with zeros and reports a
fault.  An empty copy touches nothing, wherever it is.  The buffer is only marked dirty and synced
if there is no fault. -/
def copyFromUser (d ppos : Nat) (data : List UInt8) (copied : Nat) (fs : Fs) :
    Except Fault (Bool × Fs) := do
  let x ← fs.dentry d
  if data.length = 0 ∨ ppos + data.length ≤ 4096 then
    let bytes := data.take copied ++ List.replicate (data.length - copied) 0
    let ok := decide (data.length ≤ copied)
    return (ok, { fs with
      dev := fs.dev.putData x.inode.block ppos bytes
      torn := fs.tear x.inode.block ok })
  else .error .outOfBlock

/-- `sfs_inode->file_size = *ppos`. -/
def setFileSize (d size : Nat) (fs : Fs) : Except Fault (Unit × Fs) := do
  let x ← fs.dentry d
  return ((), fs.setDentry d { x with inode := { x.inode with fileSize := BitVec.ofNat 64 size } })

/-- `simplefs_write`: the result and the new `*ppos`. -/
def simplefsWrite (d ppos : Nat) (data : List UInt8) (copied : Nat) : Code (Int × Nat) := do
  if ← step (copyFromUser d ppos data copied) then
    if ← lock .write .inodesMgmt then
      return (-EINTR, ppos + data.length)
    step (setFileSize d (ppos + data.length))
    let retval ← simplefsInodeSave d
    unlock .inodesMgmt
    return (if retval = 0 then data.length else retval, ppos + data.length)
  else
    return (-EFAULT, ppos)

/-! ## 6. Creating -/

/-- `BUG_ON(!dir_cache)`. -/
def bugOnNoCache (p : Nat) (fs : Fs) : Except Fault (Unit × Fs) := do
  let x ← fs.dentry p
  if x.fsdata.isSome then return ((), fs) else .error .bugOn

/-- `inode->i_ino = ffz(sb_info->imap)`. -/
def pickInodeNumber (fs : Fs) : Except Fault (Nat × Fs) :=
  match ffz fs.imap with
  | some k => .ok (k, fs)
  | none => .error .outOfImap

/-- Take a free entry, write the record it stands for, copy the record into the entry and move
it to the used list.  `strcpy` stops at the name's end, wherever that is; the buffer ends at
4096. -/
def addRecord (p : Nat) (name : Name) (ino : BitVec 64) (fs : Fs) : Except Fault (Unit × Fs) := do
  let x ← fs.dentry p
  match x.fsdata with
  | none => .error .nullCache
  | some c =>
    match freeCacheEntryGet c with
    | none => .error .emptyFreeList
    | some e =>
      if e.entryNo < recordsPerBlock ∧ 264 * e.entryNo + name.bytes.length + 1 ≤ 4096 then
        let dev := fs.dev.putRecord x.inode.block e.entryNo ino name.bytes
        let e' : CacheEntry := ⟨dev.record x.inode.block e.entryNo, e.entryNo⟩
        let c' : DirCache :=
          ⟨c.dirChildrenCount, cacheEntryInsert c.used e', listDel e c.free⟩
        return ((), { fs with dev := dev }.setDentry p { x with fsdata := some c' })
      else .error .outOfBlock

/-- `parent_dir_inode->dir_children_count++`. -/
def countChild (p : Nat) (fs : Fs) : Except Fault (Unit × Fs) := do
  let x ← fs.dentry p
  return ((), fs.setDentry p { x with inode := { x.inode with fileSize := x.inode.fileSize + 1 } })

/-- `d_add(dentry, inode)`. -/
def attach (p : Nat) (name : Name) (inode : SfsInode) (fs : Fs) : Except Fault (Unit × Fs) :=
  .ok ((), fs.dAdd p name inode)

/-- `simplefs_create_fs_object`, in the directory of dentry `p`. -/
def simplefsCreateFsObject (p : Nat) (name : Name) (mode : BitVec 16) : Code Int := do
  step (bugOnNoCache p)
  if ← lock .createChildren .childrenUpdate then
    return -EINTR
  match ← simplefsSbGetObjectsCount with
  | .error ret =>
    unlock .childrenUpdate
    return ret
  | .ok count =>
    if maxObjects ≤ count.toNat then
      unlock .childrenUpdate
      return -ENOSPC
    if !isDir (mode.setWidth 32) && !isReg (mode.setWidth 32) then
      unlock .childrenUpdate
      return -EINVAL
    let ino ← stepObs pickInodeNumber fun k w => { w with ino := some k }
    match ← simplefsSbGetAFreeblock with
    | .error ret =>
      unlock .childrenUpdate
      return ret
    | .ok blk =>
      let sfsInode : SfsInode := ⟨mode.setWidth 32, BitVec.ofNat 64 ino, BitVec.ofNat 64 blk, 0⟩
      simplefsInodeAdd sfsInode
      step (addRecord p name sfsInode.inodeNo)
      if ← lock .createMgmt .inodesMgmt then
        unlock .childrenUpdate
        return -EINTR
      step (countChild p)
      let ret ← simplefsInodeSave p
      if ret ≠ 0 then
        unlock .inodesMgmt
        unlock .childrenUpdate
        return ret
      unlock .inodesMgmt
      unlock .childrenUpdate
      step (attach p name sfsInode)
      return 0

/-- `simplefs_mkdir`: `S_IFDIR | mode`, as a `umode_t`. -/
def simplefsMkdir (p : Nat) (name : Name) (mode : BitVec 16) : Code Int :=
  simplefsCreateFsObject p name (0x4000 ||| mode)

/-- `simplefs_create`. -/
def simplefsCreate (p : Nat) (name : Name) (mode : BitVec 16) : Code Int :=
  simplefsCreateFsObject p name mode

/-! ## 7. Unlinking -/

/-- `simplefs_unlink` up to its first lock: zero the record, move the entry to the head of the
free list, count the child off in the cache and in the parent's inode.  Returns the parent and
the inode number. -/
def removeRecord (e : Nat) (fs : Fs) : Except Fault ((Nat × BitVec 64) × Fs) := do
  let y ← fs.dentry e
  let x ← fs.dentry y.parent
  match x.fsdata with
  | none => .error .nullCache
  | some c =>
    match usedCacheEntryGet c y.name with
    | none => .error .nullEntry
    | some entry =>
      if entry.entryNo < recordsPerBlock then
        let dev := fs.dev.clearRecord x.inode.block entry.entryNo
        let c' : DirCache := ⟨c.dirChildrenCount - 1, listDel entry c.used, entry :: c.free⟩
        let inode := { x.inode with fileSize := x.inode.fileSize - 1 }
        return ((y.parent, y.inode.inodeNo),
          { fs with dev := dev }.setDentry y.parent { x with fsdata := some c', inode := inode })
      else .error .outOfBlock

/-- `simplefs_unlink`, of dentry `e`: what `simplefs_inode_save` returns is dropped. -/
def simplefsUnlink (e : Nat) : Code Int := do
  let (p, ino) ← step (removeRecord e)
  let _ret ← simplefsInodeSave p
  simplefsInodeDel ino
  return 0

/-! ## 8. Looking up -/

/-- `simplefs_lookup` up to `simplefs_get_inode`: the inode number that the cache gives. -/
def lookupEntry (p : Nat) (name : Name) (fs : Fs) : Except Fault (Option (BitVec 64) × Fs) := do
  let x ← fs.dentry p
  match x.fsdata with
  | none => .error .nullCache
  | some c => return ((usedCacheEntryGet c name).map fun e => e.record.inodeNo, fs)

/-- `simplefs_lookup`: 0 for `NULL`, otherwise the error in the pointer. -/
def simplefsLookup (p : Nat) (name : Name) : Code Int := do
  match ← step (lookupEntry p name) with
  | none => return 0
  | some ino =>
    match ← simplefsGetInode ino with
    | none => return -ENOENT
    | some inode =>
      step (attach p name inode)
      return 0

/-! ## 9. Releasing a dentry, and mounting -/

/-- `simplefs_dentry_release` and the freeing of the dentry after it. -/
def dentryRelease (d : Nat) (fs : Fs) : Except Fault (Unit × Fs) :=
  .ok ((), { fs with dentries := Function.update fs.dentries d none })

/-- The loop of `fill_imap`: slots 0 to 126. -/
def fillImap (slot : Nat → SfsInode) : Except Fault (BitVec 64) :=
  (List.range (slotsPerBlock - 1)).foldlM (fun w i =>
    if (slot i).inodeNo = 0#64 then .ok w
    else if (slot i).inodeNo.toNat < 64 then .ok (setBit w (slot i).inodeNo.toNat)
    else .error .outOfImap) (setBit 0 0)

/-- `fill_imap(sb)`. -/
def fillImapStep (fs : Fs) : Except Fault (Unit × Fs) := do
  let w ← fillImap fs.dev.slot
  return ((), { fs with imap := w })

/-- `d_make_root`. -/
def makeRoot (inode : SfsInode) (fs : Fs) : Except Fault (Unit × Fs) :=
  .ok ((), { fs with
    dentries := Function.update fs.dentries 0 (some ⟨0, ⟨[], Name.noNul_nil⟩, inode, none, true⟩)
    next := 1 })

/-- `simplefs_fill_super`, on a `struct simplefs_sb_info` fresh from `kzalloc`.  If
`simplefs_get_inode` is interrupted the root's private inode is `NULL`, and the first use of it
crashes. -/
def simplefsFillSuper : Code Int := do
  if ← read fun fs => decide (fs.dev.magic ≠ superMagic) then
    return -EPERM
  if ← read fun fs => decide (fs.dev.blockSize ≠ 4096) then
    return -EPERM
  step fillImapStep
  match ← simplefsGetInode (BitVec.ofNat 64 rootInodeNumber) with
  | none => step fun _ => .error .nullEntry
  | some inode =>
    step (makeRoot inode)
    return 0

end Simplefs
