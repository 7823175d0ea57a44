/-
# The system: what the VFS may call, and runs

`Op` is one call of the VFS into simplefs, and `Op.Allowed` is what the VFS promises before it
makes that call: the dentries it passes exist and are of the right kind, a name is only created
after a lookup found it absent, only regular files are unlinked, and a dentry is only released
when it is no other dentry's parent.  A system is the module's locks, which outlive a mount, and
a device, mounted or not.

`Op.Defined` names the cases that the source handles: the parent's cache has been built, there
is a free record for a new name, a name fits its field, a write stays inside its block and goes
to a file that is still linked.  Each of them is a property of its own elsewhere; the runs of
`DefinedStep` stay inside all of them and are not interrupted.
-/
import Simplefs.Ops

namespace Simplefs

open Prog (step run LockState Ending)

/-! ## 1. Calls -/

/-- A call of the VFS.  `d`, `p` and `e` are dentries: of a file or directory, of the directory
the call works in, and of the file to be unlinked. -/
inductive Op where
  | iterate (d pos : Nat)
  | lookup (p : Nat) (name : Name)
  | create (p : Nat) (name : Name) (mode : BitVec 16)
  | mkdir (p : Nat) (name : Name) (mode : BitVec 16)
  | unlink (e : Nat)
  | read (d ppos len : Nat) (userOk : Bool)
  | write (d ppos : Nat) (data : List UInt8) (copied : Nat)
  | release (d : Nat)

/-- `d_delete`, after a successful unlink: the dentry is unhashed. -/
def dDelete (e : Nat) (fs : Fs) : Except Fault (Unit × Fs) := do
  let y ← fs.dentry e
  return ((), fs.setDentry e { y with linked := false })

/-- `vfs_unlink`: `simplefs_unlink`, and `d_delete` if it succeeded. -/
def vfsUnlink (e : Nat) : Code Unit := do
  let ret ← simplefsUnlink e
  if ret = 0 then
    step (dDelete e)

/-- The program a call runs. -/
def Op.code : Op → Code Unit
  | .iterate d pos => do discard (simplefsIterate d pos)
  | .lookup p name => do discard (simplefsLookup p name)
  | .create p name mode => do discard (simplefsCreate p name mode)
  | .mkdir p name mode => do discard (simplefsMkdir p name mode)
  | .unlink e => vfsUnlink e
  | .read d ppos len userOk => do discard (simplefsRead d ppos len userOk)
  | .write d ppos data copied => do discard (simplefsWrite d ppos data copied)
  | .release d => step (dentryRelease d)

/-! ## 2. What the VFS promises -/

/-- Dentry `p` is a linked directory. -/
def Fs.DirAt (fs : Fs) (p : Nat) (x : Dentry) : Prop :=
  fs.dentries p = some x ∧ x.linked = true ∧ isDir x.inode.mode = true

/-- No linked dentry has this name in directory `p`.  The root is nobody's child. -/
def Fs.NoChild (fs : Fs) (p : Nat) (name : Name) : Prop :=
  ∀ e y, e ≠ 0 → fs.dentries e = some y → y.linked = true → y.parent = p → y.name ≠ name

/-- A lookup of the name in `p` finds nothing: neither among the dentries nor in the cache. -/
def Fs.Absent (fs : Fs) (p : Nat) (name : Name) : Prop :=
  ∃ x, fs.DirAt p x ∧ fs.NoChild p name ∧
    ∀ c, x.fsdata = some c → usedCacheEntryGet c name = none

/-- The state in which the VFS may make a call. -/
def Op.Allowed (fs : Fs) : Op → Prop
  | .iterate d _ => ∃ x, fs.DirAt d x
  | .lookup p name => ∃ x, fs.DirAt p x ∧ fs.NoChild p name
  | .create p name _ => fs.Absent p name
  | .mkdir p name _ => fs.Absent p name
  | .unlink e => e ≠ 0 ∧ ∃ y, fs.dentries e = some y ∧ y.linked = true ∧ isReg y.inode.mode = true
  | .read d _ _ _ => ∃ x, fs.dentries d = some x ∧ isReg x.inode.mode = true
  | .write d _ _ _ => ∃ x, fs.dentries d = some x ∧ isReg x.inode.mode = true
  | .release d => d ≠ 0 ∧ (∃ x, fs.dentries d = some x) ∧
      ∀ e y, fs.dentries e = some y → y.parent ≠ d

/-- The directory a call works in.  The VFS holds the lock of its inode for the whole call. -/
def Op.WorksIn (fs : Fs) (d : Nat) : Op → Prop
  | .iterate e _ => e = d
  | .lookup p _ => p = d
  | .create p _ _ => p = d
  | .mkdir p _ _ => p = d
  | .unlink e => ∃ y, fs.dentries e = some y ∧ y.parent = d
  | _ => False

/-- The directory cache of `p` has been built. -/
def Fs.CacheBuilt (fs : Fs) (p : Nat) : Prop :=
  ∃ x c, fs.dentries p = some x ∧ x.fsdata = some c

/-- The cache of `p` has been built and holds a free entry. -/
def Fs.HasFreeEntry (fs : Fs) (p : Nat) : Prop :=
  ∃ x c, fs.dentries p = some x ∧ x.fsdata = some c ∧ c.free ≠ []

/-- The cases the source handles. -/
def Op.Defined (fs : Fs) : Op → Prop
  | .lookup p _ => fs.CacheBuilt p
  | .create p name _ => fs.HasFreeEntry p ∧ name.bytes.length ≤ 255
  | .mkdir p name _ => fs.HasFreeEntry p ∧ name.bytes.length ≤ 255
  | .unlink e => ∀ y, fs.dentries e = some y → fs.CacheBuilt y.parent
  | .write d ppos data _ =>
    ppos + data.length ≤ 4096 ∧ ∀ x, fs.dentries d = some x → x.linked = true
  | _ => True

/-- When a thread may start a call: the VFS allows it, it is one of the cases the source
handles, and no other thread works in its directory. -/
def vfsAdmit (T : Type) : Prog.Admit Fs Progress Lock Site Fault Unit T :=
  fun fs published p w => ∃ op d, p = Op.code op ∧ op.WorksIn fs d ∧ op.Allowed fs ∧
    op.Defined fs ∧ w = .start d ∧ ∀ t o, published t = some o → o.dir ≠ d

/-! ## 3. Systems and runs -/

/-- A device, mounted or not. -/
inductive Mount where
  | offline (dev : Device)
  | mounted (fs : Fs)

/-- The module's locks and the device. -/
structure Sys where
  locks : LockState Lock
  mnt : Mount

/-- The device of a system. -/
def Sys.dev (s : Sys) : Device :=
  match s.mnt with
  | .offline dev => dev
  | .mounted fs => fs.dev

/-- What happens next: a mount, with whatever word happens to lie past the inode store's
buffer, an unmount, or a call with the acquisitions that a signal interrupts. -/
inductive Event where
  | mount (past : BitVec 64)
  | umount
  | call (op : Op) (intr : Site → Bool)

/-- A signal never arrives. -/
def quiet : Site → Bool := fun _ => false

/-- The state `simplefs_fill_super` starts from. -/
def Fs.blank (dev : Device) (past : BitVec 64) : Fs :=
  ⟨dev, 0, fun _ => none, 0, past, fun _ => none⟩

/-- The system after an event; `none` if it does not return from it, or if the event makes no
sense (a call on a device that is not mounted).  A failed mount leaves the device unmounted; an
unmount writes back every buffer that is marked dirty and drops everything else. -/
def Event.apply : Event → Sys → Option Sys
  | .mount past, ⟨lk, .offline dev⟩ =>
    match run quiet simplefsFillSuper lk (Fs.blank dev past) with
    | (.returned ret fs, lk') => some ⟨lk', if ret = 0 then .mounted fs else .offline dev⟩
    | _ => none
  | .umount, ⟨lk, .mounted fs⟩ => some ⟨lk, .offline fs.flushed⟩
  | .call op intr, ⟨lk, .mounted fs⟩ =>
    match run intr op.code lk fs with
    | (.returned _ fs', lk') => some ⟨lk', .mounted fs'⟩
    | _ => none
  | _, _ => none

/-- The VFS may let the event happen. -/
def Event.Allowed (ev : Event) (s : Sys) : Prop :=
  ∀ op intr fs, ev = .call op intr → s.mnt = .mounted fs → op.Allowed fs

/-- The event is not interrupted and stays in the cases the source handles. -/
def Event.Defined (ev : Event) (s : Sys) : Prop :=
  ∀ op intr fs, ev = .call op intr → s.mnt = .mounted fs → intr = quiet ∧ op.Defined fs

/-- One uninterrupted step inside the defined cases. -/
def DefinedStep (s s' : Sys) : Prop :=
  ∃ ev : Event, ev.Allowed s ∧ ev.Defined s ∧ ev.apply s = some s'

/-- The states that the uninterrupted runs inside the defined cases reach. -/
def DefinedRun : Sys → Sys → Prop := Relation.ReflTransGen DefinedStep

end Simplefs
