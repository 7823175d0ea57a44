/-
# What a simplefs is for

A volume is a tree of named files and directories, the files that are still open after their
name has gone, and the room that is left for new ones.  There are no blocks, records, slots,
bitmaps, caches or locks in it: `Refinement.lean` shows that the code below never does anything
but what is said here.

Four things are as the code has them and not as one would wish: a read begins at the start of
the file wherever its position is, a listing starts over only at position 0, a write makes
its own end the end of the file, and what a failed write has left in a file is there until an
unmount and not after it.
-/
import Mathlib.Order.Interval.Finset.Nat
import Simplefs.Calls
import Simplefs.Lib.FileTree
import Simplefs.Lib.Refine

namespace Simplefs

/-! ## 1. Volumes -/

/-- What a file holds: its size, and the bytes it has room for.  The bytes beyond the size come
back when a write behind them makes the file longer. -/
@[ext] structure FileData where
  size : Nat
  bytes : Nat → UInt8

/-- Directories and files, by number. -/
abbrev Tree := FileTree Nat Name (BitVec 32) FileData

/-- A volume.  `gone` are the files without a name that someone has still open.  `kept` is what an
unmount puts back into a file: the bytes from before its last writes, if these have failed. -/
@[ext] structure Volume where
  tree : Tree
  gone : Nat → Option FileData
  room : Nat
  kept : Nat → Option (Nat → UInt8)

/-- What a file is called by: its number, or, once it has no name, the handle that is open. -/
inductive Handle where
  | node (i : Nat)
  | gone (e : Nat)
  deriving DecidableEq

/-- The file of a handle. -/
def Volume.fileAt (v : Volume) : Handle → Option FileData
  | .node i =>
    match v.tree i with
    | some (.file _ data) => some data
    | _ => none
  | .gone e => v.gone e

/-! ## 2. What can be asked, and what is answered -/

/-- A request.  The `e` of `unlink` is the handle that the file stays open under. -/
inductive Request where
  | list (d pos : Nat)
  | lookup (d : Nat) (name : Name)
  | create (d : Nat) (name : Name) (mode : BitVec 16)
  | unlink (d : Nat) (name : Name) (e : Nat)
  | read (f : Handle) (ppos len : Nat) (userOk : Bool)
  | write (i ppos : Nat) (data : List UInt8) (copied : Nat)
  | release (e : Nat)
  | mount
  | umount

/-- An answer: a status, a position and what a directory holds, a file that is found or not, or
bytes and a position. -/
inductive Reply where
  | status (ret : Int)
  | listed (pos : Nat) (found : List (Name × Nat))
  | found (i : Option Nat)
  | bytes (r : Except Int (List UInt8)) (pos : Nat)
  | written (ret : Int) (pos : Nat)

/-- What is created: an empty directory, or an empty file. -/
def newNode (mode : BitVec 32) : FileNode Nat Name (BitVec 32) FileData :=
  if isDir mode then .dir mode fun _ => none else .file mode ⟨0, fun _ => 0⟩

/-- What a read answers. -/
def FileData.read (f : FileData) (ppos len : Nat) (userOk : Bool) :
    Except Int (List UInt8) × Nat :=
  if f.size ≤ ppos then (.ok [], ppos)
  else if userOk then
    (.ok ((List.range (min f.size len)).map f.bytes), ppos + min f.size len)
  else (.error (- EFAULT), ppos)

/-- What a write answers, and what it leaves in the file.  A buffer that cannot be read to its
end leaves zeros in place of the rest, and the size as it was. -/
def FileData.write (f : FileData) (ppos : Nat) (data : List UInt8) (copied : Nat) :
    (Int × Nat) × FileData :=
  let bytes := fun off =>
    if ppos ≤ off ∧ off < ppos + data.length then (copiedBytes data copied).getD (off - ppos) 0
    else f.bytes off
  if copied < data.length then ((- EFAULT, ppos), ⟨f.size, bytes⟩)
  else ((data.length, ppos + data.length), ⟨ppos + data.length, bytes⟩)

theorem FileData.size_write (f : FileData) (ppos : Nat) (data : List UInt8) (copied : Nat) :
    (f.write ppos data copied).2.size =
      if copied < data.length then f.size else ppos + data.length := by
  rw [FileData.write]
  split <;> rfl

theorem FileData.bytes_write (f : FileData) (ppos : Nat) (data : List UInt8) (copied off : Nat) :
    (f.write ppos data copied).2.bytes off =
      if ppos ≤ off ∧ off < ppos + data.length then (copiedBytes data copied).getD (off - ppos) 0
      else f.bytes off := by
  rw [FileData.write]
  split <;> rfl

/-- A file with the bytes that were kept for it. -/
def FileData.restored (f : FileData) (kept : Option (Nat → UInt8)) : FileData :=
  ⟨f.size, kept.getD f.bytes⟩

/-- The volume after an unmount. -/
def Volume.atRest (v : Volume) : Volume :=
  ⟨v.tree.mapData fun i data => data.restored (v.kept i), fun _ => none, v.room, fun _ => none⟩

/-- A listing of a directory: every name once. -/
structure Lists (entries : Name → Option Nat) (found : List (Name × Nat)) : Prop where
  nodup : (found.map Prod.fst).Nodup
  mem_iff : ∀ name i, (name, i) ∈ found ↔ entries name = some i

/-! ## 3. What a request does -/

/-- A mode that can be created. -/
def Creatable (mode : BitVec 32) : Prop := isDir mode = true ∨ isReg mode = true

/-- What a volume does. -/
inductive Volume.Step (v : Volume) : Request × Reply → Volume → Prop
  | list {d : Nat} {entries : Name → Option Nat} {found : List (Name × Nat)}
      (hd : v.tree.DirAt d entries) (hl : Lists entries found) :
      Step v (.list d 0, .listed (264 * found.length) found) v
  | listEnd {d pos : Nat} {entries : Name → Option Nat} (hd : v.tree.DirAt d entries)
      (hpos : pos ≠ 0) : Step v (.list d pos, .listed pos []) v
  | lookup {d : Nat} {name : Name} {entries : Name → Option Nat} (hd : v.tree.DirAt d entries) :
      Step v (.lookup d name, .found (entries name)) v
  | create {d i : Nat} {name : Name} {mode : BitVec 16} {entries : Name → Option Nat}
      (hd : v.tree.DirAt d entries) (hname : entries name = none) (hi : v.tree i = none)
      (hmode : Creatable (mode.setWidth 32)) (hroom : 0 < v.room) :
      Step v (.create d name mode, .status 0)
        ⟨v.tree.link d name i (newNode (mode.setWidth 32)), v.gone, v.room - 1, v.kept⟩
  | createMode {d : Nat} {name : Name} {mode : BitVec 16}
      (hmode : ¬ Creatable (mode.setWidth 32)) :
      Step v (.create d name mode, .status (- EINVAL)) v
  | createFull {d : Nat} {name : Name} {mode : BitVec 16}
      (hmode : Creatable (mode.setWidth 32)) (hroom : v.room = 0) :
      Step v (.create d name mode, .status (- ENOSPC)) v
  | unlink {d i e : Nat} {name : Name} {entries : Name → Option Nat} {data : FileData}
      (hd : v.tree.DirAt d entries) (hname : entries name = some i)
      (hfile : v.fileAt (.node i) = some data) :
      Step v (.unlink d name e, .status 0)
        ⟨v.tree.unlink d name i, Function.update v.gone e (some data), v.room,
          Function.update v.kept i none⟩
  | read {f : Handle} {ppos len : Nat} {userOk : Bool} {data : FileData}
      (hfile : v.fileAt f = some data) :
      Step v (.read f ppos len userOk,
        .bytes (data.read ppos len userOk).1 (data.read ppos len userOk).2) v
  | write {i ppos copied : Nat} {bytes : List UInt8} {data : FileData}
      (hfile : v.fileAt (.node i) = some data) :
      Step v (.write i ppos bytes copied,
          .written (data.write ppos bytes copied).1.1 (data.write ppos bytes copied).1.2)
        ⟨v.tree.setData i (data.write ppos bytes copied).2, v.gone, v.room,
          Function.update v.kept i
            (if copied < bytes.length then some ((v.kept i).getD data.bytes) else none)⟩
  | release {e : Nat} :
      Step v (.release e, .status 0) ⟨v.tree, Function.update v.gone e none, v.room, v.kept⟩
  | mount : Step v (.mount, .status 0) v
  | umount : Step v (.umount, .status 0) v.atRest

/-- The runs of volumes. -/
abbrev Volume.Run : Volume → List (Request × Reply) → Volume → Prop :=
  Trace Volume.Step

/-! ## 4. Room -/

/-- The creates that succeed, one by one. -/
def created : Request × Reply → Nat
  | (.create _ _ _, .status ret) => if ret = 0 then 1 else 0
  | _ => 0

/-- **Each create that succeeds takes one of the places that are left**, and nothing gives one
back. -/
theorem Volume.Step.room {v v' : Volume} {l : Request × Reply} (h : v.Step l v') :
    v'.room + created l = v.room := by
  cases h with
  | create hd hname hi hmode hroom =>
    exact Nat.sub_add_cancel hroom
  | createMode hmode => rfl
  | createFull hmode hroom => rfl
  | _ => rfl

theorem Volume.Run.room {v v' : Volume} {ls : List (Request × Reply)} (h : v.Run ls v') :
    v'.room + (ls.map created).sum = v.room :=
  Trace.measure (fun _ _ _ => Volume.Step.room) h

end Simplefs
