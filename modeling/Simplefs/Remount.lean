/-
# A remount changes nothing

Everything that a mounted simplefs keeps in memory is recomputed by a mount from the device: the
inode bitmap at once, the inodes and the directory caches as they are needed.  `walk` is the
VFS's path walk over the operations themselves; `resolve` is the same path read off the device.
They agree in every state that satisfies the invariant, and the device is the same before and
after a remount.
-/
import Simplefs.Caching

namespace Simplefs

open Prog (run LockState)

/-! ## 1. The path walk -/

/-- `d_lookup`: the linked child of dentry `p` that has this name. -/
def Fs.child (fs : Fs) (p : Nat) (name : Name) : Option Nat :=
  (List.range fs.next).find? fun e =>
    match fs.dentries e with
    | some y => decide (e ≠ 0 ∧ y.linked = true ∧ y.parent = p ∧ y.name = name)
    | none => false

/-- One component: the dentry is there, or the directory is listed and the name looked up. -/
def Fs.lookupChild (fs : Fs) (p : Nat) (name : Name) : Option (Nat × Fs) :=
  match fs.child p name with
  | some e => some (e, fs)
  | none =>
    match run quiet (Op.iterate p 0).code LockState.free fs with
    | (.returned _ fs1, _) =>
      match run quiet (Op.lookup p name).code LockState.free fs1 with
      | (.returned _ fs2, _) => (fs2.child p name).map fun e => (e, fs2)
      | _ => none
    | _ => none

/-- The walk of a path from dentry `p`: the dentry it ends at, and the state afterwards. -/
def Fs.walk : List Name → Nat → Fs → Option (Nat × Fs)
  | [], p, fs => some (p, fs)
  | name :: path, p, fs =>
    match fs.dentries p with
    | some x =>
      if isDir x.inode.mode then
        match fs.lookupChild p name with
        | some (e, fs') => Fs.walk path e fs'
        | none => none
      else none
    | none => none

/-- The inode at the end of a path. -/
def Fs.pathInode (fs : Fs) (path : List Name) : Option SfsInode :=
  (fs.walk path 0).bind fun (e, fs') => (fs'.dentries e).map Dentry.inode

/-- What a read at the end of a path returns. -/
def Fs.pathRead (fs : Fs) (path : List Name) (ppos len : Nat) :
    Option (Except Fault (Except Int (List UInt8) × Nat)) :=
  (fs.walk path 0).map fun (e, fs') => (readFile e ppos len true fs').map Prod.fst

/-- The slot that a path leads to from slot `i`, read off the device. -/
def Device.resolve (dev : Device) : List Name → Nat → Option Nat
  | [], i => some i
  | name :: path, i =>
    if isDir (dev.slot i).mode then
      match dev.scan (dev.slot i).block name with
      | some j => Device.resolve dev path (slotIndex (dev.record (dev.slot i).block j).inodeNo)
      | none => none
    else none

/-! ## 2. Children -/

theorem Fs.child_some {fs : Fs} {p e : Nat} {name : Name} (h : fs.child p name = some e) :
    e ≠ 0 ∧ ∃ y, fs.dentries e = some y ∧ y.linked = true ∧ y.parent = p ∧ y.name = name := by
  have hp := List.find?_some h
  cases hy : fs.dentries e with
  | none =>
    rw [hy] at hp
    cases hp
  | some y =>
    rw [hy] at hp
    obtain ⟨he, hl, hpar, hn⟩ := of_decide_eq_true hp
    exact ⟨he, y, rfl, hl, hpar, hn⟩

theorem Fs.child_none {fs : Fs} (hfresh : ∀ e, fs.next ≤ e → fs.dentries e = none) {p : Nat}
    {name : Name} : fs.child p name = none ↔ fs.NoChild p name := by
  constructor
  · intro h e y he hy hl hpar hn
    have hlt : e < fs.next := by
      by_contra hge
      rw [hfresh e (by omega)] at hy
      cases hy
    have := List.find?_eq_none.mp h e (List.mem_range.mpr hlt)
    rw [hy] at this
    exact this (decide_eq_true ⟨he, hl, hpar, hn⟩)
  · intro h
    refine List.find?_eq_none.mpr fun e _ hp => ?_
    cases hy : fs.dentries e with
    | none =>
      rw [hy] at hp
      cases hp
    | some y =>
      rw [hy] at hp
      obtain ⟨he, hl, hpar, hn⟩ := of_decide_eq_true hp
      exact h e y he hy hl hpar hn

/-- A new dentry is the child under its name. -/
theorem Fs.child_dAdd {fs : Fs} (h0 : fs.next ≠ 0) {p : Nat} {name : Name}
    (hno : fs.NoChild p name) (v : SfsInode) : (fs.dAdd p name v).child p name = some fs.next := by
  cases hc : (fs.dAdd p name v).child p name with
  | some e =>
    obtain ⟨he, y, hy, hl, hpar, hn⟩ := Fs.child_some hc
    rw [Fs.dAdd_dentries] at hy
    split at hy
    · rename_i heq
      rw [heq]
    · exact absurd hn (hno e y he hy hl hpar)
  | none =>
    have hmem : fs.next ∈ List.range (fs.dAdd p name v).next :=
      List.mem_range.mpr (Nat.lt_succ_self _)
    have hnew : (fs.dAdd p name v).dentries fs.next = some ⟨p, name, v, none, true⟩ := by
      rw [Fs.dAdd_dentries, if_pos rfl]
    have := List.find?_eq_none.mp hc fs.next hmem
    rw [hnew] at this
    exact absurd (decide_eq_true ⟨h0, rfl, rfl, rfl⟩) this

/-! ## 3. One component -/

/-- What a scan of the block finds is an entry of the name graph, ... -/
theorem Device.scan_some {dev : Device} {i j : Nat} {name : Name}
    (h : dev.scan (dev.slot i).block name = some j) :
    dev.entry i j =
      some (name.bytes, slotIndex (dev.record (dev.slot i).block j).inodeNo) := by
  obtain ⟨hj, hl, hn⟩ := Device.of_scan_some h
  rw [Device.entry_eq_some hj rfl hl, hn]

/-- ... and an entry with the name is what it finds. -/
theorem TreeInv.scan_eq {dev : Device} {orphan : Nat → Prop} (ht : TreeInv dev orphan)
    {i j k : Nat} {name : Name} (hd : dev.graph.dir i)
    (hent : dev.entry i j = some (name.bytes, k)) : dev.scan (dev.slot i).block name = some j := by
  obtain ⟨hj, hl, hn, -⟩ := Device.of_entry_eq_some hent
  cases hs : dev.scan (dev.slot i).block name with
  | none => exact absurd ⟨hl, hn⟩ (Device.of_scan_none hs hj)
  | some j' =>
    rw [ht.wf.label i j' j _ _ _ hd (Device.scan_some hs) hent]

/-- What one component leads to, if record `j` of the directory's block has its name. -/
def Fs.LeadsTo (fs : Fs) (i j : Nat) (r : Option (Nat × Fs)) : Prop :=
  ∃ e fs' y, r = some (e, fs') ∧ fs'.dev = fs.dev ∧ FsInv fs' Shadow.none ∧
    fs'.Current Shadow.none e y ∧
    y.slot = slotIndex (fs.dev.record (fs.dev.slot i).block j).inodeNo

variable {fs : Fs} {p : Nat} {x : Dentry} {name : Name}

/-- A child that has a dentry is named by the block. -/
theorem FsInv.lookupChild_cached (hi : FsInv fs Shadow.none) (hx : fs.DirAt p x) {e : Nat}
    (hc : fs.child p name = some e) : ∃ j, fs.dev.scan (fs.dev.slot x.slot).block name = some j ∧
      fs.LeadsTo x.slot j (fs.lookupChild p name) := by
  obtain ⟨he, y, hy, hyl, hpar, hname⟩ := Fs.child_some hc
  have hcur : fs.Current Shadow.none e y := ⟨hy, hyl, id⟩
  obtain ⟨x', j, hx', hent⟩ := hi.parent e y hcur he
  rw [hpar] at hx'
  rw [hname] at hent
  cases hx.1.symm.trans hx'.1
  refine ⟨j, hi.tree.scan_eq (hi.dir hx).1 hent, e, fs, y, ?_, rfl, hi, hcur,
    (Device.of_entry_eq_some hent).2.2.2.symm⟩
  rw [Fs.lookupChild, hc]

/-- Otherwise the directory is listed, ... -/
theorem FsInv.list (hi : FsInv fs Shadow.none) (hx : fs.DirAt p x) (hno : fs.NoChild p name) :
    ∃ fs1 x1 c, run quiet (Op.iterate p 0).code LockState.free fs =
        (.returned () fs1, LockState.free) ∧ fs1.dev = fs.dev ∧ FsInv fs1 Shadow.none ∧
      fs1.DirAt p x1 ∧ x1.fsdata = some c ∧ fs1.NoChild p name ∧
      c.Agrees (fs.dev.record (fs.dev.slot x.slot).block) := by
  have hrun : run quiet (Op.iterate p 0).code LockState.free fs = _ := run_iterate hx.1 0
  have hallow : (Op.iterate p 0).Allowed fs := ⟨x, hx⟩
  have hi1 := (hi.call hallow trivial hrun).2
  have hx1 : (fs.setDentry p { x with fsdata := some (dirCacheOf fs x) }).dentries p =
      some { x with fsdata := some (dirCacheOf fs x) } := by
    rw [Fs.setDentry_dentries, if_pos rfl]
  refine ⟨_, _, _, hrun, rfl, hi1, ⟨hx1, hx.2⟩, rfl, hno.setDentry hx.1 rfl rfl rfl, ?_⟩
  rw [(hi.dir hx).2]
  exact (hi1.cache p _ _ hx1 rfl).2

/-- ... and the name looked up. -/
theorem FsInv.lookupChild_uncached (hi : FsInv fs Shadow.none) (hx : fs.DirAt p x)
    (hc : fs.child p name = none) :
    match fs.dev.scan (fs.dev.slot x.slot).block name with
    | none => fs.lookupChild p name = none
    | some j => fs.LeadsTo x.slot j (fs.lookupChild p name) := by
  obtain ⟨hdir, -⟩ := hi.dir hx
  obtain ⟨fs1, x1, c, hrun1, hdev, hi1, hx1, hfd, hno, hagree⟩ :=
    hi.list hx ((Fs.child_none hi.fresh).mp hc)
  have hlt : ∀ e, usedCacheEntryGet c name = some e →
      slotIndex e.record.inodeNo < slotsPerBlock := by
    intro e he
    obtain ⟨-, hj, hl, hrec, -⟩ := hagree.usedCacheEntryGet_some he
    rw [hrec]
    exact (hi.tree.wf.target _ _ _ ⟨hdir, _, Device.entry_eq_some hj rfl hl⟩).1.lt
  have hrun2 : run quiet (Op.lookup p name).code LockState.free fs1 = _ :=
    run_lookup hx1.1 hfd name rfl hlt
  have hget := hagree.mirrors.get name
  have hlook : ∀ fs2, run quiet (Op.lookup p name).code LockState.free fs1 =
      (.returned () fs2, LockState.free) →
      fs.lookupChild p name = (fs2.child p name).map fun e => (e, fs2) := by
    intro fs2 hfs2
    rw [Fs.lookupChild, hc]
    simp only [hrun1, hfs2]
  cases hs : fs.dev.scan (fs.dev.slot x.slot).block name with
  | none =>
    rw [hs, Option.map_none] at hget
    rw [hget] at hrun2
    simp only
    rw [hlook _ hrun2, (Fs.child_none hi1.fresh).mpr hno, Option.map_none]
  | some j =>
    rw [hs, Option.map_some] at hget
    rw [hget] at hrun2
    simp only at hrun2
    have h0 : fs1.next ≠ 0 := by
      intro h0
      obtain ⟨r, hr, -⟩ := hi1.root
      have hnone := hi1.fresh 0 (by omega)
      rw [hr.1] at hnone
      cases hnone
    obtain ⟨k, hk⟩ : ∃ k, k = slotIndex (fs.dev.record (fs.dev.slot x.slot).block j).inodeNo :=
      ⟨_, rfl⟩
    have hkl : fs.dev.Live k := by
      rw [hk]
      exact (hi.tree.wf.target _ j _ ⟨hdir, _, Device.scan_some hs⟩).1
    rw [← hk] at hrun2
    have hallow : (Op.lookup p name).Allowed fs1 := ⟨x1, hx1, hno⟩
    have hi2 := (hi1.call hallow ⟨x1, c, hx1.1, hfd⟩ hrun2).2
    refine ⟨fs1.next, fs1.dAdd p name (fs1.dev.slot k), ⟨p, name, fs1.dev.slot k, none, true⟩,
      ?_, hdev, hi2, ⟨?_, rfl, id⟩, ?_⟩
    · rw [hlook _ hrun2, Fs.child_dAdd h0 hno, Option.map_some]
    · rw [Fs.dAdd_dentries, if_pos rfl]
    · rw [Dentry.slot, hdev, (hi.store.slots k hkl).1, slotIndex_inoOf hkl.lt, hk]

/-- **One component of a path** is found exactly when the block has it, and leads to the inode
that the block says. -/
theorem FsInv.lookupChild (hi : FsInv fs Shadow.none) (hx : fs.DirAt p x) (name : Name) :
    match fs.dev.scan (fs.dev.slot x.slot).block name with
    | none => fs.lookupChild p name = none
    | some j => fs.LeadsTo x.slot j (fs.lookupChild p name) := by
  cases hc : fs.child p name with
  | none => exact hi.lookupChild_uncached hx hc
  | some e =>
    obtain ⟨j, hs, hlead⟩ := hi.lookupChild_cached hx hc
    rw [hs]
    exact hlead

/-! ## 4. Whole paths -/

/-- **The walk over the operations finds what the device says**, and changes nothing there. -/
theorem FsInv.walk (hi : FsInv fs Shadow.none) (hx : fs.Current Shadow.none p x)
    (path : List Name) :
    match fs.dev.resolve path x.slot with
    | none => fs.walk path p = none
    | some i => ∃ e fs' y, fs.walk path p = some (e, fs') ∧ fs'.dev = fs.dev ∧
        FsInv fs' Shadow.none ∧ fs'.Current Shadow.none e y ∧ y.slot = i := by
  induction path generalizing fs p x with
  | nil => exact ⟨p, fs, x, rfl, rfl, hi, hx, rfl⟩
  | cons name path ih =>
    have hmode : isDir (fs.dev.slot x.slot).mode = isDir x.inode.mode := by
      rw [(hi.live p x hx).2.2.mode]
    simp only [Device.resolve, Fs.walk, hx.1, hmode]
    by_cases hd : isDir x.inode.mode = true
    · have hone := hi.lookupChild ⟨hx.1, hx.2.1, hd⟩ name
      simp only [hd, if_true]
      cases hs : fs.dev.scan (fs.dev.slot x.slot).block name with
      | none =>
        rw [hs] at hone
        simp only [hone]
      | some j =>
        rw [hs] at hone
        obtain ⟨e, fs1, y, hlook, hdev, hi1, hy, hslot⟩ := hone
        have hrest := ih hi1 hy
        simp only [hlook]
        rw [hdev, hslot] at hrest
        exact hrest
    · simp only [hd, if_false, Bool.false_eq_true]

/-- The inode at the end of a path is the one that the device has there. -/
theorem FsInv.pathInode (hi : FsInv fs Shadow.none) (path : List Name) :
    fs.pathInode path = (fs.dev.resolve path 0).map fs.dev.slot := by
  obtain ⟨r, hr, hr0⟩ := hi.root
  have hw := hi.walk hr path
  rw [hr0] at hw
  unfold Fs.pathInode
  cases hres : fs.dev.resolve path 0 with
  | none =>
    rw [hres] at hw
    rw [hw, Option.bind_none, Option.map_none]
  | some i =>
    rw [hres] at hw
    obtain ⟨e, fs', y, hwalk, hdev, hi', hy, hslot⟩ := hw
    rw [hwalk, Option.bind_some, Option.map_some, ← hdev, ← hslot, hi'.clean e y hy id]
    simp only [hy.1, Option.map_some]

/-- What a read returns depends on the inode and on the device. -/
theorem readFile_congr {fs fs' : Fs} {d d' ppos len : Nat} {userOk : Bool} {y y' : Dentry}
    (hy : fs.dentries d = some y) (hy' : fs'.dentries d' = some y') (hv : y'.inode = y.inode)
    (hdev : fs'.dev = fs.dev) : (readFile d' ppos len userOk fs').map Prod.fst =
      (readFile d ppos len userOk fs).map Prod.fst := by
  simp only [readFile, Fs.dentry_of_eq hy, Fs.dentry_of_eq hy', bind, Except.bind, pure,
    Except.pure, hv, hdev]
  split
  · rfl
  split
  · rfl
  split <;> rfl

/-- Two states with the same device read the same at the end of every path. -/
theorem FsInv.pathRead {fs fs' : Fs} (hi : FsInv fs Shadow.none) (hi' : FsInv fs' Shadow.none)
    (hdev : fs'.dev = fs.dev) (path : List Name) (ppos len : Nat) :
    fs'.pathRead path ppos len = fs.pathRead path ppos len := by
  obtain ⟨r, hr, hr0⟩ := hi.root
  obtain ⟨r', hr', hr0'⟩ := hi'.root
  have hw := hi.walk hr path
  have hw' := hi'.walk hr' path
  rw [hr0] at hw
  rw [hr0', hdev] at hw'
  unfold Fs.pathRead
  cases hres : fs.dev.resolve path 0 with
  | none =>
    rw [hres] at hw hw'
    rw [hw, hw']
  | some i =>
    rw [hres] at hw hw'
    obtain ⟨e, fs1, y, hwalk, hdev1, hi1, hy, hslot⟩ := hw
    obtain ⟨e', fs1', y', hwalk', hdev1', hi1', hy', hslot'⟩ := hw'
    have hd : fs1'.dev = fs1.dev := by rw [hdev1', hdev1]
    have hv : y'.inode = y.inode := by
      rw [← hi1.clean e y hy id, ← hi1'.clean e' y' hy' id, hslot, hslot', hd]
    rw [hwalk, hwalk', Option.map_some, Option.map_some]
    exact congrArg some (readFile_congr hy.1 hy'.1 hv hd)

/-! ## 5. Remounting -/

/-- **The same filesystem**: what `fs` holds in memory is what `fs'` has or computes. -/
structure SameFilesystem (fs fs' : Fs) : Prop where
  imap : fs'.imap = fs.imap
  /-- `simplefs_get_inode` fetches what the inode of a linked dentry is. -/
  inode : ∀ e y, fs.dentries e = some y → y.linked = true →
    run quiet (simplefsGetInode y.inode.inodeNo) LockState.free fs' =
      (.returned (some y.inode) fs', LockState.free)
  /-- A new cache has the same used list and the same free numbers. -/
  cache : ∀ d x c, fs.dentries d = some x → x.fsdata = some c →
    (dirCacheBuild simplefsCacheAlloc (fs'.dev.record x.inode.block)).used = c.used ∧
      ((dirCacheBuild simplefsCacheAlloc (fs'.dev.record x.inode.block)).free.map
        CacheEntry.entryNo).Perm (c.free.map CacheEntry.entryNo)
  path : ∀ path, fs'.pathInode path = fs.pathInode path
  bytes : ∀ path ppos len, fs'.pathRead path ppos len = fs.pathRead path ppos len

/-- `simplefs_get_inode` of the inode of a linked dentry. -/
theorem FsInv.run_getInode {fs : Fs} {e : Nat} {y : Dentry} (hi : FsInv fs Shadow.none)
    (hy : fs.Current Shadow.none e y) {fs' : Fs} (hdev : fs'.dev = fs.dev) :
    run quiet (simplefsGetInode y.inode.inodeNo) LockState.free fs' =
      (.returned (some y.inode) fs', LockState.free) := by
  have hlt : slotIndex y.inode.inodeNo < slotsPerBlock := (hi.live e y hy).1.lt
  have hat := slotAt_of_lt hlt
  have hslot : fs'.dev.slot (slotIndex y.inode.inodeNo) = y.inode := by
    rw [hdev]
    exact hi.clean e y hy id
  rw [← bind_pure (simplefsGetInode _), Simplefs.run_getInode _ _ (LockState.free_held _)]
  simp only [quiet, Bool.false_eq_true, if_false, readInode, hat, if_pos hlt,
    hslot, Prog.run_pure]

/-- **A remounted filesystem is the same.** -/
theorem FsInv.sameFilesystem {fs : Fs} (hi : FsInv fs Shadow.none) (past : BitVec 64) :
    SameFilesystem fs (mountedFs fs.dev fs.imap past) := by
  have hi' := mountedFs_inv hi.store hi.tree past
  refine ⟨rfl, ?_, ?_, ?_, ?_⟩
  · intro e y hy hl
    exact hi.run_getInode ⟨hy, hl, id⟩ rfl
  · intro d x c hx hc
    have ha := (hi.cache d x c hx hc).2
    have hb := dirCacheBuild_agrees (fs.dev.record x.inode.block)
    exact ⟨hb.used.trans ha.used.symm, hb.free.trans ha.free.symm⟩
  · intro path
    rw [hi.pathInode, hi'.pathInode]
    rfl
  · intro path ppos len
    exact hi.pathRead hi' rfl path ppos len

/-- **An unmount and a mount.**  What a failed copy has left in a buffer is gone. -/
theorem FsInv.mountsAgain {fs : Fs} (hi : FsInv fs Shadow.none) (past : BitVec 64) :
    ∃ s fs', Event.umount.apply ⟨LockState.free, .mounted fs⟩ = some s ∧
      (Event.mount past).apply s = some ⟨LockState.free, .mounted fs'⟩ ∧
      SameFilesystem fs.restored fs' := by
  have hstore : StoreInv fs.flushed fs.imap fun _ => False := hi.restored.store
  refine ⟨_, mountedFs fs.flushed fs.imap past, rfl, ?_, hi.restored.sameFilesystem past⟩
  simp only [Event.apply, run_fillSuper hstore past (LockState.free_held _), if_true]

/-- Every buffer is written back. -/
def Fs.writtenBack (fs : Fs) : Fs := { fs with torn := fun _ => none }

/-- **Unmounting and mounting again succeeds and preserves the filesystem**, in every state that
a run reaches, once the buffers are written back. -/
theorem DefinedRun.remount {size : Nat} {dev : Device} {lk : LockState Lock} {fs : Fs}
    (hmk : mkfs zeroMem size = (0, dev))
    (hrun : DefinedRun ⟨LockState.free, .offline dev⟩ ⟨lk, .mounted fs⟩) (past : BitVec 64) :
    ∃ s fs', Event.umount.apply ⟨lk, .mounted fs.writtenBack⟩ = some s ∧
      (Event.mount past).apply s = some ⟨lk, .mounted fs'⟩ ∧ SameFilesystem fs fs' := by
  have hinv := hrun.inv (sysInv_mkfs hmk)
  have hlk : lk = LockState.free := hinv.locks
  subst hlk
  have hi := hinv.mounted fs rfl
  have hdev : fs.writtenBack.flushed = fs.dev := Fs.flushed_of_whole fun _ => rfl
  refine ⟨_, mountedFs fs.dev fs.imap past, rfl, ?_, hi.sameFilesystem past⟩
  simp only [hdev, Event.apply, run_fillSuper hi.store past (LockState.free_held _), if_true]

/-- A fresh image whose root has been listed. -/
theorem DefinedRun.remount_listed : ∃ s fs',
    Event.umount.apply ⟨LockState.free, .mounted listedFs.writtenBack⟩ = some s ∧
      (Event.mount 0#64).apply s = some ⟨LockState.free, .mounted fs'⟩ ∧
      SameFilesystem listedFs fs' :=
  DefinedRun.remount mkfs_fresh DefinedRun.listed 0#64

end Simplefs
