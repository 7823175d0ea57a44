/-
# Runs of the filesystem are runs of the volume

`Op.answer` is the program of a call together with what the caller gets back, and `Serves` is
the system seen from outside: requests about nodes, and answers.  Every such step, from a state
that the runs inside the defined cases reach, is a step of the volume with the same label, so
their runs are runs of the volume (`DefinedRun.refines`).

The invariant is the one of `Stale.lean`: the filesystem is consistent, and the block of a file
that is open without a name belongs to nobody.
-/
import Simplefs.Abstraction

namespace Simplefs

open Prog (run step LockState)

/-! ## 1. The volume of a system -/

/-- The files without a name that are still open. -/
def Fs.gone (fs : Fs) (e : Nat) : Option FileData :=
  (fs.dentries e).bind fun y => if y.linked then none else some (fs.dev.fileData y.inode)

/-- What an unmount puts back into the file of slot `i`. -/
def Fs.kept (fs : Fs) (i : Nat) : Option (Nat → UInt8) :=
  if fs.dev.Live i then (fs.torn (fs.dev.slot i).block).map Device.blockBytes else none

/-- The volume of a mounted filesystem. -/
def Fs.volume (fs : Fs) : Volume := ⟨fs.dev.node, fs.gone, fs.dev.freeRoom, fs.kept⟩

/-- The volume of a system. -/
def Sys.volume (s : Sys) : Volume :=
  match s.mnt with
  | .offline dev => ⟨dev.node, fun _ => none, dev.freeRoom, fun _ => none⟩
  | .mounted fs => fs.volume

section Volumes

variable {fs fs' : Fs} {p e : Nat} {x y : Dentry} {c : DirCache} {name : Name} {mode : BitVec 16}
  {i b : Nat} {entry : CacheEntry}

theorem Fs.gone_eq_some {data : FileData} : fs.gone e = some data ↔
    ∃ y, fs.dentries e = some y ∧ y.linked = false ∧ fs.dev.fileData y.inode = data := by
  rw [Fs.gone, Option.bind_eq_some_iff]
  refine exists_congr fun y => and_congr_right fun _ => ?_
  cases y.linked <;> simp

/-- Nothing is written to a block that is lost. -/
theorem Fs.Lost.byte (h : fs.Lost b) {dev' : Device} {s : Nat} {gone : Nat → Prop}
    (hf : Device.Frame fs.dev dev' s gone) {off : Nat} (hoff : off < 4096) :
    dev'.byte b off = fs.dev.byte b off :=
  hf.block b h.ge (fun heq => h.unused s hf.live heq.symm) off hoff

/-- **A file without a name stays what it is.** -/
theorem Fs.StaleOk.gone_eq (h : fs.StaleOk) {s : Nat} {gone : Nat → Prop}
    (hf : Device.Frame fs.dev fs'.dev s gone)
    (hd : ∀ y, y.linked = false → (fs'.dentries e = some y ↔ fs.dentries e = some y)) :
    fs'.gone e = fs.gone e := by
  refine Option.ext fun data => ?_
  rw [Fs.gone_eq_some, Fs.gone_eq_some]
  refine exists_congr fun y => ?_
  constructor
  · rintro ⟨hy, hl, rfl⟩
    have hy' := (hd y hl).mp hy
    exact ⟨hy', hl, (Device.fileData_congr fun off => (h e y hy' hl).lost.byte hf).symm⟩
  · rintro ⟨hy, hl, rfl⟩
    exact ⟨(hd y hl).mpr hy, hl, Device.fileData_congr fun off => (h e y hy hl).lost.byte hf⟩

theorem Device.mem_freeRoom {dev : Device} {n : Nat} :
    n ∈ (Finset.Icc 3 34).filter (fun b => dev.freeBlocks.getLsbD (b % 32) = true) ↔
      (3 ≤ n ∧ n ≤ 34) ∧ Avail dev.freeBlocks n := by
  rw [Finset.mem_filter, Finset.mem_Icc, Avail]

/-- **There is room as long as the scan finds a block**, ... -/
theorem StoreInv.freeRoom_eq_zero_iff {dev : Device} {imap : BitVec 64} {pend : Nat → Prop}
    (hs : StoreInv dev imap pend) : dev.freeRoom = 0 ↔ freeBlockScan dev.freeBlocks = none := by
  rw [Device.freeRoom, Finset.card_eq_zero, Finset.eq_empty_iff_forall_notMem]
  constructor
  · intro h
    cases hb : freeBlockScan dev.freeBlocks with
    | none => rfl
    | some b =>
      obtain ⟨h3, h34, ha⟩ := hs.high.scan_some hb
      exact absurd (Device.mem_freeRoom.mpr ⟨⟨h3, h34⟩, ha⟩) (h b)
  · intro h b hb
    obtain ⟨⟨h3, h34⟩, ha⟩ := Device.mem_freeRoom.mp hb
    exact hs.high.scan_none h h3 h34 ha

/-- ... and handing it out takes one place. -/
theorem StoreInv.freeRoom_takeBlock {dev dev' : Device} {imap : BitVec 64} {pend : Nat → Prop}
    (hs : StoreInv dev imap pend) (hb : freeBlockScan dev.freeBlocks = some b)
    (hfree : dev'.freeBlocks = takeBlock dev.freeBlocks b) :
    dev'.freeRoom = dev.freeRoom - 1 := by
  obtain ⟨h3, h34, ha⟩ := hs.high.scan_some hb
  rw [Device.freeRoom, Device.freeRoom,
    ← Finset.card_erase_of_mem (Device.mem_freeRoom.mpr ⟨⟨h3, h34⟩, ha⟩)]
  refine congrArg Finset.card (Finset.ext fun n => ?_)
  rw [Device.mem_freeRoom, Finset.mem_erase, Device.mem_freeRoom, hfree]
  constructor
  · rintro ⟨hn, hav⟩
    obtain ⟨hav, hne⟩ := (avail_takeBlock h3 h34 hn.1 hn.2).mp hav
    exact ⟨hne, hn, hav⟩
  · rintro ⟨hne, hn, hav⟩
    exact ⟨hn, (avail_takeBlock h3 h34 hn.1 hn.2).mpr ⟨hav, hne⟩⟩

theorem Device.freeRoom_congr {dev dev' : Device} (h : dev'.freeBlocks = dev.freeBlocks) :
    dev'.freeRoom = dev.freeRoom := by
  rw [Device.freeRoom, Device.freeRoom, h]

theorem Fs.kept_of_live (hl : fs.dev.Live i) :
    fs.kept i = (fs.torn (fs.dev.slot i).block).map Device.blockBytes := if_pos hl

theorem Fs.kept_of_dead (hl : ¬ fs.dev.Live i) : fs.kept i = none := if_neg hl

/-- **What is kept for a file stays**, if its block is as whole or as torn as it was. -/
theorem Fs.kept_congr {s : Nat} {gone : Nat → Prop} (hf : Device.Frame fs.dev fs'.dev s gone)
    (hl : fs.dev.Live i) (hg : ¬ gone i)
    (ht : fs'.torn (fs.dev.slot i).block = fs.torn (fs.dev.slot i).block) :
    fs'.kept i = fs.kept i := by
  obtain ⟨hl', hb⟩ := hf.sameBlock hl hg
  rw [Fs.kept_of_live hl', Fs.kept_of_live hl, hb, ht]

/-- A dentry that is linked, if it is there. -/
def LinkedIfAny (o : Option Dentry) : Prop := ∀ y, o = some y → y.linked = true

/-- What happens to dentries that are linked before and after does not touch the others. -/
theorem Fs.unlinked_iff
    (hd : ∀ e, fs'.dentries e = fs.dentries e ∨
      LinkedIfAny (fs'.dentries e) ∧ LinkedIfAny (fs.dentries e))
    (e : Nat) (y : Dentry) (hy : y.linked = false) :
    fs'.dentries e = some y ↔ fs.dentries e = some y := by
  rcases hd e with h | ⟨h', h⟩
  · rw [h]
  · exact iff_of_false (fun hs => nomatch hy.symm.trans (h' y hs))
      fun hs => nomatch hy.symm.trans (h y hs)

theorem linkedIfAny_some (h : x.linked = true) : LinkedIfAny (some x) := by
  intro y hy
  cases hy
  exact h

theorem linkedIfAny_none : LinkedIfAny none := nofun

/-- A dentry that is made. -/
theorem Fs.dAdd_linked (hfresh : fs.dentries fs.next = none) (p : Nat) (name : Name)
    (v : SfsInode) (e : Nat) : (fs.dAdd p name v).dentries e = fs.dentries e ∨
      LinkedIfAny ((fs.dAdd p name v).dentries e) ∧ LinkedIfAny (fs.dentries e) := by
  rw [Fs.dAdd_dentries]
  split
  · rename_i he
    rw [he, hfresh]
    exact Or.inr ⟨linkedIfAny_some rfl, linkedIfAny_none⟩
  · exact Or.inl rfl

/-- A dentry that changes. -/
theorem Fs.setDentry_linked (x' : Dentry) (hx : fs.dentries p = some x) (hl : x.linked = true)
    (hl' : x'.linked = true) (e : Nat) : (fs.setDentry p x').dentries e = fs.dentries e ∨
      LinkedIfAny ((fs.setDentry p x').dentries e) ∧ LinkedIfAny (fs.dentries e) := by
  rw [Fs.setDentry_dentries]
  split
  · rename_i he
    rw [he, hx]
    exact Or.inr ⟨linkedIfAny_some hl', linkedIfAny_some hl⟩
  · exact Or.inl rfl

/-- What changes neither the device nor a dentry without a name. -/
theorem Fs.volume_congr (hdev : fs'.dev = fs.dev) (htorn : fs'.torn = fs.torn)
    (hd : ∀ e y, y.linked = false → (fs'.dentries e = some y ↔ fs.dentries e = some y)) :
    fs'.volume = fs.volume := by
  refine Volume.ext (by rw [Fs.volume, Fs.volume, hdev]) ?_ (Device.freeRoom_congr (by rw [hdev]))
    (funext fun i => by simp only [Fs.volume, Fs.kept, hdev, htorn])
  funext e
  refine Option.ext fun data => ?_
  change fs'.gone e = some data ↔ fs.gone e = some data
  rw [Fs.gone_eq_some, Fs.gone_eq_some, hdev]
  exact exists_congr fun y => and_congr_left fun h => hd e y h.1

/-- The block that a create takes is whole. -/
theorem FsInv.kept_created (hi : FsInv fs Shadow.none) (hx : fs.DirAt p x)
    (hs : fs.SoundAt p x c) (hp : Fs.SoundAt.Picked fs c name i b entry) (k : Nat) :
    (Fs.SoundAt.created fs p x c entry name mode i b).kept k = fs.kept k := by
  have hf := hs.frame (hi.dir hx).1.1 hp mode
  by_cases hl : fs.dev.Live k
  · exact Fs.kept_congr hf hl id rfl
  rw [Fs.kept_of_dead hl]
  by_cases hki : k = i
  swap
  · refine Fs.kept_of_dead fun hl' => hl ((Device.live_congr ?_).mp hl')
    rw [hs.slot_created (hs.room_of_keeps hp.entry hp.keeps) hl'.lt, if_neg hki, if_neg]
    rintro rfl
    exact hl (hi.dir hx).1.1
  · subst hki
    obtain ⟨h3, h34, havail⟩ := hs.store.high.scan_some hp.block
    have hwhole : fs.torn b = none := by
      by_contra hno
      exact (hi.torn b hno).avail h3 havail
    by_cases hl' : (Fs.SoundAt.created fs p x c entry name mode k b).dev.Live k
    · have hslot : (Fs.SoundAt.created fs p x c entry name mode k b).dev.slot k = _ :=
        hs.slot_created (hs.room_of_keeps hp.entry hp.keeps) hl'.lt
      rw [if_neg fun h : k = x.slot => hl (h ▸ (hi.dir hx).1.1), if_pos rfl] at hslot
      rw [Fs.kept_of_live hl', hslot, block_newInode mode (k + 1) (by omega)]
      exact congrArg (Option.map Device.blockBytes) hwhole
    · exact Fs.kept_of_dead hl'

/-- **A create.** -/
theorem FsInv.volume_created (hi : FsInv fs Shadow.none) (h : fs.StaleOk) (hx : fs.DirAt p x)
    (hs : fs.SoundAt p x c) (hp : Fs.SoundAt.Picked fs c name i b entry)
    (hi' : FsInv (Fs.SoundAt.created fs p x c entry name mode i b) Shadow.none)
    (hnew : fs.dev.names x.inode.block name = none) :
    (Fs.SoundAt.created fs p x c entry name mode i b).volume =
      ⟨fs.volume.tree.link x.slot name i (newNode (mode.setWidth 32)), fs.volume.gone,
        fs.volume.room - 1, fs.volume.kept⟩ := by
  have hd := (hi.dir hx).1
  have hlt := hs.room_of_keeps hp.entry hp.keeps
  refine Volume.ext (hi.node_created hx hs hp hi' hnew) ?_
    (hs.store.freeRoom_takeBlock hp.block (hs.counts_created mode i b hlt).2)
    (funext fun k => hi.kept_created hx hs hp k)
  funext e
  refine h.gone_eq (hs.frame hd.1 hp mode) (Fs.unlinked_iff (fun e => ?_) e)
  · rw [Fs.SoundAt.created, Fs.dAdd_dentries]
    split
    · rename_i he
      rw [he]
      exact Or.inr ⟨linkedIfAny_some rfl, hi.fresh _ (Nat.le_refl _) ▸ linkedIfAny_none⟩
    · rw [Fs.counted_dentries]
      split
      · rename_i he
        rw [he, hx.1]
        exact Or.inr ⟨linkedIfAny_some hx.2.1, linkedIfAny_some hx.2.1⟩
      · exact Or.inl rfl

/-- Nothing is kept for a file that is gone. -/
theorem Fs.Unlinkable.kept_unlinked (hu : fs.Unlinkable e y x c) (hi : FsInv fs Shadow.none)
    (hf : Device.Frame fs.dev (fs.unlinked e y x c entry).dev x.slot (· = y.slot))
    (h15 : entry.entryNo < 15) :
    (fs.unlinked e y x c entry).kept = Function.update fs.kept y.slot none := by
  funext k
  rw [Function.update_apply]
  split
  · rename_i hky
    exact Fs.kept_of_dead fun hl => (hu.live_unlinked hi h15 hl).1 hky
  · rename_i hky
    by_cases hl : fs.dev.Live k
    · exact Fs.kept_congr hf hl hky rfl
    · rw [Fs.kept_of_dead hl, Fs.kept_of_dead fun hl' => hl (hu.live_unlinked hi h15 hl').2.1]

/-- **An unlink.** -/
theorem FsInv.volume_unlinked (hi : FsInv fs Shadow.none) (h : fs.StaleOk)
    (hu : fs.Unlinkable e y x c) (hget : usedCacheEntryGet c y.name = some entry)
    (hi' : FsInv (fs.unlinked e y x c entry) Shadow.none) :
    (fs.unlinked e y x c entry).volume = ⟨fs.volume.tree.unlink x.slot y.name y.slot,
      Function.update fs.volume.gone e (some (fs.dev.fileData y.inode)), fs.volume.room,
      Function.update fs.volume.kept y.slot none⟩ := by
  have hf := hu.frame hi hget
  obtain ⟨entry', hget', -, h15, -⟩ := hi.used_entry hu.cur hu.ne hu.dir hu.fsdata
  cases hget.symm.trans hget'
  refine Volume.ext (hi.node_unlinked hu hget hi').2 ?_
    (Device.freeRoom_congr (hu.freeBlocks_unlinked hi h15)) (hu.kept_unlinked hi hf h15)
  funext d
  change (fs.unlinked e y x c entry).gone d = Function.update fs.gone e _ d
  rw [Function.update_apply]
  split
  · -- the file itself: its block is not the directory's
    rename_i hde
    subst hde
    obtain ⟨hl, -, hsame⟩ := hi.live d y hu.cur
    have hne : (fs.dev.slot y.slot).block ≠ (fs.dev.slot x.slot).block := fun heq =>
      hu.slot_ne hi (hi.store.block_inj _ _ hl hf.live heq)
    rw [← hsame.block] at hne
    refine Fs.gone_eq_some.mpr ⟨{ y with linked := false }, ?_, rfl, ?_⟩
    · rw [Fs.unlinked, Fs.setDentry_dentries, if_pos rfl]
    · refine Device.fileData_congr fun off hoff => hf.block _ ?_ hne off hoff
      rw [hsame.block]
      exact (hi.store.block _ hl).1
  · rename_i hde
    refine h.gone_eq hf fun z hz => ?_
    rw [Fs.unlinked, Fs.setDentry_dentries, if_neg hde]
    have hset := Fs.setDentry_linked (x.without c entry) hu.dir.1 hu.dir.2.1 hu.dir.2.1
    exact Fs.unlinked_iff hset d z hz

/-- The buffer of a write. -/
theorem Fs.torn_written (ppos : Nat) (data : List UInt8) (copied : Nat) :
    (fs.written p x ppos data copied).torn =
      fs.tear x.inode.block (decide (data.length ≤ copied)) := by
  rw [Fs.written]
  split <;> rfl

/-- A copy that fails keeps what the device has; one that does not marks the buffer dirty. -/
theorem FsInv.kept_written (hi : FsInv fs Shadow.none) (hx : fs.Current Shadow.none p x)
    (hf : isDir x.inode.mode = false) {ppos : Nat} {data : List UInt8}
    (hlen : ppos + data.length ≤ 4096) (copied : Nat) :
    (fs.written p x ppos data copied).kept = Function.update fs.kept x.slot
      (if copied < data.length then some ((fs.kept x.slot).getD (fs.dev.fileData x.inode).bytes)
      else none) := by
  have hframe := hi.frame_written hx hf hlen copied
  obtain ⟨hlx, -, hsame⟩ := hi.live p x hx
  funext k
  rw [Function.update_apply]
  by_cases hl : fs.dev.Live k
  swap
  · have hkx : k ≠ x.slot := fun h => hl (h ▸ hlx)
    rw [if_neg hkx, Fs.kept_of_dead hl]
    refine Fs.kept_of_dead fun hl' => hl ((Device.live_congr ?_).mp hl')
    rw [hi.slot_written hx ppos data copied hl'.lt, if_neg fun h => hkx h.1]
  split
  · rename_i hkx
    subst hkx
    obtain ⟨hl', hb⟩ := hframe.sameBlock hl id
    rw [Fs.kept_of_live hl', Fs.kept_of_live hl, hb, Fs.torn_written, ← hsame.block, Fs.tear_self]
    by_cases hc : copied < data.length
    · rw [if_pos hc, if_pos hc, ← Device.blockBytes_blocks]
      cases fs.torn x.inode.block <;> rfl
    · rw [if_neg hc, if_neg hc, Option.map_none]
  · rename_i hkx
    refine Fs.kept_congr hframe hl id ?_
    rw [Fs.torn_written, fs.tear_ne]
    exact fun heq => hkx (hi.store.block_inj k x.slot hl hlx (heq.trans hsame.block))

/-- **A write.** -/
theorem FsInv.volume_written (hi : FsInv fs Shadow.none) (h : fs.StaleOk)
    (hx : fs.Current Shadow.none p x) (hf : isDir x.inode.mode = false) {ppos : Nat}
    {data : List UInt8} (hlen : ppos + data.length ≤ 4096) (copied : Nat) :
    (fs.written p x ppos data copied).volume =
      ⟨fs.volume.tree.setData x.slot ((fs.dev.fileData x.inode).write ppos data copied).2,
        fs.volume.gone, fs.volume.room, Function.update fs.volume.kept x.slot
          (if copied < data.length then
            some ((fs.volume.kept x.slot).getD (fs.dev.fileData x.inode).bytes)
          else none)⟩ := by
  have hframe := hi.frame_written hx hf hlen copied
  refine Volume.ext (hi.node_written hx hf hlen copied) ?_ (Device.freeRoom_congr ?_)
    (hi.kept_written hx hf hlen copied)
  · funext e
    refine h.gone_eq hframe (Fs.unlinked_iff (fun e => ?_) e)
    unfold Fs.written
    split
    · exact Or.inl rfl
    · exact Fs.setDentry_linked (x.resized (ppos + data.length)) hx.1 hx.2.1 hx.2.1 e
  · obtain ⟨hl, -, hsame⟩ := hi.live p x hx
    have hb2 := (hi.store.block x.slot hl).1
    rw [← hsame.block] at hb2
    have hput := Device.freeBlocks_congr
      (Device.agreeOff_putData fs.dev x.inode.block ppos (copiedBytes data copied)) (by omega)
    rw [Fs.dev_written]
    split
    · exact hput
    · rw [Device.freeBlocks_setSlot, hput]

/-- **A release.** -/
theorem Fs.volume_released (fs : Fs) (d : Nat) :
    Fs.volume { fs with dentries := Function.update fs.dentries d none } =
      ⟨fs.volume.tree, Function.update fs.volume.gone d none, fs.volume.room,
        fs.volume.kept⟩ := by
  refine Volume.ext rfl ?_ rfl rfl
  funext e
  change (Function.update fs.dentries d none e).bind _ = Function.update fs.gone d none e
  rw [Function.update_apply, Function.update_apply]
  split <;> rfl

/-- **An unmount.** -/
theorem FsInv.volume_flushed (hi : FsInv fs Shadow.none) :
    (⟨fs.flushed.node, fun _ => none, fs.flushed.freeRoom, fun _ => none⟩ : Volume) =
      fs.volume.atRest := by
  refine Volume.ext ?_ rfl (Device.freeRoom_congr hi.dataTorn.super.free) rfl
  funext i
  change fs.flushed.node i =
    FileTree.mapData fs.dev.node (fun i data => data.restored (fs.kept i)) i
  rw [FileTree.mapData]
  by_cases hl : fs.dev.Live i
  swap
  · rw [Device.node_none hl, Device.node_none, Option.map_none]
    exact fun hl' => hl ((Device.live_congr (hi.dataTorn.slot hl'.lt)).mp hl')
  have hslot := hi.dataTorn.slot hl.lt
  have hl' : fs.flushed.Live i := (Device.live_congr hslot).mpr hl
  by_cases hm : isDir (fs.dev.slot i).mode = true
  · -- the block of a directory is whole
    have hwhole : fs.torn (fs.dev.slot i).block = none := by
      by_contra hno
      exact (hi.torn _ hno).dir i ⟨hl, hm⟩ rfl
    rw [Device.node_congr hslot fun off hoff =>
      Device.byte_of_blocks (Fs.blocks_flushed hwhole) hoff, Device.node_dir ⟨hl, hm⟩]
    rfl
  · have hf := Bool.eq_false_iff.mpr hm
    rw [Device.node_file hl' (by rw [hslot, hf]), Device.node_file hl hf, hslot, Option.map_some]
    refine congrArg (fun data => some (FileNode.file _ data)) (FileData.ext rfl ?_)
    change (fs.flushed.fileData (fs.dev.slot i)).bytes =
      (fs.kept i).getD (fs.dev.fileData (fs.dev.slot i)).bytes
    rw [← Device.blockBytes_blocks, ← Device.blockBytes_blocks, Fs.kept_of_live hl, Fs.flushed,
      Device.blocks_ofBlocks]
    cases fs.torn (fs.dev.slot i).block <;> rfl

end Volumes

/-! ## 2. Calls and their answers -/

/-- The name of a record. -/
def DirRecord.name (r : DirRecord) : Name := ⟨r.filename, ByteMem.noNul_cstr _ _ _⟩

/-- A call with what its caller gets back: the status, the entries that were handed to
`dir_emit`, the inode that the dentry has been given, the bytes and the new position. -/
def Op.answer : Op → Code Reply
  | .iterate d pos => do
    let r ← simplefsIterate d pos
    return .listed r.1 (r.2.map fun record => (record.name, slotIndex record.inodeNo))
  | .lookup p name => do
    let ret ← simplefsLookup p name
    if ret ≠ 0 then
      return .status ret
    let i ← Prog.read fun fs => (fs.child p name).bind fun e => (fs.dentries e).map Dentry.slot
    return .found i
  | .create p name mode => do
    let ret ← simplefsCreate p name mode
    return .status ret
  | .mkdir p name mode => do
    let ret ← simplefsMkdir p name mode
    return .status ret
  | .unlink e => do
    let ret ← simplefsUnlink e
    if ret = 0 then
      step (dDelete e)
    return .status ret
  | .read d ppos len userOk => do
    let r ← simplefsRead d ppos len userOk
    return .bytes r.1 r.2
  | .write d ppos data copied => do
    let r ← simplefsWrite d ppos data copied
    return .written r.1 r.2
  | .release d => do
    step (dentryRelease d)
    return .status 0

/-- What a call asks of the volume. -/
def Op.request (fs : Fs) : Op → Option Request
  | .iterate d pos => (fs.dentries d).map fun x => .list x.slot pos
  | .lookup p name => (fs.dentries p).map fun x => .lookup x.slot name
  | .create p name mode => (fs.dentries p).map fun x => .create x.slot name mode
  | .mkdir p name mode => (fs.dentries p).map fun x => .create x.slot name (0x4000 ||| mode)
  | .unlink e => do
    let y ← fs.dentries e
    let x ← fs.dentries y.parent
    return .unlink x.slot y.name e
  | .read d ppos len userOk => (fs.dentries d).map fun x =>
    .read (if x.linked then .node x.slot else .gone d) ppos len userOk
  | .write d ppos data copied => (fs.dentries d).map fun x => .write x.slot ppos data copied
  | .release d => some (.release d)

section Answers

variable {intr : Site → Bool} {lk lk' : LockState Lock} {fs fs' : Fs} {α : Type}

/-- Two ways to go on that return together. -/
theorem run_bind_iff {q : Code α} {k' : α → Code Unit} {k : α → Code Reply}
    (hk : ∀ a lk fs fs' lk', run intr (k' a) lk fs = (.returned () fs', lk') ↔
      ∃ r, run intr (k a) lk fs = (.returned r fs', lk')) :
    run intr (q >>= k') lk fs = (.returned () fs', lk') ↔
      ∃ r, run intr (q >>= k) lk fs = (.returned r fs', lk') := by
  rw [Prog.run_bind, Prog.run_bind]
  rcases run intr q lk fs with ⟨ending, lk1⟩
  cases ending with
  | returned a fs1 => exact hk a lk1 fs1 fs' lk'
  | faulted err => exact iff_of_false nofun nofun
  | blocked l => exact iff_of_false nofun nofun

/-- A call whose result is dropped, and one whose result is only looked at. -/
theorem run_discard_iff {q : Code α} {k : α → Code Reply}
    (hk : ∀ a lk fs, ∃ r, run intr (k a) lk fs = (.returned r fs, lk)) :
    run intr (discard q) lk fs = (.returned () fs', lk') ↔
      ∃ r, run intr (q >>= k) lk fs = (.returned r fs', lk') := by
  rw [discard_eq]
  refine run_bind_iff fun a lk fs fs' lk' => ?_
  obtain ⟨r, hr⟩ := hk a lk fs
  rw [hr, Prog.run_pure]
  constructor
  · intro h
    cases h
    exact ⟨r, rfl⟩
  · rintro ⟨r', h⟩
    cases h
    rfl

/-- **A call with its answer runs as the call does.** -/
theorem Op.run_code_iff (op : Op) : run intr op.code lk fs = (.returned () fs', lk') ↔
    ∃ r, run intr op.answer lk fs = (.returned r fs', lk') := by
  cases op with
  | iterate d pos => exact run_discard_iff fun _ _ _ => ⟨_, rfl⟩
  | lookup p name =>
    refine run_discard_iff fun ret lk fs => ?_
    by_cases h : ret ≠ 0
    · exact ⟨_, by rw [if_pos h]; rfl⟩
    · exact ⟨_, by rw [if_neg h]; rfl⟩
  | create p name mode => exact run_discard_iff fun _ _ _ => ⟨_, rfl⟩
  | mkdir p name mode => exact run_discard_iff fun _ _ _ => ⟨_, rfl⟩
  | unlink e =>
    refine run_bind_iff fun ret lk fs fs' lk' => ?_
    by_cases h : ret = 0
    · rw [if_pos h, if_pos h, Prog.run_step, Prog.run_step_bind]
      cases dDelete e fs with
      | error err => exact iff_of_false nofun nofun
      | ok r =>
        constructor
        · intro h
          cases h
          exact ⟨_, rfl⟩
        · rintro ⟨r', h⟩
          cases h
          rfl
    · rw [if_neg h, if_neg h]
      constructor
      · intro h
        cases h
        exact ⟨_, rfl⟩
      · rintro ⟨r', h⟩
        cases h
        rfl
  | read d ppos len userOk => exact run_discard_iff fun _ _ _ => ⟨_, rfl⟩
  | write d ppos data copied => exact run_discard_iff fun _ _ _ => ⟨_, rfl⟩
  | release d =>
    constructor
    · intro h
      cases h
      exact ⟨_, rfl⟩
    · rintro ⟨r, h⟩
      cases h
      rfl

end Answers

/-! ## 3. What each call answers -/

section Calls

variable {fs fs' : Fs} {p d e : Nat} {x y : Dentry} {c : DirCache} {name : Name}
  {lk' : LockState Lock} {r : Reply}

/-- A directory, and its names. -/
theorem FsInv.treeDir (hi : FsInv fs Shadow.none) (hx : fs.DirAt p x) :
    fs.volume.tree.DirAt x.slot (fs.dev.names x.inode.block) := by
  obtain ⟨hd, hb⟩ := hi.dir hx
  exact ⟨_, by rw [← hb]; exact Device.node_dir hd⟩

/-- A file that has a name. -/
theorem FsInv.fileAt (hi : FsInv fs Shadow.none) (hx : fs.Current Shadow.none d x)
    (hf : isDir x.inode.mode = false) :
    fs.volume.fileAt (.node x.slot) = some (fs.dev.fileData x.inode) := by
  have hclean := hi.clean d x hx id
  have hnode := Device.node_file (hi.live d x hx).1 (by rw [hclean, hf])
  rw [hclean] at hnode
  have htree : fs.volume.tree x.slot = _ := hnode
  rw [Volume.fileAt, htree]

/-- The used entries of a cache are a listing of the directory. -/
theorem TreeInv.lists {dev : Device} {orphan : Nat → Prop} {s : Nat} (ht : TreeInv dev orphan)
    (hd : dev.graph.dir s) (ha : c.Agrees (dev.record (dev.slot s).block)) :
    Lists (dev.names (dev.slot s).block)
      (c.used.map fun e => (e.record.name, slotIndex e.record.inodeNo)) := by
  have hent : ∀ e ∈ c.used, dev.entry s e.entryNo =
      some (e.record.filename, slotIndex e.record.inodeNo) := by
    intro e he
    obtain ⟨hj, hl, hrec⟩ := ha.used_entry he
    rw [hrec, Device.entry_eq_some hj rfl hl]
  constructor
  case nodup =>
    have hnodup : c.used.Nodup := by
      rw [ha.used]
      exact (increasing_liveEntries _).nodup
    rw [List.map_map]
    refine hnodup.map_on fun e he e' he' heq => ?_
    have hname : e.record.filename = e'.record.filename := congrArg Name.bytes heq
    have hno := ht.wf.label s _ _ _ _ _ hd (hent e he) (hname ▸ hent e' he')
    refine CacheEntry.ext ?_ hno
    rw [(ha.used_entry he).2.2, (ha.used_entry he').2.2, hno]
  case mem_iff =>
    intro name i
    rw [ht.names_eq_some_iff hd, List.mem_map]
    constructor
    · rintro ⟨e, he, heq⟩
      cases heq
      exact ⟨_, hent e he⟩
    · rintro ⟨j, hj⟩
      obtain ⟨hj15, hl, hname, hi⟩ := Device.of_entry_eq_some hj
      refine ⟨⟨dev.record (dev.slot s).block j, j⟩, ?_, ?_⟩
      · rw [ha.used, mem_liveEntries]
        exact ⟨hj15, hl, rfl⟩
      · exact Prod.ext (Name.ext hname) hi

/-- The cache that a listing leaves behind. -/
theorem FsInv.dirCacheOf_agrees (hi : FsInv fs Shadow.none) (hx : fs.dentries p = some x) :
    (dirCacheOf fs x).Agrees (fs.dev.record x.inode.block) := by
  rw [dirCacheOf]
  cases hc : x.fsdata with
  | none =>
    rw [Option.getD_none]
    exact dirCacheBuild_agrees _
  | some c =>
    rw [Option.getD_some]
    exact (hi.cache p x c hx hc).2

/-- **A listing.** -/
theorem FsInv.answer_iterate (hi : FsInv fs Shadow.none) (hx : fs.DirAt d x) (pos : Nat)
    (hrun : run quiet (Op.iterate d pos).answer LockState.free fs = (.returned r fs', lk')) :
    fs.volume.Step (.list x.slot pos, r) fs'.volume := by
  obtain ⟨hd, hb⟩ := hi.dir hx
  change run quiet (simplefsIterate d pos >>= fun r => pure (Reply.listed r.1
    (r.2.map fun record => (record.name, slotIndex record.inodeNo)))) LockState.free fs = _ at hrun
  rw [simplefsIterate, Prog.run_step_bind, iterate_eq hx.1] at hrun
  cases hrun
  have hvol : (fs.setDentry d { x with fsdata := some (dirCacheOf fs x) }).volume = fs.volume :=
    Fs.volume_congr rfl rfl (Fs.unlinked_iff fun e => Fs.setDentry_linked
      { x with fsdata := some (dirCacheOf fs x) } hx.1 hx.2.1 hx.2.1 e)
  rw [hvol]
  by_cases hpos : pos = 0
  · subst hpos
    have hagree := hi.dirCacheOf_agrees hx.1
    rw [← hb] at hagree
    have hlists := hi.tree.lists hd hagree
    rw [hb] at hlists
    have hstep := Volume.Step.list (hi.treeDir hx) hlists
    rw [List.length_map] at hstep
    simpa only [ne_eq, not_true_eq_false, if_false, Nat.zero_add, List.map_map,
      Function.comp_def] using hstep
  · have hstep := Volume.Step.listEnd (hi.treeDir hx) hpos
    simpa only [ne_eq, hpos, not_false_eq_true, if_true, List.map_nil] using hstep

/-- A lookup in a directory whose cache is built, and what comes after it. -/
theorem run_lookup_bind {α : Type} {lk : LockState Lock} (k : Int → Code α)
    (hx : fs.dentries p = some x) (hc : x.fsdata = some c) (name : Name)
    (hl : lk.held .inodesMgmt = false)
    (hlt : ∀ e, usedCacheEntryGet c name = some e → slotIndex e.record.inodeNo < slotsPerBlock) :
    run quiet (simplefsLookup p name >>= k) lk fs =
      run quiet (k 0) lk (match usedCacheEntryGet c name with
        | some e => fs.dAdd p name (fs.dev.slot (slotIndex e.record.inodeNo))
        | none => fs) := by
  have hent : lookupEntry p name fs =
      .ok ((usedCacheEntryGet c name).map fun e => e.record.inodeNo, fs) := by
    simp only [lookupEntry, Fs.dentry_of_eq hx, bind, Except.bind, hc, pure, Except.pure]
  rw [simplefsLookup, bind_assoc, Prog.run_step_bind, hent]
  cases hget : usedCacheEntryGet c name with
  | none => rfl
  | some e =>
    simp only [Option.map_some, bind_assoc, run_getInode _ _ hl, quiet, Bool.false_eq_true,
      if_false, readInode, slotAt_of_lt (hlt e hget), if_pos (hlt e hget), Prog.run_step_bind,
      attach, pure_bind]

/-- **A lookup.** -/
theorem FsInv.answer_lookup (hi : FsInv fs Shadow.none) (hx : fs.DirAt p x)
    (hno : fs.NoChild p name) (hc : x.fsdata = some c)
    (hrun : run quiet (Op.lookup p name).answer LockState.free fs = (.returned r fs', lk')) :
    fs.volume.Step (.lookup x.slot name, r) fs'.volume := by
  obtain ⟨hd, hb⟩ := hi.dir hx
  have ha := (hi.cache p x c hx.1 hc).2
  have hstep : fs.volume.Step (.lookup x.slot name, .found _) fs.volume :=
    .lookup (hi.treeDir hx)
  have hnames : fs.dev.names x.inode.block name =
      (usedCacheEntryGet c name).map fun e => slotIndex e.record.inodeNo := by
    rw [ha.mirrors.get name, Option.map_map]
    rfl
  rw [Op.answer, run_lookup_bind _ hx.1 hc name rfl (hi.lookup_lt hx.1 hc)] at hrun
  simp only [ne_eq, not_true_eq_false, if_false, Prog.run_read_bind, Prog.run_pure] at hrun
  cases hget : usedCacheEntryGet c name with
  | none =>
    rw [hget] at hrun hnames
    simp only [(Fs.child_none hi.fresh).mpr hno, Option.bind_none] at hrun
    cases hrun
    rwa [hnames] at hstep
  | some e =>
    rw [hget, Option.map_some] at hnames
    have hnext : fs.next ≠ 0 := by
      intro h0
      obtain ⟨z, ⟨hz, -, -⟩, -⟩ := hi.root
      rw [hi.fresh 0 (by omega)] at hz
      cases hz
    -- the slot is live, so the inode that is fetched has its number
    have hlive : fs.dev.Live (slotIndex e.record.inodeNo) := by
      refine hi.tree.live_of_names hd (show fs.dev.names _ name = _ from ?_)
      rw [hb, hnames]
    have hslot : slotIndex (fs.dev.slot (slotIndex e.record.inodeNo)).inodeNo =
        slotIndex e.record.inodeNo := by
      rw [(hi.store.slots _ hlive).1, slotIndex_inoOf hlive.lt]
    have hnew : (fs.dAdd p name (fs.dev.slot (slotIndex e.record.inodeNo))).dentries fs.next =
        some ⟨p, name, fs.dev.slot (slotIndex e.record.inodeNo), none, true⟩ := by
      rw [Fs.dAdd_dentries, if_pos rfl]
    have hvol : (fs.dAdd p name (fs.dev.slot (slotIndex e.record.inodeNo))).volume = fs.volume :=
      Fs.volume_congr rfl rfl (Fs.unlinked_iff fun d =>
        Fs.dAdd_linked (hi.fresh _ (Nat.le_refl _)) p name _ d)
    rw [hget] at hrun
    simp only [Fs.child_dAdd hnext hno, Option.bind_some, hnew, Option.map_some, Dentry.slot,
      hslot] at hrun
    cases hrun
    rw [hvol]
    rwa [hnames] at hstep

/-- There are never as many inodes as `simplefs_create_fs_object` allows: their slots are the
first 63. -/
theorem StoreInv.inodesCount_lt {dev : Device} {imap : BitVec 64} {pend : Nat → Prop}
    (hs : StoreInv dev imap pend) : dev.inodesCount.toNat < maxObjects := by
  have hsub : dev.liveSlots ⊆ Finset.range 63 := by
    intro i hi
    exact Finset.mem_range.mpr (hs.slots i (Device.mem_liveSlots.mp hi)).2
  have hcard := Finset.card_le_card hsub
  rw [Finset.card_range] at hcard
  rw [hs.count, BitVec.toNat_ofNat]
  exact Nat.lt_of_le_of_lt (Nat.mod_le _ _) (show dev.liveSlots.card < 64 by omega)

/-- The status of a create: the mode is no good, there is no room, or it is done. -/
theorem FsInv.run_create_status (hi : FsInv fs Shadow.none) (hx : fs.DirAt p x)
    (hdef : fs.HasFreeEntry p ∧ name.bytes.length ≤ 255) (mode : BitVec 16) :
    ∃ ret fs', (run quiet (simplefsCreateFsObject p name mode) LockState.free fs).1 =
        .returned ret fs' ∧
      (¬ Creatable (mode.setWidth 32) ∧ ret = - EINVAL ∧ fs' = fs ∨
        Creatable (mode.setWidth 32) ∧ fs.dev.freeRoom = 0 ∧ ret = - ENOSPC ∧ fs' = fs ∨
        Creatable (mode.setWidth 32) ∧ 0 < fs.dev.freeRoom ∧ ret = 0 ∧
          ∃ c i b e, fs.SoundAt p x c ∧ Fs.SoundAt.Picked fs c name i b e ∧
            fs' = Fs.SoundAt.created fs p x c e name mode i b) := by
  obtain ⟨⟨x', c, hx', hc, hfree⟩, hname⟩ := hdef
  cases hx.1.symm.trans hx'
  have hs := hi.soundAt hx hc
  have hlt := hi.store.inodesCount_lt
  by_cases hmode : Creatable (mode.setWidth 32)
  swap
  · have hbad : (!isDir (mode.setWidth 32) && !isReg (mode.setWidth 32)) = true := by
      simpa [Creatable] using hmode
    have hfull : ¬ maxObjects ≤ fs.dev.inodesCount.toNat := by omega
    refine ⟨_, _, ?_, Or.inl ⟨hmode, rfl, rfl⟩⟩
    unfold simplefsCreateFsObject
    simp only [Prog.run_step_bind, bugOnNoCache_eq hx.1 hc, Prog.run_lock_bind,
      LockState.free_held, quiet, Bool.false_eq_true, if_false]
    rw [run_getObjectsCount _ rfl]
    simp only [quiet, Bool.false_eq_true, if_false, if_neg hfull, if_pos hbad,
      Prog.run_unlock_bind, Prog.run_pure]
  have hstarts : fs.CreateStarts mode quiet := ⟨rfl, rfl, hlt, hmode⟩
  cases hscan : freeBlockScan fs.dev.freeBlocks with
  | none =>
    refine ⟨- ENOSPC, fs, ?_, Or.inr (Or.inl ⟨hmode,
      hi.store.freeRoom_eq_zero_iff.mpr hscan, rfl, rfl⟩)⟩
    obtain ⟨i, hpick, -, -⟩ := hs.pick
    rw [← bind_pure (simplefsCreateFsObject p name mode),
      run_create_started _ hx.1 hc LockState.free_held hstarts, hpick]
    simp only [quiet, Bool.false_eq_true, if_false, hscan, Prog.run_pure]
  | some b =>
    have haway : ¬ fs.TurnedAway mode quiet := by
      rintro (h | h | h)
      · exact h hstarts
      · cases h
      · rw [hscan] at h
        cases h
    have hgo := hi.goesThrough hx ⟨⟨x, c, hx', hc, hfree⟩, hname⟩
    obtain ⟨i, b', e, hp, hend⟩ := hs.run_goesThrough LockState.free_held haway hgo
    refine ⟨0, _, hend, Or.inr (Or.inr ⟨hmode, ?_, rfl, c, i, b', e, hs, hp, rfl⟩)⟩
    refine Nat.pos_of_ne_zero fun h0 => ?_
    rw [hi.store.freeRoom_eq_zero_iff, hscan] at h0
    cases h0

/-- **A create.** -/
theorem FsInv.answer_create (hi : FsInv fs Shadow.none) (hst : fs.StaleOk)
    (habs : fs.Absent p name) (hdef : fs.HasFreeEntry p ∧ name.bytes.length ≤ 255)
    (mode : BitVec 16) (hx : fs.dentries p = some x) (hi' : FsInv fs' Shadow.none)
    (hrun : run quiet (simplefsCreateFsObject p name mode >>= fun ret => pure (Reply.status ret))
      LockState.free fs = (.returned r fs', lk')) :
    fs.volume.Step (.create x.slot name mode, r) fs'.volume := by
  obtain ⟨x', hdir, -⟩ := id habs
  cases hx.symm.trans hdir.1
  obtain ⟨ret, fs1, hend, hcases⟩ := hi.run_create_status hdir hdef mode
  rw [Prog.run_bind] at hrun
  rcases hq : run quiet (simplefsCreateFsObject p name mode) LockState.free fs with ⟨ending, lk1⟩
  rw [hq] at hrun hend
  cases hend
  cases hrun
  rcases hcases with ⟨hmode, rfl, rfl⟩ | ⟨hmode, hroom, rfl, rfl⟩ |
    ⟨hmode, hroom, rfl, c, i, b, e, hs, hp, rfl⟩
  · exact .createMode hmode
  · exact .createFull hmode hroom
  · have hnew := hs.no_name hdir habs
    rw [hi.volume_created hst hdir hs hp hi' hnew]
    exact .create (hi.treeDir hdir) hnew (Device.node_none hp.dead) hmode hroom

/-- **An unlink.** -/
theorem FsInv.answer_unlink (hi : FsInv fs Shadow.none) (hst : fs.StaleOk)
    (ha : (Op.unlink e).Allowed fs) (hdef : (Op.unlink e).Defined fs) (hi' : FsInv fs' Shadow.none)
    (hy : fs.dentries e = some y) (hx : fs.dentries y.parent = some x)
    (hrun : run quiet (Op.unlink e).answer LockState.free fs = (.returned r fs', lk')) :
    fs.volume.Step (.unlink x.slot y.name e, r) fs'.volume := by
  have hcode := (Op.unlink e).run_code_iff.mpr ⟨r, hrun⟩
  obtain ⟨y', x', c, entry, hu, hget, h15, rfl⟩ := hi.unlinked_of_run ha hdef hcode
  cases hy.symm.trans hu.cur.1
  cases hx.symm.trans hu.dir.1
  have hr : r = .status 0 := by
    rw [Op.answer, hu.run hi hget rfl rfl] at hrun
    simp only [quiet, Bool.false_eq_true, if_false, if_true, Prog.run_step_bind] at hrun
    split at hrun
    · cases hrun
    · cases hrun
      rfl
  rw [hr, hi.volume_unlinked hst hu hget hi']
  exact .unlink (hi.treeDir hu.dir) (hi.node_unlinked hu hget hi').1 (hi.fileAt hu.cur hu.file)

/-- **A read**, of a file with or without a name. -/
theorem FsInv.answer_read (hi : FsInv fs Shadow.none) (hx : fs.dentries d = some x)
    (hreg : isReg x.inode.mode = true) (ppos len : Nat) (userOk : Bool)
    (hrun : run quiet (Op.read d ppos len userOk).answer LockState.free fs =
      (.returned r fs', lk')) :
    fs.volume.Step (.read (if x.linked then .node x.slot else .gone d) ppos len userOk, r)
      fs'.volume := by
  have hfile : fs.volume.fileAt (if x.linked then .node x.slot else .gone d) =
      some (fs.dev.fileData x.inode) := by
    cases hl : x.linked with
    | true => exact hi.fileAt ⟨hx, hl, id⟩ (not_isDir_of_isReg hreg)
    | false => exact Fs.gone_eq_some.mpr ⟨x, hx, hl, rfl⟩
  have hstep : fs.volume.Step (.read _ ppos len userOk, .bytes _ _) fs.volume := .read hfile
  -- the read is inside the block, or it would not have returned
  have hread : ∀ q fs1, readFile d ppos len userOk fs = .ok (q, fs1) →
      fs1 = fs ∧ q = (fs.dev.fileData x.inode).read ppos len userOk := by
    intro q fs1 hq
    simp only [readFile, Fs.dentry_of_eq hx, bind, Except.bind, pure, Except.pure] at hq
    rw [FileData.read, Device.size_fileData]
    split at hq
    · rename_i hle
      cases hq
      rw [if_pos hle]
      exact ⟨rfl, rfl⟩
    rename_i hle
    rw [if_neg hle]
    split at hq
    · cases hq
    rename_i hn
    have hbytes : (List.range (min x.inode.fileSize.toNat len)).map
          (fs.dev.byte x.inode.block) =
        (List.range (min x.inode.fileSize.toNat len)).map (fs.dev.fileData x.inode).bytes := by
      refine List.map_congr_left fun off hoff => ?_
      rw [Device.bytes_fileData, if_pos (by have := List.mem_range.mp hoff; omega)]
    cases userOk with
    | true =>
      cases hq
      rw [← hbytes]
      exact ⟨rfl, rfl⟩
    | false =>
      cases hq
      exact ⟨rfl, rfl⟩
  rw [Op.answer, simplefsRead, Prog.run_step_bind] at hrun
  cases hq : readFile d ppos len userOk fs with
  | error err =>
    rw [hq] at hrun
    cases hrun
  | ok q =>
    obtain ⟨hfs, hval⟩ := hread q.1 q.2 hq
    rw [hq] at hrun
    cases hrun
    rwa [hfs, hval]

/-- **A write**, to a file that has a name. -/
theorem FsInv.answer_write (hi : FsInv fs Shadow.none) (hst : fs.StaleOk)
    (hx : fs.Current Shadow.none d x) (hreg : isReg x.inode.mode = true) {ppos : Nat}
    {data : List UInt8} (hlen : ppos + data.length ≤ 4096) (copied : Nat)
    (hrun : run quiet (Op.write d ppos data copied).answer LockState.free fs =
      (.returned r fs', lk')) :
    fs.volume.Step (.write x.slot ppos data copied, r) fs'.volume := by
  have hf := not_isDir_of_isReg hreg
  have hcode := (Op.write d ppos data copied).run_code_iff.mpr ⟨r, hrun⟩
  rw [(hi.run_write hx hreg hlen copied).1] at hcode
  cases hcode
  have hstep : fs.volume.Step (.write x.slot ppos data copied, .written _ _) _ :=
    .write (hi.fileAt hx hf)
  have hr : r = .written ((fs.dev.fileData x.inode).write ppos data copied).1.1
      ((fs.dev.fileData x.inode).write ppos data copied).1.2 := by
    have hx1 : (fs.copiedIn x ppos data copied).Current Shadow.none d x := hx
    obtain ⟨hsave, -⟩ := (hi.copiedIn hx hf hlen copied).resize hx1 (ppos + data.length)
    have hfit : Fits ppos data := Or.inr hlen
    rw [Op.answer, Simplefs.run_write _ hx.1 rfl rfl, if_pos hfit] at hrun
    rw [FileData.write]
    by_cases hc : copied < data.length
    · rw [if_pos hc] at hrun
      rw [if_pos hc]
      exact (Prog.Ending.returned.inj (Prod.mk.inj hrun).1).1.symm
    · rw [if_neg hc] at hrun
      rw [if_neg hc]
      simp only [quiet, Bool.false_eq_true, if_false, hsave, if_true] at hrun
      exact (Prog.Ending.returned.inj (Prod.mk.inj hrun).1).1.symm
  rw [hr, hi.volume_written hst hx hf hlen copied]
  exact hstep

end Calls

/-! ## 4. Whole runs -/

/-- The system as its users see it: what they ask for, in the state in which they ask, and what
they get. -/
inductive Serves : Sys → Request × Reply → Sys → Prop
  | mount {lk lk' dev past ret fs}
      (hrun : run quiet simplefsFillSuper lk (Fs.blank dev past) = (.returned ret fs, lk')) :
      Serves ⟨lk, .offline dev⟩ (.mount, .status ret)
        ⟨lk', if ret = 0 then .mounted fs else .offline dev⟩
  | umount {lk fs} : Serves ⟨lk, .mounted fs⟩ (.umount, .status 0) ⟨lk, .offline fs.flushed⟩
  | call {lk lk' fs fs' request r} {op : Op} (ha : op.Allowed fs) (hdef : op.Defined fs)
      (hrq : op.request fs = some request)
      (hrun : run quiet op.answer lk fs = (.returned r fs', lk')) :
      Serves ⟨lk, .mounted fs⟩ (request, r) ⟨lk', .mounted fs'⟩

/-- A call that the VFS may make has its dentries. -/
theorem Op.request_some {fs : Fs} {op : Op} (ha : op.Allowed fs) (hdef : op.Defined fs) :
    ∃ request, op.request fs = some request := by
  cases op with
  | iterate d pos =>
    obtain ⟨x, hx⟩ := ha
    exact ⟨_, by rw [Op.request, hx.1, Option.map_some]⟩
  | lookup p name =>
    obtain ⟨x, hx, -⟩ := ha
    exact ⟨_, by rw [Op.request, hx.1, Option.map_some]⟩
  | create p name mode =>
    obtain ⟨x, hx, -⟩ := ha
    exact ⟨_, by rw [Op.request, hx.1, Option.map_some]⟩
  | mkdir p name mode =>
    obtain ⟨x, hx, -⟩ := ha
    exact ⟨_, by rw [Op.request, hx.1, Option.map_some]⟩
  | unlink e =>
    obtain ⟨-, y, hy, -⟩ := ha
    obtain ⟨x, c, hx, -⟩ := hdef y hy
    exact ⟨.unlink x.slot y.name e, by
      rw [Op.request, hy, Option.bind_eq_bind, Option.bind_some, hx]
      rfl⟩
  | read d ppos len userOk =>
    obtain ⟨x, hx, -⟩ := ha
    exact ⟨_, by rw [Op.request, hx, Option.map_some]⟩
  | write d ppos data copied =>
    obtain ⟨x, hx, -⟩ := ha
    exact ⟨_, by rw [Op.request, hx, Option.map_some]⟩
  | release d => exact ⟨_, rfl⟩

/-- **The steps inside the defined cases are the steps its users see.** -/
theorem definedStep_iff (s s' : Sys) : DefinedStep s s' ↔ ∃ l, Serves s l s' := by
  constructor
  · rintro ⟨ev, ha, hdef, happ⟩
    cases hev : ev.leadsTo happ with
    | refused =>
      obtain ⟨ret, fs, lk', hrun, heq⟩ := Event.apply_mount_iff.mp happ
      have h := Serves.mount hrun
      rw [← heq] at h
      exact ⟨_, h⟩
    | mount hmap =>
      obtain ⟨ret, fs, lk', hrun, heq⟩ := Event.apply_mount_iff.mp happ
      have h := Serves.mount hrun
      rw [← heq] at h
      exact ⟨_, h⟩
    | umount => exact ⟨_, .umount⟩
    | call hrun =>
      rename_i lk lk' op intr fs fs'
      obtain ⟨rfl, hd⟩ := hdef op _ fs rfl rfl
      obtain ⟨request, hrq⟩ := Op.request_some (ha op _ fs rfl rfl) hd
      obtain ⟨r, hr⟩ := op.run_code_iff.mp hrun
      exact ⟨_, .call (ha op _ fs rfl rfl) hd hrq hr⟩
  · rintro ⟨l, h⟩
    cases h with
    | mount hrun =>
      exact ⟨.mount _, nofun, nofun, Event.apply_mount_iff.mpr ⟨_, _, _, hrun, rfl⟩⟩
    | umount => exact .umount _ _
    | call ha hdef hrq hrun => exact .call ha hdef (Op.run_code_iff _ |>.mpr ⟨_, hrun⟩)

/-- **What a call does is what its request does to the volume.** -/
theorem FsInv.answer_step {fs fs' : Fs} {op : Op} {lk' : LockState Lock} {request : Request}
    {r : Reply} (hi : FsInv fs Shadow.none) (hst : fs.StaleOk) (ha : op.Allowed fs)
    (hdef : op.Defined fs) (hrq : op.request fs = some request)
    (hrun : run quiet op.answer LockState.free fs = (.returned r fs', lk')) :
    fs.volume.Step (request, r) fs'.volume := by
  have hi' := (hi.call ha hdef (op.run_code_iff.mpr ⟨r, hrun⟩)).2
  cases op with
  | iterate d pos =>
    obtain ⟨x, hx⟩ := ha
    rw [Op.request, hx.1] at hrq
    cases hrq
    exact hi.answer_iterate hx pos hrun
  | lookup p name =>
    obtain ⟨x, hx, hno⟩ := ha
    obtain ⟨x', c, hx', hc⟩ := hdef
    cases hx.1.symm.trans hx'
    rw [Op.request, hx.1] at hrq
    cases hrq
    exact hi.answer_lookup hx hno hc hrun
  | create p name mode =>
    obtain ⟨x, hx, -⟩ := id ha
    rw [Op.request, hx.1] at hrq
    cases hrq
    exact hi.answer_create hst ha hdef mode hx.1 hi' hrun
  | mkdir p name mode =>
    obtain ⟨x, hx, -⟩ := id ha
    rw [Op.request, hx.1] at hrq
    cases hrq
    exact hi.answer_create hst ha hdef (0x4000 ||| mode) hx.1 hi' hrun
  | unlink e =>
    obtain ⟨-, y, hy, -⟩ := id ha
    obtain ⟨x, c, hx, -⟩ := hdef y hy
    rw [Op.request, hy, Option.bind_eq_bind, Option.bind_some, hx] at hrq
    cases hrq
    exact hi.answer_unlink hst ha hdef hi' hy hx hrun
  | read d ppos len userOk =>
    obtain ⟨x, hx, hreg⟩ := ha
    rw [Op.request, hx] at hrq
    cases hrq
    exact hi.answer_read hx hreg ppos len userOk hrun
  | write d ppos data copied =>
    obtain ⟨x, hx, hreg⟩ := ha
    rw [Op.request, hx] at hrq
    cases hrq
    exact hi.answer_write hst ⟨hx, hdef.2 x hx, id⟩ hreg hdef.1 copied hrun
  | release d =>
    cases hrq
    cases hrun
    rw [fs.volume_released d]
    exact .release

/-- A device that is mounted is the same volume, with nothing open. -/
theorem volume_mountedFs (dev : Device) (imap past : BitVec 64) :
    (mountedFs dev imap past).volume =
      ⟨dev.node, fun _ => none, dev.freeRoom, fun _ => none⟩ := by
  refine Volume.ext rfl ?_ rfl (funext fun i => ite_self _)
  funext e
  refine Option.eq_none_iff_forall_ne_some.mpr fun data h => ?_
  obtain ⟨y, hy, hl, -⟩ := Fs.gone_eq_some.mp h
  obtain ⟨-, rfl⟩ := mountedFs_dentries hy
  cases hl

/-- **The simulation.** -/
def volumeSimulation : Simulation Serves Volume.Step where
  inv := HandleInv
  abs := Sys.volume
  keeps s l s' hi hstep := HandleStep.inv (.defined ((definedStep_iff s s').mpr ⟨l, hstep⟩)) hi
  follows s l s' hi hstep := by
    cases hstep with
    | mount hrun =>
      -- a device that such runs leave is never refused
      obtain ⟨imap, hs, -⟩ := hi.sys.offline _ rfl
      cases hi.sys.locks
      rw [run_fillSuper hs _ rfl] at hrun
      cases hrun
      change Volume.Step _ _ (Fs.volume _)
      rw [volume_mountedFs]
      exact .mount
    | umount =>
      simp only [Sys.volume, (hi.sys.mounted _ rfl).volume_flushed]
      exact .umount
    | call ha hdef hrq hrun =>
      rename_i lk lk' fs fs' op request r
      obtain ⟨hlocks, -, hmounted⟩ := hi.sys
      cases hlocks
      exact (hmounted fs rfl).answer_step (hi.stale fs rfl) ha hdef hrq hrun

/-! ## 5. What `mkfs` leaves -/

/-- The root, with the welcome file in it, and 31 blocks to go. -/
def Volume.initial : Volume where
  tree i :=
    if i = 0 then
      some (.dir rootInode.mode (Function.update (fun _ => none) welcomeName (some 1)))
    else if i = 1 then
      some (.file welcomeInode.mode
        ⟨welcomefileBody.length, fun off => welcomefileBody.getD off 0⟩)
    else none
  gone _ := none
  room := 31
  kept _ := none

theorem freshDevice_names : freshDevice.names 2 =
    Function.update (fun _ => none) welcomeName (some 1) := by
  have hd : freshDevice.graph.dir 0 := freshDevice.dir_iff.mpr rfl
  funext name
  refine Option.ext fun k => ?_
  have hblock : freshDevice.names 2 = freshDevice.names (freshDevice.slot 0).block := by
    rw [freshDevice.block_zero]
  rw [hblock, freshDevice.tree.names_eq_some_iff hd, Function.update_apply]
  simp only [freshDevice.entry_eq]
  constructor
  · rintro ⟨j, hj⟩
    split at hj
    · obtain ⟨hname, rfl⟩ := Prod.mk.inj (Option.some.inj hj)
      rw [if_pos (Name.ext hname.symm)]
    · cases hj
  · intro h
    split at h
    · rename_i hname
      cases h
      exact ⟨0, by rw [if_pos rfl, hname]; rfl⟩
    · cases h

theorem freshDevice_fileData : freshDevice.fileData welcomeInode =
    ⟨welcomefileBody.length, fun off => welcomefileBody.getD off 0⟩ := by
  refine FileData.ext ?_ ?_
  · rw [Device.size_fileData, welcomeInode, length_welcomefileBody]
    rfl
  · funext off
    rw [Device.bytes_fileData]
    have hlen := length_welcomefileBody
    change (if off < 4096 then freshDevice.byte 3 off else 0) = welcomefileBody.getD off 0
    rcases Nat.lt_or_ge off 41 with hlt | hge
    · rw [if_pos (by omega), freshDevice.byte_three hlt]
    · rw [List.getD_eq_default _ _ (by omega)]
      refine ite_eq_right_iff.mpr fun hoff => ?_
      change formatDevice zeroMem (4096 * 3 + off) = 0
      exact formatDevice.eq_old zeroMem (by omega) (by omega) (by omega) (by omega)

theorem freshDevice_volume :
    (⟨freshDevice.node, fun _ => none, freshDevice.freeRoom, fun _ => none⟩ : Volume) =
      Volume.initial := by
  refine Volume.ext ?_ rfl ?_ rfl
  · funext i
    change freshDevice.node i = if i = 0 then _ else if i = 1 then _ else none
    by_cases h0 : i = 0
    · rw [if_pos h0, h0, Device.node_dir (freshDevice.dir_iff.mpr rfl), freshDevice.block_zero,
        freshDevice_names, freshDevice.slot_zero]
    rw [if_neg h0]
    by_cases h1 : i = 1
    · rw [if_pos h1, h1, Device.node_file (freshDevice.live_iff.mpr (by omega))
        (by rw [freshDevice.slot_one]; decide), freshDevice.slot_one, freshDevice_fileData]
    · rw [if_neg h1, Device.node_none]
      exact fun hl => by have := freshDevice.live_iff.mp hl; omega
  · change freshDevice.freeRoom = 31
    rw [Device.freeRoom, freshDevice.freeBlocks]
    decide

/-! ## 6. The results -/

section Results

variable {size : Nat} {dev : Device} {ls : List (Request × Reply)} {s : Sys}

theorem volume_mkfs (hmk : mkfs zeroMem size = (0, dev)) :
    Sys.volume ⟨LockState.free, .offline dev⟩ = Volume.initial := by
  rw [mkfs_ok hmk]
  exact freshDevice_volume

/-- What a run with its labels reaches, and what it does to the volume. -/
theorem Serves.run_inv (hmk : mkfs zeroMem size = (0, dev))
    (htr : Trace Serves ⟨LockState.free, .offline dev⟩ ls s) :
    HandleInv s ∧ Volume.initial.Run ls s.volume := by
  have h := volumeSimulation.trace htr (HandleInv.of_offline (sysInv_mkfs hmk))
  rw [← volume_mkfs hmk]
  exact h

/-- **31 creates**: that many succeed between one `mkfs` and the next, whatever is unlinked and
however often the device is mounted, and from then on each is refused for want of room. -/
theorem Serves.creates (hmk : mkfs zeroMem size = (0, dev))
    (htr : Trace Serves ⟨LockState.free, .offline dev⟩ ls s) :
    (ls.map created).sum ≤ 31 ∧
    ∀ lk fs p name mode, s = ⟨lk, .mounted fs⟩ → (Op.create p name mode).Allowed fs →
      (Op.create p name mode).Defined fs → Creatable (mode.setWidth 32) →
      ∃ ret fs', run quiet (simplefsCreate p name mode) lk fs = (.returned ret fs', lk) ∧
        (ret = 0 ↔ (ls.map created).sum < 31) ∧ (ret ≠ 0 → ret = - ENOSPC ∧ fs' = fs) := by
  obtain ⟨hinv, hvol⟩ := Serves.run_inv hmk htr
  have hroom := hvol.room
  have h31 : Volume.initial.room = 31 := rfl
  refine ⟨by omega, ?_⟩
  rintro lk fs p name mode rfl ha hdef hmode
  have hi := hinv.sys.mounted fs rfl
  cases hinv.sys.locks
  obtain ⟨x, hx, -⟩ := id ha
  obtain ⟨ret, fs', hend, hcases⟩ := hi.run_create_status hx hdef mode
  have hlk : run quiet (simplefsCreate p name mode) LockState.free fs =
      (.returned ret fs', LockState.free) := by
    rcases hq : run quiet (simplefsCreateFsObject p name mode) LockState.free fs with ⟨ending, lk1⟩
    rw [hq] at hend
    cases hend
    have hcode : run quiet (Op.create p name mode).code LockState.free fs =
        (.returned () fs', lk1) := by
      change run quiet (discard (simplefsCreateFsObject p name mode)) LockState.free fs = _
      rw [discard_eq, Prog.run_bind, hq]
      rfl
    rw [(hi.call ha hdef hcode).1] at hq
    exact hq
  change fs.dev.freeRoom + (ls.map created).sum = 31 at hroom
  refine ⟨ret, fs', hlk, ?_⟩
  rcases hcases with ⟨hbad, -⟩ | ⟨-, h0, rfl, rfl⟩ | ⟨-, hpos, rfl, -⟩
  · exact absurd hmode hbad
  · exact ⟨iff_of_false (by decide) (by omega), fun _ => ⟨rfl, rfl⟩⟩
  · exact ⟨iff_of_true rfl (by omega), fun h => absurd rfl h⟩

/-- On a fresh filesystem there is room. -/
theorem Serves.creates_listed : ∃ ls,
    Trace Serves ⟨LockState.free, .offline freshDevice⟩ ls ⟨LockState.free, .mounted listedFs⟩ ∧
    ∃ ret fs', run quiet (simplefsCreate 0 newName 0x81a4) LockState.free listedFs =
        (.returned ret fs', LockState.free) ∧
      (ret = 0 ↔ (ls.map created).sum < 31) ∧ (ret ≠ 0 → ret = - ENOSPC ∧ fs' = listedFs) := by
  obtain ⟨ls, htr⟩ := (Trace.iff_reflTransGen definedStep_iff).mp DefinedRun.listed
  exact ⟨ls, htr, (Serves.creates mkfs_fresh htr).2 _ _ 0 newName 0x81a4 rfl listedFs_newName
    ⟨listedFs_hasFreeEntry, by decide⟩ (Or.inr (by decide))⟩

end Results

end Simplefs
