/-
# A power failure never shows half a call

What the calls leave (`Durability.lean`) is followed through whole runs: mounts, unmounts and the
uninterrupted calls of the cases the source handles, with the kernel writing back what it likes.
Whenever the power fails in such a run, the paths on the device are those of the tree before the
call that is cut off, all of them, or those of the tree after it, all of them.

The contents lag further behind.  A block is torn from a write whose copy fails to the next one that
goes through, or to an unmount, which drops the copy.
-/
import Simplefs.Durability
import Simplefs.Ownership
import Simplefs.Paths
import Simplefs.Tidy

namespace Simplefs

open Prog (LockState Passes Steady)

/-! ## 1. What a call makes of the slots and the map -/

/-- No block becomes available and no directory goes; an inode that was there is the same, and one
that was not has a block that was available, and no names. -/
structure Device.Grows (dev dev' : Device) : Prop where
  free : ∀ b, Avail dev'.freeBlocks b → Avail dev.freeBlocks b
  dirs : ∀ i, dev.graph.dir i → dev'.Live i
  old : ∀ i, dev'.Live i → dev.Live i → (dev'.slot i).Same (dev.slot i)
  new : ∀ i, dev'.Live i → ¬ dev.Live i → 3 ≤ (dev'.slot i).block ∧
    Avail dev.freeBlocks (dev'.slot i).block ∧ ∀ name, FileTree.child dev'.node i name = none
  plain : dev.Plain → dev'.Plain

section Grows

variable {fs fs' : Fs} {lk' : LockState Lock} {p e : Nat} {x y : Dentry} {cache : DirCache}
  {entry : CacheEntry} {name : Name} {mode : BitVec 16}

theorem Device.Grows.refl (dev : Device) : dev.Grows dev :=
  ⟨fun _ => id, fun _ h => h.1, fun _ _ _ => .refl _, fun _ hl hno => absurd hl hno, id⟩

/-- A create. -/
theorem FsInv.create_grows (hi : FsInv fs Shadow.none) (ha : fs.Absent p name)
    (hdef : fs.HasFreeEntry p ∧ name.bytes.length ≤ 255) (hi' : FsInv fs' Shadow.none)
    (hrun : (Prog.run quiet (discard (simplefsCreateFsObject p name mode)) LockState.free fs).1 =
      .returned () fs') : fs.dev.Grows fs'.dev := by
  obtain ⟨x, hx, -⟩ := id ha
  rcases hi.created_of_run hx hdef hrun with rfl | ⟨cache, i, b, entry, hs, hp, rfl⟩
  · exact .refl _
  have hl := (hi.dir hx).1.1
  have hlt := hs.room_of_keeps hp.entry hp.keeps
  obtain ⟨h3, h34, hav⟩ := hs.store.high.scan_some hp.block
  have hnew := hs.no_name hx ha
  have hsame : ∀ k, fs.dev.Live k → _ := fun k hk =>
    (hs.sameFile_created hp hl hx.2.2 mode hk).same
  refine ⟨fun b' hb => ?_, fun k hk => (Device.live_congr_no (hsame k hk.1).inodeNo).mpr hk.1,
    fun k _ hk => hsame k hk, fun k hk hno => ?_,
    fun hplain => hs.plain_created hp hl hplain hx.2.2 mode⟩
  · rw [(hs.counts_created mode i b hlt).2] at hb
    exact Avail.of_takeBlock hb
  · have hki : k = i := by
      by_contra hki
      refine hno ((Device.live_congr (hs.slots_created hp mode hk.1 (fun hkx => ?_) hki)).mp hk)
      exact hno (hkx ▸ hl)
    have hblock : ((Fs.SoundAt.created fs p x cache entry name mode i b).dev.slot i).block = b := by
      rw [(hs.slot_new hp hl mode).1]
      exact block_newInode mode (i + 1) (by omega)
    rw [hki, hblock]
    refine ⟨h3, hav, fun name' => ?_⟩
    rw [hi.node_created hx hs hp hi' hnew]
    have hself : FileTree.child fs.dev.node i name' = none := by
      rw [FileTree.child, Device.node_none hp.dead]
    rw [FileTree.child_link ⟨_, Device.node_dir (hi.dir hx).1⟩ (Device.node_none hp.dead) ?_ name i
      name', if_neg fun h => hp.dead (by rw [h.1]; exact hl), hself]
    exact newNode_nameless _

/-- An unlink. -/
theorem Fs.Unlinkable.grows (hu : fs.Unlinkable e y x cache) (hi : FsInv fs Shadow.none)
    (h15 : entry.entryNo < 15) : fs.dev.Grows (fs.unlinked e y x cache entry).dev := by
  refine ⟨fun b hb => ?_, fun i hd => ?_, fun i hl hold => ?_, fun i hl hno => ?_,
    hu.plain hi h15⟩
  · rwa [hu.freeBlocks_unlinked hi h15] at hb
  · -- the file is no directory
    have hne : i ≠ y.slot := by
      rintro rfl
      have hf := hd.2
      rw [← (hi.live e y hu.cur).2.2.mode, hu.file] at hf
      cases hf
    refine (Device.live_congr_no ?_).mpr hd.1
    rw [hu.slot_unlinked hi h15 hd.1.lt, if_neg hne]
    split
    · rename_i hix
      rw [hix]
      exact (hi.live _ x (hi.current_of_dirAt hu.dir)).2.2.inodeNo
    · rfl
  · have hself : fs.dev.Slots i (fs.dev.slot i) := ⟨fun _ => .refl _, fun hno => absurd hold hno⟩
    exact ((hu.slots hi h15 hl.1 hself).1 hl).same.symm
  · exact absurd (hu.was_live hi h15 hl).1 hno

/-- A write. -/
theorem FsInv.write_grows {d ppos : Nat} {data : List UInt8} (hi : FsInv fs Shadow.none)
    (hx : fs.Current Shadow.none d x) (copied : Nat) :
    fs.dev.Grows (fs.written d x ppos data copied).dev := by
  obtain ⟨hxl, -, hsame⟩ := hi.live d x hx
  have h2 := hi.two_le hx
  have hslot : ∀ i, i < 128 → ((fs.written d x ppos data copied).dev.slot i).Same
      (fs.dev.slot i) := by
    intro i hi'
    rw [hi.slot_written hx ppos data copied hi']
    split
    · rename_i h
      rw [h.1]
      exact ⟨hsame.mode, hsame.inodeNo, hsame.dataBlockNumber⟩
    · exact .refl _
  refine ⟨fun b hb => ?_, fun i hd => (Device.live_congr_no (hslot i hd.1.lt).inodeNo).mpr hd.1,
    fun i hl _ => hslot i hl.lt, fun i hl hno => ?_, fun hplain => ?_⟩
  · have hput := Device.freeBlocks_congr
      (Device.agreeOff_putData fs.dev x.inode.block ppos (copiedBytes data copied)) (by omega)
    rw [Fs.dev_written] at hb
    split at hb
    · rwa [hput] at hb
    · rwa [Device.freeBlocks_setSlot, hput] at hb
  · exact absurd ((Device.live_congr_no (hslot i hl.lt).inodeNo).mp hl) hno
  · have hplain' : (fs.copiedIn x ppos data copied).dev.Plain := hi.plain_copiedIn hx hplain
    unfold Fs.written
    split
    · exact hplain'
    · refine Device.plain_setSlot hplain' (k := x.slot) ?_
      change x.inode.inodeNo ≠ 0#64
      rw [hsame.inodeNo]
      exact hxl.2

/-- **Every call.** -/
theorem FsInv.call_grows {op : Op} (hi : FsInv fs Shadow.none) (ha : op.Allowed fs)
    (hdef : op.Defined fs)
    (hrun : Prog.run quiet op.code LockState.free fs = (.returned () fs', lk')) :
    fs.dev.Grows fs'.dev := by
  have hi' := (hi.call ha hdef hrun).2
  cases op with
  | iterate d pos =>
    obtain ⟨x, hx⟩ := ha
    rw [run_iterate hx.1 pos] at hrun
    cases hrun
    exact .refl _
  | lookup p name =>
    obtain ⟨x, c, hx, hc⟩ := hdef
    rw [run_lookup hx hc name rfl (hi.lookup_lt hx hc)] at hrun
    cases hrun
    split
    · exact .refl _
    · exact .refl _
  | create p name mode => exact hi.create_grows ha hdef hi' (congrArg Prod.fst hrun)
  | mkdir p name mode => exact hi.create_grows ha hdef hi' (congrArg Prod.fst hrun)
  | unlink e =>
    obtain ⟨y, x, cache, entry, hu, -, h15, rfl⟩ := hi.unlinked_of_run ha hdef hrun
    exact hu.grows hi h15
  | read d ppos len userOk =>
    obtain ⟨rfl, -⟩ := run_read hrun
    exact .refl _
  | write d ppos data copied =>
    obtain ⟨x, hx, hreg⟩ := ha
    have hcur : fs.Current Shadow.none d x := ⟨hx, hdef.2 x hx, id⟩
    rw [(hi.run_write hcur hreg hdef.1 copied).1] at hrun
    cases hrun
    exact hi.write_grows hcur copied
  | release d =>
    cases hrun
    exact .refl _

end Grows

/-! ## 2. The blocks that are torn -/

section Torn

variable {torn torn' : Nat → Prop} {dev dev' : Device} {fs fs' : Fs} {op : Op}

/-- They are blocks of files, now or before, and cannot be handed out any more. -/
def Device.OnlyFiles (dev : Device) (torn : Nat → Prop) : Prop :=
  ∀ b, torn b → (3 ≤ b → ¬ Avail dev.freeBlocks b) ∧
    ∀ i, dev.Live i → (dev.slot i).block = b → isDir (dev.slot i).mode = false

theorem Device.OnlyFiles.dir (h : dev.OnlyFiles torn) {i : Nat} (hd : dev.graph.dir i) :
    ¬ torn (dev.slot i).block := fun ht => by
  have hf := (h _ ht).2 i hd.1 rfl
  rw [hd.2] at hf
  cases hf

/-- A torn block is no directory's. -/
theorem Device.OnlyFiles.not_dir_block (h : dev.OnlyFiles torn) {b : Nat} (hb : torn b) (i : Nat)
    (hd : dev.graph.dir i) : (dev.slot i).block ≠ b := by
  rintro rfl
  exact h.dir hd hb

/-- No directory goes, so what is no directory's block now was none before. -/
theorem Device.Grows.not_dir_block (hg : dev.Grows dev') {b : Nat}
    (hno : ∀ i, dev'.graph.dir i → (dev'.slot i).block ≠ b) (i : Nat) (hd : dev.graph.dir i) :
    (dev.slot i).block ≠ b := by
  intro hib
  have hl := hg.dirs i hd
  have hsame := hg.old i hl hd.1
  exact hno i ⟨hl, by rw [hsame.mode]; exact hd.2⟩ (hsame.block.trans hib)

theorem Device.OnlyFiles.grows (h : dev.OnlyFiles torn) (hg : dev.Grows dev') :
    dev'.OnlyFiles torn := by
  intro b hb
  obtain ⟨hav, hfile⟩ := h b hb
  refine ⟨fun h3 ha => hav h3 (hg.free b ha), fun i hl hib => ?_⟩
  by_cases hold : dev.Live i
  · have hsame := hg.old i hl hold
    rw [hsame.mode]
    exact hfile i hold (by rw [← hsame.block, hib])
  · obtain ⟨h3, ha, -⟩ := hg.new i hl hold
    rw [hib] at h3 ha
    exact absurd ha (hav h3)

/-- Only a file has the block of a file. -/
theorem FsInv.file_block {e : Nat} {x : Dentry} (hi : FsInv fs Shadow.none)
    (hx : fs.Current Shadow.none e x) (hf : isDir x.inode.mode = false) {i : Nat}
    (hl : fs.dev.Live i) (hb : (fs.dev.slot i).block = x.inode.block) :
    isDir (fs.dev.slot i).mode = false := by
  obtain ⟨hxl, -, hsame⟩ := hi.live e x hx
  rw [hi.store.block_inj i x.slot hl hxl (by rw [hb, ← hsame.block]), ← hsame.mode]
  exact hf

/-- A write tears the block of a file. -/
theorem FsInv.onlyFiles_torn (hi : FsInv fs Shadow.none) (ha : op.Allowed fs)
    (hdef : op.Defined fs) (h : fs.dev.OnlyFiles torn) : fs.dev.OnlyFiles (op.torn fs torn) := by
  cases op with
  | write d ppos data copied =>
    obtain ⟨x, hx, hreg⟩ := ha
    have hcur : fs.Current Shadow.none d x := ⟨hx, hdef.2 x hx, id⟩
    obtain ⟨hl, -, hsame⟩ := hi.live d x hcur
    intro b hb
    rw [Op.torn_write hx] at hb
    by_cases hbx : b = x.inode.block
    · subst hbx
      refine ⟨fun h3 hav => ?_, fun i hil hib => ?_⟩
      · obtain ⟨-, h34⟩ := hi.store.block x.slot hl
        rw [← hsame.block] at h34
        exact (hi.store.avail _ h3 h34 hav).2.1 x.slot hl hsame.block.symm
      · exact hi.file_block hcur (not_isDir_of_isReg hreg) hil hib
    · rw [if_neg hbx] at hb
      exact h b hb
  | _ => exact h

end Torn

/-! ## 3. Paths on what a call leaves -/

section Leaves

variable {torn : Nat → Prop} {fs fs' : Fs} {op : Op} {d : Device} {lk' : LockState Lock}

/-- **Either all paths are those from before the call, or all are those from after it.** -/
theorem Op.Leaves.resolve (h : op.Leaves torn fs fs' d) (hi : FsInv fs Shadow.none)
    (ha : op.Allowed fs) (hdef : op.Defined fs) (ht : fs.dev.OnlyFiles torn)
    (hrun : Prog.run quiet op.code LockState.free fs = (.returned () fs', lk')) :
    (∀ path, FileTree.resolve d.node path 0 = FileTree.resolve fs.dev.node path 0) ∨
      ∀ path, FileTree.resolve d.node path 0 = FileTree.resolve fs'.dev.node path 0 := by
  have hi' := (hi.call ha hdef hrun).2
  have hg := hi.call_grows ha hdef hrun
  have ht' := hi.onlyFiles_torn ha hdef ht
  cases h with
  | before h =>
    left
    intro path
    exact h.resolve hi.tree (fun i hd htorn => htorn.elim (ht.dir hd) (ht'.dir hd)) path
      hi.root_live
  | after h hnew =>
    right
    intro path
    refine FileTree.resolve_congr_on (P := fs'.dev.Live) (fun k name hk => ?_)
      (fun k name j hk hj => hi'.tree.live_child hk hj) path hi'.root_live
    by_cases hold : fs.dev.Live k
    · exact h.child ⟨hold, hk⟩ hk (fun hd => (ht'.grows hg).dir hd) name
    · -- the inode that the call makes has no names, whether it is there or not
      rcases hnew k hk hold with hnode | hf
      · rw [FileTree.child, FileTree.child, hnode]
      · rw [Device.child_of_not_dir hf, (hg.new k hk hold).2.2]
  | @rewritten e ppos copied data x hop hx h =>
    left
    intro path
    subst hop
    have hcur : fs.Current Shadow.none e x := ⟨hx, hdef.2 x hx, id⟩
    have hslot : ∀ k, k < 128 → (fs.copiedIn x ppos data copied).dev.slot k = fs.dev.slot k :=
      fun k => slot_copiedIn (hi.two_le hcur) ppos data copied
    -- the data is not what names are made of
    have hsame : (fs.copiedIn x ppos data copied).dev.Shows (fun b => False ∨ b = x.inode.block)
        fs.dev.Live fs.dev :=
      (Device.holds_of_agreeOff (S := fun i v => v = fs.dev.slot i) (hi.two_le hcur)
        (agreeOff_copiedIn hdef.1) fun _ _ => rfl).shows fun k hk =>
          ⟨hk, (hi.store.block k hk).1, fun v hv => by rw [hv]; exact .refl _⟩
    refine FileTree.resolve_congr_on (P := fs.dev.Live) (fun k name hk => ?_)
      (fun k name j hk hj => hi.tree.live_child hk hj) path hi.root_live
    have hk' : (fs.copiedIn x ppos data copied).dev.Live k := (hi.live_copiedIn hcur k).mpr hk
    rw [h.child hk hk' (fun hd => ?_), hsame.child hk hk fun hd => ?_]
    · rintro (hno | hb)
      · exact hno
      · obtain ⟨x', hx', hreg⟩ := ha
        cases hx.symm.trans hx'
        have hf := hi.file_block hcur (not_isDir_of_isReg hreg) hk hb
        rw [hd.2] at hf
        cases hf
    · rw [hslot k hk.lt]
      exact ht'.dir ⟨hk, by rw [← hslot k hk.lt]; exact hd.2⟩

end Leaves

/-! ## 4. Unmounts and mounts -/

section Mounts

variable {torn : Nat → Prop} {c : Buf}

/-- **What is known between two calls.** -/
structure Buf.AtRest (torn : Nat → Prop) (c : Buf) : Prop where
  inv : FsInv c.mem Shadow.none
  kept : c.Kept torn
  plain : c.mem.dev.Plain
  files : c.mem.dev.OnlyFiles torn

/-- A device that can be mounted. -/
structure Device.InOrder (dev : Device) : Prop where
  store : ∃ imap, StoreInv dev imap fun _ => False
  tree : TreeInv dev fun _ => False
  plain : dev.Plain

/-- An unmount writes the blocks that are not torn. -/
theorem Buf.Kept.flushed (hk : c.Kept torn) {b : Nat} (hb : b < 2 ∨ ¬ torn b) :
    c.flushed b = c.mem.dev.blocks b := by
  rw [Buf.flushed]
  split
  · rfl
  rename_i hclean
  by_cases h2 : 2 ≤ b
  · have hblock := hk.1.block b h2 (hb.resolve_left (by omega))
    rwa [Buf.device_blocks] at hblock
  · have hdue : c.Due b := by
      obtain rfl | rfl : b = 0 ∨ b = 1 := by omega
      · exact hk.2.1
      · exact hk.2.2
    exact hdue.resolve_left hclean

/-- **An unmount leaves the device in order.** -/
theorem Buf.AtRest.umount (h : c.AtRest torn) : (Device.ofBlocks c.flushed).InOrder := by
  obtain ⟨dev, hdev⟩ : ∃ dev, dev = Device.ofBlocks c.flushed := ⟨_, rfl⟩
  have hblocks : ∀ b, b < 2 ∨ ¬ torn b → dev.blocks b = c.mem.dev.blocks b := fun b hb => by
    rw [hdev, Device.blocks_ofBlocks]
    exact h.kept.flushed hb
  have hbytes : ∀ b, b < 2 ∨ ¬ torn b → ∀ a, a / 4096 = b → dev a = c.mem.dev a := by
    intro b hb a ha
    rw [← Device.ofBlocks_blocks dev, ← Device.ofBlocks_blocks c.mem.dev]
    exact Device.ofBlocks_of_eq (hblocks b hb) ha
  have hsuper := SameSuper.of_bytes (hbytes 0 (Or.inl (by omega)))
  have hslot : ∀ i, i < slotsPerBlock → dev.slot i = c.mem.dev.slot i := fun i =>
    Device.slot_of_bytes (hbytes 1 (Or.inl (by omega)))
  have hcount : dev.inodesCount = c.mem.dev.inodesCount :=
    ByteMem.load64_congr fun a ha => hbytes 0 (Or.inl (by omega)) _ (by omega)
  rw [← hdev]
  refine ⟨⟨c.mem.imap, h.inv.store.congr_quiet (hsuper.formatted h.inv.store.formatted)
    (fun i hi => ?_) hcount hsuper.free fun b h3 hb _ hz off hoff => ?_⟩,
    h.inv.tree.congr (fun i hi => ?_) (fun i j hl hd hj => ?_) fun _ => .rfl, fun i hi => ?_⟩
  · rw [hslot i hi]
    exact ⟨rfl, rfl⟩
  · -- a block that can still be handed out is not torn
    have hb' : ¬ torn b := fun ht => hb.elim ((h.files b ht).1 h3) id
    rw [Device.byte_of_blocks (hblocks b (Or.inr hb')) hoff]
    exact hz off hoff
  · rw [hslot i hi]
    exact ⟨rfl, rfl, rfl⟩
  · have hb := hbytes _ (Or.inr (h.files.dir ⟨hl, hd⟩))
    exact recordAt_congr fun a _ _ => hb a (by omega)
  · rw [hslot i hi]
    exact (Device.Slots.congr hslot hi).mpr (h.plain i hi)

/-- A mount writes nothing and marks nothing. -/
theorem Buf.fresh_fillSuper (disk : Nat → Block) (past : BitVec 64) :
    Buf.wpc quiet (fun _ => True) Buf.simplefsFillSuper
      (fun ret c' => ret = 0 → c'.Fresh disk ∧ ∀ b, c'.dirty b = false)
      (Buf.blank disk past) := by
  have hclean : Prog.Steady Fs.blocks (fun _ => False) fun c : Buf => ∀ b, c.dirty b = false := by
    refine ⟨fun _ _ h => h, fun _ _ h => h, fun _ _ hb => hb.elim, fun c b h hd => ?_⟩
    rw [h b] at hd
    cases hd
  have hs : Buf.SafeOn (fun _ => False) (fun _ => True) fun c =>
      c.Fresh disk ∧ ∀ b, c.dirty b = false :=
    ⟨(Buf.steady_fresh disk).and hclean, fun _ _ => trivial⟩
  refine Prog.wpc_mono (Buf.wpc_fillSuper hs hs hs ⟨⟨rfl, rfl⟩, fun _ => rfl⟩ ?_
    (fun c' h => h.1.1) ?_) (fun _ h => h) ?_
  · rintro c s hc hr
    unfold fillImapStep at hr
    cases hmap : fillImap c.mem.dev.slot with
    | error err =>
      rw [hmap] at hr
      cases hr
    | ok w =>
      rw [hmap] at hr
      cases hr
      exact hc
  · rintro c s hc hr
    cases hr
    exact hc
  · rintro ret c (⟨hret, -⟩ | ⟨-, hc⟩) h0
    · exact absurd h0 hret
    · exact hc

/-- **A mount of a device in order.** -/
theorem Device.InOrder.mount {disk : Nat → Block} (h : (Device.ofBlocks disk).InOrder)
    {past : BitVec 64} {ret : Int} {lk' : LockState Lock}
    (hpass : Passes quiet Buf.Background
      ⟨Buf.simplefsFillSuper, LockState.free, Buf.blank disk past⟩ ⟨.ret ret, lk', c⟩) :
    ret = 0 ∧ lk' = LockState.free ∧ c.AtRest fun _ => False := by
  obtain ⟨imap, hstore⟩ := h.store
  have hrun := Buf.erases_fillSuper.returns hpass
  have hmount := run_fillSuper hstore past (rfl : (LockState.free : LockState Lock).held _ = false)
  have hend := hmount.symm.trans hrun
  obtain ⟨rfl, hmem⟩ := Prog.Ending.returned.inj (Prod.mk.inj hend).1
  have hfresh := (Prog.wpc_returns hpass (Buf.fresh_fillSuper disk past) rfl).1
  have hdisk : ∀ b, c.disk b = c.mem.blocks b := by
    intro b
    change c.disk b = c.mem.dev.blocks b
    rw [hfresh.1, Device.blocks_ofBlocks, hfresh.2]
  refine ⟨rfl, (Prod.mk.inj hend).2.symm, ?_, ⟨?_, Or.inr (hdisk 0), Or.inr (hdisk 1)⟩, ?_,
    fun b hb => hb.elim⟩
  · rw [← hmem]
    exact mountedFs_inv hstore h.tree past
  · rw [hfresh.device, hfresh.1]
    exact .of_slots h.plain
  · rw [hfresh.1]
    exact h.plain

end Mounts

/-! ## 5. Runs -/

/-- The runs without interruptions and power failures, inside the cases the source handles, with the
blocks that are torn at the end. -/
inductive QuietRun (start : Nat → Block) : BufSys → (Nat → Prop) → Prop
  | start : QuietRun start ⟨LockState.free, .offline start⟩ fun _ => False
  | mount {lk lk' : LockState Lock} {disk : Nat → Block} {torn : Nat → Prop} {past : BitVec 64}
      {ret : Int} {c : Buf} (hrun : QuietRun start ⟨lk, .offline disk⟩ torn)
      (h : Passes quiet Buf.Background ⟨Buf.simplefsFillSuper, lk, Buf.blank disk past⟩
        ⟨.ret ret, lk', c⟩) :
      QuietRun start ⟨lk', if ret = 0 then .mounted c else .offline c.flushed⟩ fun _ => False
  | umount {lk : LockState Lock} {c : Buf} {torn : Nat → Prop}
      (hrun : QuietRun start ⟨lk, .mounted c⟩ torn) :
      QuietRun start ⟨lk, .offline c.flushed⟩ fun _ => False
  | call {lk lk' : LockState Lock} {c c' : Buf} {torn : Nat → Prop} {op : Op}
      (hrun : QuietRun start ⟨lk, .mounted c⟩ torn) (ha : op.Allowed c.mem)
      (hdef : op.Defined c.mem)
      (h : Passes quiet Buf.Background ⟨op.bufCode, lk, c⟩ ⟨.ret (), lk', c'⟩) :
      QuietRun start ⟨lk', .mounted c'⟩ (op.torn c.mem torn)
  | background {lk : LockState Lock} {c c' : Buf} {torn : Nat → Prop}
      (hrun : QuietRun start ⟨lk, .mounted c⟩ torn) (h : Buf.Background c c') :
      QuietRun start ⟨lk, .mounted c'⟩ torn

/-- A call that returns without buffers returns with them. -/
theorem QuietRun.of_call {start : Nat → Block} {torn : Nat → Prop} {lk lk' : LockState Lock}
    {c : Buf} {op : Op} {fs' : Fs} (hrun : QuietRun start ⟨lk, .mounted c⟩ torn)
    (ha : op.Allowed c.mem) (hdef : op.Defined c.mem)
    (h : Prog.run quiet op.code lk c.mem = (.returned () fs', lk')) :
    ∃ c', c'.mem = fs' ∧ QuietRun start ⟨lk', .mounted c'⟩ (op.torn c.mem torn) := by
  obtain ⟨c', hc', hpass⟩ := op.erases.run h
  exact ⟨c', hc', hrun.call ha hdef hpass⟩

/-- They are runs of `Buffers.lean`. -/
theorem QuietRun.powerRun {start : Nat → Block} {s : BufSys} {torn : Nat → Prop}
    (h : QuietRun start s torn) : PowerRun ⟨LockState.free, .offline start⟩ s := by
  induction h with
  | start => exact .refl
  | mount _ h ih => exact ih.tail (.mount h)
  | umount _ ih => exact ih.tail .umount
  | call _ ha _ h ih => exact ih.tail (.call ha h)
  | background _ h ih => exact ih.tail (.background h)

section Runs

variable {torn : Nat → Prop} {c c' : Buf} {op : Op} {fs' : Fs} {lk' : LockState Lock}

/-- The blocks that are torn are not handed out. -/
theorem Buf.AtRest.mend (h : c.AtRest torn) (b : Nat)
    (hb : freeBlockScan c.mem.dev.freeBlocks = some b) : ¬ torn b := by
  obtain ⟨h3, -, hav⟩ := h.inv.store.high.scan_some hb
  exact fun ht => (h.files b ht).1 h3 hav

/-- **What is known at every point of a call.** -/
theorem Buf.AtRest.wpc (h : c.AtRest torn) (ha : op.Allowed c.mem) (hdef : op.Defined c.mem)
    (hrun : Prog.run quiet op.code LockState.free c.mem = (.returned () fs', lk')) :
    Buf.wpc quiet (fun c' => op.Leaves torn c.mem fs' c'.device) op.bufCode
      (fun _ c' => c'.Kept (op.torn c.mem torn)) c :=
  h.inv.call_kept ha hdef h.plain h.mend h.kept hrun

/-- **One call.** -/
theorem Buf.AtRest.call (h : c.AtRest torn) (ha : op.Allowed c.mem) (hdef : op.Defined c.mem)
    (hpass : Passes quiet Buf.Background ⟨op.bufCode, LockState.free, c⟩ ⟨.ret (), lk', c'⟩) :
    lk' = LockState.free ∧ c'.AtRest (op.torn c.mem torn) := by
  have hrun := op.erases.returns hpass
  obtain ⟨hlk, hi'⟩ := h.inv.call ha hdef hrun
  have hg := h.inv.call_grows ha hdef hrun
  have hk := Prog.wpc_returns hpass (h.wpc ha hdef hrun)
  exact ⟨hlk, hi', hk, hg.plain h.plain, (h.inv.onlyFiles_torn ha hdef h.files).grows hg⟩

/-- **A write-back.** -/
theorem Buf.AtRest.background (h : c.AtRest torn) (hbg : Buf.Background c c') :
    c'.AtRest torn := by
  have hm := hbg.mem_eq
  have hsteady : Buf.Steady
      (Buf.At (fun s => s = c.mem) torn c.mem.dev.Slots c.mem.dev Buf.Up) :=
    Buf.steady_at Buf.steady_up fun s hs => by rw [hs]; exact .of_slots h.plain
  obtain ⟨⟨-, hd⟩, hup⟩ := hsteady.stable _ _ ⟨⟨rfl, h.kept.1⟩, h.kept.2⟩ hbg
  refine ⟨?_, ⟨?_, hup⟩, ?_, ?_⟩
  · rw [hm]
    exact h.inv
  · rw [hm]
    exact hd
  · rw [hm]
    exact h.plain
  · rw [hm]
    exact h.files

/-- The invariant of a system. -/
def BufSys.InOrder (s : BufSys) (torn : Nat → Prop) : Prop :=
  s.locks = LockState.free ∧ match s.mnt with
    | .offline disk => (Device.ofBlocks disk).InOrder
    | .mounted c => c.AtRest torn

/-- **Every run.** -/
theorem QuietRun.inOrder {start : Nat → Block} {s : BufSys}
    (hstart : (Device.ofBlocks start).InOrder) (hrun : QuietRun start s torn) :
    s.InOrder torn := by
  induction hrun with
  | start => exact ⟨rfl, hstart⟩
  | mount _ h ih =>
    obtain ⟨hlk, hdev⟩ := ih
    obtain rfl := hlk
    obtain ⟨rfl, hlk', hrest⟩ := Device.InOrder.mount hdev h
    rw [if_pos rfl]
    exact ⟨hlk', hrest⟩
  | umount _ ih => exact ⟨ih.1, Buf.AtRest.umount ih.2⟩
  | call _ ha hdef h ih =>
    obtain ⟨hlk, hrest⟩ := ih
    obtain rfl := hlk
    exact Buf.AtRest.call hrest ha hdef h
  | background _ h ih => exact ⟨ih.1, Buf.AtRest.background ih.2 h⟩

end Runs

theorem freshDevice.inOrder : freshDevice.InOrder := by
  refine ⟨⟨_, freshDevice.store⟩, freshDevice.tree, fun i hi => ⟨fun _ => .refl _, fun hdead => ?_⟩⟩
  have hi' : i < 128 := hi
  have h2 : 2 ≤ i := by
    by_contra hlt
    exact hdead (freshDevice.live_iff.mpr (by omega))
  rw [freshDevice.slot_rest h2 hi']
  rfl

section Results

variable {size : Nat} {dev : Device} {lk lk' : LockState Lock} {c : Buf} {torn : Nat → Prop}

theorem QuietRun.atRest (hmk : mkfs zeroMem size = (0, dev))
    (hrun : QuietRun dev.blocks ⟨lk, .mounted c⟩ torn) : lk = LockState.free ∧ c.AtRest torn := by
  refine hrun.inOrder ?_
  rw [Device.ofBlocks_blocks, mkfs_ok hmk]
  exact freshDevice.inOrder

/-- **Between two calls the device shows the tree that is in memory**: every path, and every inode
but for the number of a directory's children, and the data of every file whose block is not torn. -/
theorem QuietRun.device_shows (hmk : mkfs zeroMem size = (0, dev))
    (hrun : QuietRun dev.blocks ⟨lk, .mounted c⟩ torn) :
    c.device.Shows torn c.mem.dev.Live c.mem.dev ∧
      ∀ path, FileTree.resolve c.device.node path 0 = FileTree.resolve c.mem.dev.node path 0 := by
  obtain ⟨-, h⟩ := QuietRun.atRest hmk hrun
  have hshows := h.inv.shows_kept h.kept.1
  exact ⟨hshows, fun path => hshows.resolve h.inv.tree (fun i => h.files.dir) path h.inv.root_live⟩

/-- **A power failure in a call leaves all of it or nothing**, as far as paths go: at every point of
the call, whatever has been written back by then. -/
theorem QuietRun.atomic {op : Op} {fs' : Fs} {y : Prog.Point Buf Progress Lock Site Fault Unit}
    (hmk : mkfs zeroMem size = (0, dev)) (hrun : QuietRun dev.blocks ⟨lk, .mounted c⟩ torn)
    (ha : op.Allowed c.mem) (hdef : op.Defined c.mem)
    (hcall : Prog.run quiet op.code lk c.mem = (.returned () fs', lk'))
    (hpass : Passes quiet Buf.Background ⟨op.bufCode, lk, c⟩ y) :
    op.Leaves torn c.mem fs' y.state.device ∧
      ((∀ path, FileTree.resolve y.state.device.node path 0 =
          FileTree.resolve c.mem.dev.node path 0) ∨
        ∀ path, FileTree.resolve y.state.device.node path 0 =
          FileTree.resolve fs'.dev.node path 0) := by
  obtain ⟨rfl, h⟩ := QuietRun.atRest hmk hrun
  have hleaves := Prog.wpc_here (Prog.wpc_passes hpass (h.wpc ha hdef hcall))
  exact ⟨hleaves, hleaves.resolve h.inv ha hdef h.files hcall⟩

end Results

/-- What is made is there under its name. -/
theorem FsInv.resolve_created {fs : Fs} {p i b : Nat} {x : Dentry} {c : DirCache}
    {entry : CacheEntry} {name : Name} {mode : BitVec 16} (hi : FsInv fs Shadow.none)
    (hx : fs.DirAt p x) (hs : fs.SoundAt p x c) (hp : Fs.SoundAt.Picked fs c name i b entry)
    (hi' : FsInv (Fs.SoundAt.created fs p x c entry name mode i b) Shadow.none)
    (ha : fs.Absent p name) :
    FileTree.resolve (Fs.SoundAt.created fs p x c entry name mode i b).dev.node [name] x.slot =
      some i := by
  have hnew := hs.no_name hx ha
  have hdir : FileTree.DirAt fs.dev.node x.slot _ := ⟨_, Device.node_dir (hi.dir hx).1⟩
  rw [FileTree.resolve, hi.node_created hx hs hp hi' hnew,
    FileTree.child_link hdir (Device.node_none hp.dead) (newNode_nameless _), if_pos ⟨rfl, rfl⟩]
  rfl

/-- The fresh image is mounted and its root listed. -/
theorem QuietRun.listed : ∃ c : Buf, c.mem = listedFs ∧
    QuietRun freshDevice.blocks ⟨LockState.free, .mounted c⟩ fun _ => False := by
  have hmount : Prog.run quiet simplefsFillSuper LockState.free
      (Buf.blank freshDevice.blocks 0#64).mem = (.returned 0 freshFs, LockState.free) := by
    change Prog.run quiet simplefsFillSuper LockState.free
      (Fs.blank (Device.ofBlocks freshDevice.blocks) 0#64) = _
    rw [Device.ofBlocks_blocks]
    exact run_fillSuper freshDevice.store 0#64 rfl
  obtain ⟨c, hc, hpass⟩ : ∃ c : Buf, c.mem = _ ∧ Passes quiet Buf.Background _ _ :=
    Buf.erases_fillSuper.run hmount
  have hmounted := QuietRun.mount .start hpass
  rw [if_pos rfl] at hmounted
  have ha : (Op.iterate 0 0).Allowed c.mem := by
    rw [hc]
    exact ⟨_, freshFs_root⟩
  have hlist : Prog.run quiet (Op.iterate 0 0).code LockState.free c.mem =
      (.returned () listedFs, LockState.free) := by
    rw [hc]
    exact run_iterate freshFs_root.1 0
  exact hmounted.of_call ha trivial hlist

/-- A directory is made in it. -/
theorem QuietRun.made : ∃ (c : Buf) (i b : Nat),
    QuietRun freshDevice.blocks ⟨LockState.free, .mounted c⟩ (fun _ => False) ∧
      c.mem.dev.Live i ∧ c.mem.dev.slot i = newInode (0x4000 ||| 0o755) (i + 1) b ∧
      FileTree.resolve c.mem.dev.node [newName] 0 = some i := by
  obtain ⟨c, hc, hrun⟩ := QuietRun.listed
  have hmode : isDir ((0x4000 ||| 0o755 : BitVec 16).setWidth 32) = true := by decide
  obtain ⟨i, b, entry, hp, hcall, hi'⟩ := listedFs_inv.run_mkdir listedFs_root rfl
    listedFs_newName ⟨listedFs_hasFreeEntry, by decide⟩
    (listedFs_not_turnedAway (Or.inl hmode) rfl rfl rfl)
  have hslot : listedRoot.slot = 0 := by decide
  have hl : listedFs.dev.Live listedRoot.slot := (listedFs_inv.dir listedFs_root).1.1
  obtain ⟨hnew, hlive⟩ := listedFs_soundAt.slot_new hp hl (0x4000 ||| 0o755)
  have hpath := listedFs_inv.resolve_created listedFs_root listedFs_soundAt hp hi' listedFs_newName
  rw [hslot] at hpath
  have ha : (Op.mkdir 0 newName 0o755).Allowed c.mem := by
    rw [hc]
    exact listedFs_newName
  have hd : (Op.mkdir 0 newName 0o755).Defined c.mem := by
    rw [hc]
    exact ⟨listedFs_hasFreeEntry, by decide⟩
  rw [← hc] at hcall
  obtain ⟨c', hc', hrun'⟩ := hrun.of_call ha hd hcall
  rw [hc] at hc'
  refine ⟨c', i, b, hrun', ?_, ?_, ?_⟩
  · rw [hc']
    exact hlive
  · rw [hc']
    exact hnew
  · rw [hc']
    exact hpath

theorem QuietRun.device_shows_made : ∃ (c : Buf) (i b : Nat),
    QuietRun freshDevice.blocks ⟨LockState.free, .mounted c⟩ (fun _ => False) ∧
      (c.device.slot i).Same (newInode (0x4000 ||| 0o755) (i + 1) b) ∧
      FileTree.resolve c.device.node [newName] 0 = some i := by
  obtain ⟨c, i, b, hrun, hl, hslot, hpath⟩ := QuietRun.made
  obtain ⟨hshows, hpaths⟩ := QuietRun.device_shows mkfs_fresh hrun
  refine ⟨c, i, b, hrun, ?_, (hpaths [newName]).trans hpath⟩
  rw [← hslot]
  exact (hshows.slot i hl).same

/-- The welcome file is looked up. -/
theorem QuietRun.found : ∃ c : Buf, c.mem = foundFs ∧
    QuietRun freshDevice.blocks ⟨LockState.free, .mounted c⟩ fun _ => False := by
  obtain ⟨c, hc, hrun⟩ := QuietRun.listed
  have ha : (Op.lookup 0 welcomeName).Allowed c.mem := hc ▸ listedFs_lookup
  have hd : (Op.lookup 0 welcomeName).Defined c.mem := hc ▸ listedFs_lookup_defined
  have hcall : Prog.run quiet (Op.lookup 0 welcomeName).code LockState.free c.mem =
      (.returned () foundFs, LockState.free) := by
    rw [hc]
    exact run_lookup_welcome
  exact hrun.of_call ha hd hcall

theorem foundFs_parentBlock : Buf.parentBlock foundFs 1 = 2 := by
  have hroot : foundFs.dentries welcomeDentry.parent = some listedRoot := foundFs_root.1
  simp only [Buf.parentBlock, foundFs_welcome, Buf.dataBlock, hroot]
  decide

/-- The welcome file is unlinked, and the power fails once its record is gone. -/
theorem QuietRun.atomic_unlink : ∃ (c : Buf) (r : Nat × BitVec 64)
    (y : Prog.Point Buf Progress Lock Site Fault Unit), c.mem = foundFs ∧
      QuietRun freshDevice.blocks ⟨LockState.free, .mounted c⟩ (fun _ => False) ∧
      Passes quiet Buf.Background ⟨(Op.unlink 1).bufCode, LockState.free, c⟩ y ∧
      removeRecord 1 foundFs = .ok (r, y.state.mem) ∧
      y.state.disk 2 = y.state.mem.blocks 2 ∧
      (Op.unlink 1).Leaves (fun _ => False) foundFs staleFs y.state.device ∧
      ((∀ path, FileTree.resolve y.state.device.node path 0 =
          FileTree.resolve foundFs.dev.node path 0) ∨
        ∀ path, FileTree.resolve y.state.device.node path 0 =
          FileTree.resolve staleFs.dev.node path 0) := by
  obtain ⟨c, hc, hrun⟩ := QuietRun.found
  have hrec := removeRecord_eq (foundFs_unlinkable.hasEntryOf foundFs_inv usedCacheEntryGet_welcome)
  rw [← hc] at hrec
  have hcomes : Prog.Comes quiet Buf.Background _
      ⟨(Op.unlink 1).bufCode, LockState.free, c⟩ := Buf.comes_unrecorded hrec
  obtain ⟨y, hpass, hy, hdisk⟩ := hcomes
  have ha : (Op.unlink 1).Allowed c.mem := hc ▸ foundFs_unlink
  have hd : (Op.unlink 1).Defined c.mem := hc ▸ foundFs_unlink_defined
  have hcall : Prog.run quiet (Op.unlink 1).code LockState.free c.mem =
      (.returned () staleFs, LockState.free) := by
    rw [hc]
    exact run_unlink_welcome
  have h := QuietRun.atomic mkfs_fresh hrun ha hd hcall hpass
  have hblock : Buf.parentBlock c.mem 1 = 2 := by
    rw [hc]
    exact foundFs_parentBlock
  rw [hblock, ← hy] at hdisk
  rw [← hy, hc] at hrec
  rw [hc] at h
  exact ⟨c, _, y, hc, hrun, hpass, hrec, hdisk, h⟩

end Simplefs
