/-
# What a device shows while its buffers are written back

The device lags behind the memory: each of its blocks is what was last written back of it.  Here
is what is known of it nevertheless.  `Holds` says it block by block and slot by slot, `Shows` inode
by inode, and the rules of the second section say what becomes of it when a buffer is written back:
if one data block has been changed, or the inode store, the device is the one from before the
change or the one from after it.

A block is torn if the last copy to it failed: its buffer has been changed and not marked dirty.
-/
import Simplefs.Power
import Simplefs.Refinement

namespace Simplefs

open Prog (Steady)

/-! ## 1. What a device shows of another -/

/-- Two inodes of one file or directory.  The number of a directory's children may differ. -/
structure SfsInode.SameFile (v w : SfsInode) : Prop where
  same : v.Same w
  file : isDir w.mode = false → v = w

namespace SfsInode.SameFile

variable {u v w : SfsInode}

theorem refl (v : SfsInode) : v.SameFile v := ⟨.refl v, fun _ => rfl⟩

theorem symm (h : v.SameFile w) : w.SameFile v :=
  ⟨h.same.symm, fun hf => (h.file (h.same.mode ▸ hf)).symm⟩

theorem trans (h : u.SameFile v) (h' : v.SameFile w) : u.SameFile w :=
  ⟨h.same.trans h'.same, fun hf => (h.file (by rw [h'.same.mode, hf])).trans (h'.file hf)⟩

end SfsInode.SameFile

namespace Device

/-- What may be in slot `i` while `dev` is in memory: the inode that is there, or, if there is none,
what is left of a file. -/
def Slots (dev : Device) (i : Nat) (v : SfsInode) : Prop :=
  (dev.Live i → v.SameFile (dev.slot i)) ∧ (¬ dev.Live i → isDir v.mode = false)

/-- A slot without an inode holds no directory. -/
def Plain (dev : Device) : Prop := ∀ i, i < slotsPerBlock → dev.Slots i (dev.slot i)

/-- `dev'` holds what `dev` does, but for the blocks that are torn, and in each slot one of the
inodes of `S`. -/
structure Holds (torn : Nat → Prop) (S : Nat → SfsInode → Prop) (dev' dev : Device) : Prop where
  block : ∀ b, 2 ≤ b → ¬ torn b → dev'.blocks b = dev.blocks b
  slot : ∀ i, i < slotsPerBlock → S i (dev'.slot i)

/-- `dev'` shows what `dev` has in `live`: every inode, and its node unless the block is torn. -/
structure Shows (torn live : Nat → Prop) (dev' dev : Device) : Prop where
  slot : ∀ i, live i → (dev'.slot i).SameFile (dev.slot i)
  node : ∀ i, live i → ¬ torn (dev.slot i).block → dev'.node i = dev.node i

variable {torn torn' live live' : Nat → Prop} {S S' : Nat → SfsInode → Prop}
  {dev dev' dev'' : Device} {b i : Nat}

theorem Slots.congr (h : ∀ i, i < slotsPerBlock → dev'.slot i = dev.slot i)
    (hi : i < slotsPerBlock) {v : SfsInode} : dev'.Slots i v ↔ dev.Slots i v := by
  have hl : dev'.Live i ↔ dev.Live i := live_congr (h i hi)
  rw [Slots, Slots, hl, h i hi]

theorem Holds.of_slots (h : ∀ i, i < slotsPerBlock → S i (dev.slot i)) : Holds torn S dev dev :=
  ⟨fun _ _ _ => rfl, h⟩

theorem Holds.trans (h' : Holds torn S dev'' dev') (h : Holds torn S' dev' dev) :
    Holds torn S dev'' dev :=
  ⟨fun b h2 ht => (h'.block b h2 ht).trans (h.block b h2 ht), h'.slot⟩

theorem Holds.mono (h : Holds torn S dev' dev) (ht : ∀ b, torn b → torn' b)
    (hS : ∀ i v, i < slotsPerBlock → S i v → S' i v) : Holds torn' S' dev' dev :=
  ⟨fun b h2 hb => h.block b h2 fun htb => hb (ht b htb), fun i hi => hS i _ hi (h.slot i hi)⟩

/-- **What is held is shown.** -/
theorem Holds.shows (h : Holds torn S dev' dev)
    (hlive : ∀ i, live i → dev.Live i ∧ 2 ≤ (dev.slot i).block ∧
      ∀ v, S i v → v.SameFile (dev.slot i)) : Shows torn live dev' dev := by
  have hslot : ∀ i, live i → (dev'.slot i).SameFile (dev.slot i) := by
    intro i hi
    obtain ⟨hl, -, hS⟩ := hlive i hi
    exact hS _ (h.slot i hl.1)
  refine ⟨hslot, fun i hi ht => ?_⟩
  obtain ⟨hl, h2, -⟩ := hlive i hi
  have hs := (hslot i hi).same
  have hbytes : ∀ off, off < 4096 →
      dev'.byte (dev.slot i).block off = dev.byte (dev.slot i).block off :=
    fun off hoff => byte_of_blocks (h.block _ h2 ht) hoff
  cases hd : isDir (dev.slot i).mode with
  | false => exact node_congr ((hslot i hi).file hd) hbytes
  | true =>
    have hl' : dev'.Live i := (live_congr_no hs.inodeNo).mpr hl
    rw [node_dir ⟨hl, hd⟩, node_dir ⟨hl', by rw [hs.mode, hd]⟩, hs.mode, hs.block,
      names_congr hbytes]

theorem Shows.mono (h : Shows torn live dev' dev) (ht : ∀ b, torn b → torn' b)
    (hl : ∀ i, live' i → live i) : Shows torn' live' dev' dev :=
  ⟨fun i hi => h.slot i (hl i hi), fun i hi hb => h.node i (hl i hi) fun htb => hb (ht _ htb)⟩

/-- What is no directory has no names. -/
theorem child_of_not_dir (h : isDir (dev.slot i).mode = false) (name : Name) :
    FileTree.child dev.node i name = none := by
  by_cases hl : dev.Live i
  · rw [FileTree.child, node_file hl h]
  · rw [FileTree.child, node_none hl]

/-- The names of a directory that is not torn. -/
theorem Shows.child (h : Shows torn live dev' dev) (hi : live i) (hl : dev.Live i)
    (ht : dev.graph.dir i → ¬ torn (dev.slot i).block) (name : Name) :
    FileTree.child dev'.node i name = FileTree.child dev.node i name := by
  cases hd : isDir (dev.slot i).mode with
  | true => rw [FileTree.child, FileTree.child, h.node i hi (ht ⟨hl, hd⟩)]
  | false =>
    have hslot := (h.slot i hi).file hd
    rw [child_of_not_dir hd, child_of_not_dir (by rw [hslot, hd])]

end Device

theorem TreeInv.live_child {dev : Device} {orphan : Nat → Prop} (htree : TreeInv dev orphan)
    {i j : Nat} {name : Name} (hl : dev.Live i) (hj : FileTree.child dev.node i name = some j) :
    dev.Live j := by
  cases hd : isDir (dev.slot i).mode with
  | true =>
    rw [FileTree.child, Device.node_dir ⟨hl, hd⟩] at hj
    exact htree.live_of_names ⟨hl, hd⟩ hj
  | false =>
    rw [Device.child_of_not_dir hd] at hj
    cases hj

/-- **Paths lead where they do on `dev`**, if no directory is torn. -/
theorem Device.Shows.resolve {torn : Nat → Prop} {dev dev' : Device} {i : Nat}
    (h : Device.Shows torn dev.Live dev' dev) (htree : TreeInv dev fun _ => False)
    (ht : ∀ i, dev.graph.dir i → ¬ torn (dev.slot i).block) (path : List Name) (hi : dev.Live i) :
    FileTree.resolve dev'.node path i = FileTree.resolve dev.node path i :=
  FileTree.resolve_congr_on (fun k name hk => h.child hk hk (ht k) name)
    (fun _ _ _ hk hj => htree.live_child hk hj) path hi

/-! ## 2. Write-backs -/

section WriteBacks

variable {c : Buf} {torn : Nat → Prop} {S S' : Nat → SfsInode → Prop} {dev dev' : Device} {s : Fs}
  {b B : Nat}

namespace Buf

theorem device_blocks (c : Buf) : c.device.blocks = c.disk := Device.blocks_ofBlocks _

theorem device_of_disk {c' : Buf} (h : c'.disk = c.disk) : c'.device = c.device :=
  congrArg Device.ofBlocks h

theorem disk_writeBack (c : Buf) (b b' : Nat) :
    (c.writeBack b).disk b' = if b' = b then c.mem.blocks b' else c.disk b' := by
  change Function.update c.disk b (c.mem.blocks b) b' = _
  rw [Function.update_apply]
  split
  · rename_i h
    rw [h]
  · rfl

/-- Nothing changes where a block is up to date. -/
theorem device_writeBack_of_settled (h : Settled b c) : (c.writeBack b).device = c.device := by
  refine device_of_disk (funext fun b' => ?_)
  rw [disk_writeBack]
  split
  · rename_i hb
    rw [hb]
    exact h.symm
  · rfl

/-- What may be in a slot in memory and on the device goes on being all there may be. -/
theorem Mixed.slot {disk : Nat → Block} (hm : c.Mixed disk) {i : Nat} (hi : i < slotsPerBlock)
    {P : SfsInode → Prop} (h : P (c.mem.dev.slot i)) (h' : P (c.device.slot i)) :
    P ((Device.ofBlocks disk).slot i) := by
  rcases hm.slots with hs | hs
  · rw [hs i hi]
    exact h
  · rw [hs i hi]
    exact h'

/-- What is held in memory and on the device goes on being held. -/
theorem Mixed.holds {disk : Nat → Block} (hm : c.Mixed disk)
    (hmem : Device.Holds torn S c.mem.dev dev) (hd : Device.Holds torn S c.device dev) :
    Device.Holds torn S (Device.ofBlocks disk) dev := by
  refine ⟨fun b h2 ht => ?_, fun i hi => hm.slot hi (hmem.slot i hi) (hd.slot i hi)⟩
  rw [Device.blocks_ofBlocks]
  rcases hm b with h | h
  · rw [h]
    exact hmem.block b h2 ht
  · rw [h, ← device_blocks]
    exact hd.block b h2 ht

theorem steady_holds {R : Fs → Prop} (hR : ∀ s, R s → Device.Holds torn S s.dev dev) :
    Buf.Steady fun c : Buf => R c.mem ∧ Device.Holds torn S c.device dev :=
  .of_images (fun c _ hm hd ⟨h1, h2⟩ => ⟨hm ▸ h1, device_of_disk (c := c) hd ▸ h2⟩)
    fun c b ⟨h1, h2⟩ => ⟨h1, (mixed_writeBack c b).holds (hR _ h1) h2⟩

/-- **Data block `B` has been changed.**  If it is written back the device comes from what there was
to what there is, and otherwise it stays. -/
theorem writeBack_pending (h0 : Device.Holds (fun b => torn b ∨ b = B) S c.mem.dev dev)
    (h1 : Device.Holds torn S' c.mem.dev dev') (hS : ∀ i v, i < slotsPerBlock → S i v → S' i v)
    (h : Device.Holds torn S c.device dev) : Device.Holds torn S' (c.writeBack B).device dev' ∧
      ∀ b, b ≠ B → Device.Holds torn S (c.writeBack b).device dev := by
  have hslot : ∀ b i, i < slotsPerBlock → S i ((c.writeBack b).device.slot i) := fun b i hi =>
    (c.mixed_writeBack b).slot hi (h0.slot i hi) (h.slot i hi)
  refine ⟨⟨fun b h2 ht => ?_, fun i hi => hS i _ hi (hslot B i hi)⟩,
    fun b hb => ⟨fun b' h2 ht => ?_, hslot b⟩⟩
  · rw [device_blocks, disk_writeBack]
    split
    · exact h1.block b h2 ht
    · rename_i hb
      rw [← device_blocks, h.block b h2 ht, ← h0.block b h2 fun hor => hor.elim ht hb]
      exact h1.block b h2 ht
  · rw [device_blocks, disk_writeBack]
    split
    · rename_i heq
      exact h0.block b' h2 fun hor => hor.elim ht fun hB' => hb (heq ▸ hB')
    · rw [← device_blocks]
      exact h.block b' h2 ht

theorem steady_pending {R : Fs → Prop}
    (h0 : ∀ s, R s → Device.Holds (fun b => torn b ∨ b = B) S s.dev dev)
    (h1 : ∀ s, R s → Device.Holds torn S' s.dev dev')
    (hS : ∀ i v, i < slotsPerBlock → S i v → S' i v) :
    Buf.Steady fun c : Buf => R c.mem ∧
      (Device.Holds torn S c.device dev ∨ Device.Holds torn S' c.device dev') := by
  refine .of_images (fun c _ hm hd ⟨h1, h2⟩ => ⟨hm ▸ h1, device_of_disk (c := c) hd ▸ h2⟩) ?_
  rintro c b ⟨hR, h⟩
  refine ⟨hR, ?_⟩
  rcases h with h | h
  · obtain ⟨hw, hw'⟩ := writeBack_pending (h0 _ hR) (h1 _ hR) hS h
    by_cases hb : b = B
    · exact Or.inr (hb ▸ hw)
    · exact Or.inl (hw' b hb)
  · exact Or.inr ((mixed_writeBack c b).holds (h1 _ hR) h)

/-- Once it is synced the device is there. -/
theorem settle_pending (h0 : Device.Holds (fun b => torn b ∨ b = B) S c.mem.dev dev)
    (h1 : Device.Holds torn S' c.mem.dev dev') (hS : ∀ i v, i < slotsPerBlock → S i v → S' i v)
    (h : Device.Holds torn S c.device dev ∨ Device.Holds torn S' c.device dev')
    (hs : Settled B c) : Device.Holds torn S' c.device dev' := by
  refine h.elim (fun h => ?_) id
  rw [← device_writeBack_of_settled hs]
  exact (writeBack_pending h0 h1 hS h).1

/-- A block that is up to date is not torn. -/
theorem settle_torn (h : Device.Holds torn S c.device c.mem.dev) (hs : Settled B c) :
    Device.Holds (fun b => torn b ∧ b ≠ B) S c.device c.mem.dev := by
  refine ⟨fun b h2 ht => ?_, h.slot⟩
  by_cases hb : b = B
  · rw [device_blocks, hb]
    exact hs
  · exact h.block b h2 fun htb => ht ⟨htb, hb⟩

/-- Once the store is synced the slots are those in memory. -/
theorem settle_slots (h : Device.Holds torn S c.device dev) (hs : Settled 1 c)
    (hmem : ∀ i, i < slotsPerBlock → S' i (c.mem.dev.slot i)) :
    Device.Holds torn S' c.device dev := by
  refine ⟨h.block, fun i hi => ?_⟩
  rw [Device.slot_of_bytes (fun a => device_of_settled hs) hi]
  exact hmem i hi

/-- **The inode store has been changed**, and no data block. -/
theorem writeBack_store (h0 : ∀ b, 2 ≤ b → ¬ torn b → c.mem.dev.blocks b = dev.blocks b)
    (h1 : Device.Holds torn S' c.mem.dev dev') (h : Device.Holds torn S c.device dev) :
    Device.Holds torn S' (c.writeBack 1).device dev' ∧
      ∀ b, b ≠ 1 → Device.Holds torn S (c.writeBack b).device dev := by
  refine ⟨⟨fun b h2 ht => ?_, fun i hi => ?_⟩, fun b hb => ⟨fun b' h2 ht => ?_, fun i hi => ?_⟩⟩
  · rw [device_blocks, disk_writeBack, if_neg (by omega), ← device_blocks, h.block b h2 ht,
      ← h0 b h2 ht]
    exact h1.block b h2 ht
  · have hs : Settled 1 (c.writeBack 1) := (disk_writeBack c 1 1).trans (if_pos rfl)
    rw [Device.slot_of_bytes (fun a => device_of_settled hs) hi]
    exact h1.slot i hi
  · rw [device_blocks, disk_writeBack]
    split
    · exact h0 b' h2 ht
    · rw [← device_blocks]
      exact h.block b' h2 ht
  · have hdisk : (c.writeBack b).disk 1 = c.disk 1 :=
      (disk_writeBack c b 1).trans (if_neg hb.symm)
    have hslot : (c.writeBack b).device.slot i = c.device.slot i :=
      Device.slot_of_bytes (fun a => Device.ofBlocks_of_eq hdisk) hi
    rw [hslot]
    exact h.slot i hi

theorem steady_store {R : Fs → Prop}
    (h0 : ∀ s, R s → ∀ b, 2 ≤ b → ¬ torn b → s.dev.blocks b = dev.blocks b)
    (h1 : ∀ s, R s → Device.Holds torn S' s.dev dev') :
    Buf.Steady fun c : Buf => R c.mem ∧
      (Device.Holds torn S c.device dev ∨ Device.Holds torn S' c.device dev') := by
  refine .of_images (fun c _ hm hd ⟨h1, h2⟩ => ⟨hm ▸ h1, device_of_disk (c := c) hd ▸ h2⟩) ?_
  rintro c b ⟨hR, h⟩
  refine ⟨hR, ?_⟩
  rcases h with h | h
  · obtain ⟨hw, hw'⟩ := writeBack_store (h0 _ hR) (h1 _ hR) h
    by_cases hb : b = 1
    · exact Or.inr (hb ▸ hw)
    · exact Or.inl (hw' b hb)
  · exact Or.inr ((mixed_writeBack c b).holds (h1 _ hR) h)

theorem settle_store (h0 : ∀ b, 2 ≤ b → ¬ torn b → c.mem.dev.blocks b = dev.blocks b)
    (h1 : Device.Holds torn S' c.mem.dev dev')
    (h : Device.Holds torn S c.device dev ∨ Device.Holds torn S' c.device dev')
    (hs : Settled 1 c) : Device.Holds torn S' c.device dev' := by
  refine h.elim (fun h => ?_) id
  rw [← device_writeBack_of_settled hs]
  exact (writeBack_store h0 h1 h).1

/-- The superblock and the inode store are up to date, or will be. -/
def Up (c : Buf) : Prop := c.Due 0 ∧ c.Due 1

theorem steady_up : Buf.Steady Up := (Steady.due _ 0).and (Steady.due _ 1)

theorem due_store (h : c.Due b) (hb : s.dev.blocks b = c.mem.dev.blocks b) :
    (c.store s).Due b :=
  h.imp_right fun h => h.trans hb.symm

theorem Up.store (h : c.Up) (h0 : s.dev.blocks 0 = c.mem.dev.blocks 0)
    (h1 : s.dev.blocks 1 = c.mem.dev.blocks 1) : (c.store s).Up :=
  ⟨due_store h.1 h0, due_store h.2 h1⟩

end Buf

end WriteBacks

/-! ## 3. What a call may leave -/

/-- The blocks that are torn after a call: a write that fails tears its block, and one that succeeds
mends it. -/
def Op.torn (fs : Fs) (torn : Nat → Prop) : Op → Nat → Prop
  | .write d _ data copied => fun b =>
    if b = Buf.dataBlock fs d then copied < data.length else torn b
  | _ => torn

/-- **What a power failure in the middle of a call may leave**: the tree from before the call; the
one from after it, except that the inode a call makes may be missing, or its slot may have what is
left of a file; or, in a write, the new data with the old size.  A block that is torn before the
call or by it is left open. -/
inductive Op.Leaves (torn : Nat → Prop) (fs fs' : Fs) (op : Op) (dev : Device) : Prop
  | before (h : dev.Shows (fun b => torn b ∨ op.torn fs torn b) fs.dev.Live fs.dev)
  | after (h : dev.Shows (op.torn fs torn) (fun i => fs.dev.Live i ∧ fs'.dev.Live i) fs'.dev)
      (hnew : ∀ i, fs'.dev.Live i → ¬ fs.dev.Live i →
        dev.node i = fs'.dev.node i ∨ isDir (dev.slot i).mode = false)
  | rewritten {d ppos copied : Nat} {data : List UInt8} {x : Dentry}
      (hop : op = .write d ppos data copied) (hx : fs.dentries d = some x)
      (h : dev.Shows (op.torn fs torn) fs.dev.Live (fs.copiedIn x ppos data copied).dev)

/-- The device holds what is in memory, and the superblock and the store are or will be written. -/
def Buf.Kept (torn : Nat → Prop) (c : Buf) : Prop :=
  Device.Holds torn c.mem.dev.Slots c.device c.mem.dev ∧ c.Up

section Rules

variable {C U : Buf → Prop} {R : Fs → Prop} {torn live : Nat → Prop}
  {S S' : Nat → SfsInode → Prop} {dev dev' : Device} {fs : Fs} {c : Buf} {b B i : Nat}

/-- What is known at a point of a call. -/
def Buf.At (R : Fs → Prop) (torn : Nat → Prop) (S : Nat → SfsInode → Prop) (dev : Device)
    (U : Buf → Prop) (c : Buf) : Prop :=
  (R c.mem ∧ Device.Holds torn S c.device dev) ∧ U c

/-- ... and at one between two syncs. -/
def Buf.Between (R : Fs → Prop) (torn : Nat → Prop) (S S' : Nat → SfsInode → Prop)
    (dev dev' : Device) (U : Buf → Prop) (c : Buf) : Prop :=
  (R c.mem ∧ (Device.Holds torn S c.device dev ∨ Device.Holds torn S' c.device dev')) ∧ U c

theorem Buf.steady_at (hU : Buf.Steady U) (hR : ∀ s, R s → Device.Holds torn S s.dev dev) :
    Buf.Steady (Buf.At R torn S dev U) :=
  (Buf.steady_holds hR).and hU

theorem Buf.safe_at_of (hU : Buf.Steady U) (hR : ∀ s, R s → Device.Holds torn S s.dev dev)
    (hC : ∀ c : Buf, R c.mem → Device.Holds torn S c.device dev → C c) :
    Buf.Safe C (Buf.At R torn S dev U) :=
  ⟨Buf.steady_at hU hR, fun c h => hC c h.1.1 h.1.2⟩

theorem Buf.safe_at (hU : Buf.Steady U) (hR : ∀ s, R s → Device.Holds torn S s.dev dev)
    (hC : ∀ c : Buf, Device.Holds torn S c.device dev → C c) :
    Buf.Safe C (Buf.At R torn S dev U) :=
  Buf.safe_at_of hU hR fun c _ => hC c

theorem Buf.safe_pending (hU : Buf.Steady U)
    (h0 : ∀ s, R s → Device.Holds (fun b => torn b ∨ b = B) S s.dev dev)
    (h1 : ∀ s, R s → Device.Holds torn S' s.dev dev')
    (hS : ∀ i v, i < slotsPerBlock → S i v → S' i v)
    (hC : ∀ c : Buf, Device.Holds torn S c.device dev → C c)
    (hC' : ∀ c : Buf, Device.Holds torn S' c.device dev' → C c) :
    Buf.Safe C (Buf.Between R torn S S' dev dev' U) :=
  ⟨(Buf.steady_pending h0 h1 hS).and hU, fun c h => h.1.2.elim (hC c) (hC' c)⟩

theorem Buf.safe_store (hU : Buf.Steady U)
    (h0 : ∀ s, R s → ∀ b, 2 ≤ b → ¬ torn b → s.dev.blocks b = dev.blocks b)
    (h1 : ∀ s, R s → Device.Holds torn S' s.dev dev')
    (hC : ∀ c : Buf, Device.Holds torn S c.device dev → C c)
    (hC' : ∀ c : Buf, Device.Holds torn S' c.device dev' → C c) :
    Buf.Safe C (Buf.Between R torn S S' dev dev' U) :=
  ⟨(Buf.steady_store h0 h1).and hU, fun c h => h.1.2.elim (hC c) (hC' c)⟩

/-- A piece of code that leaves the superblock and the inode store alone. -/
theorem Buf.At.step {s : Fs} {R' : Fs → Prop} (h : c.At R torn S dev Buf.Up) (hs : R' s)
    (hb : ∀ u, R u → s.dev.blocks 0 = u.dev.blocks 0 ∧ s.dev.blocks 1 = u.dev.blocks 1) :
    (c.store s).At R' torn S dev Buf.Up :=
  ⟨⟨hs, h.1.2⟩, h.2.store (hb _ h.1.1).1 (hb _ h.1.1).2⟩

/-- ... and from which on the device may be another one. -/
theorem Buf.At.change {s : Fs} {R' : Fs → Prop} (h : c.At R torn S dev Buf.Up) (hs : R' s)
    (hb : ∀ u, R u → s.dev.blocks 0 = u.dev.blocks 0 ∧ s.dev.blocks 1 = u.dev.blocks 1) :
    (c.store s).Between R' torn S S' dev dev' Buf.Up :=
  ⟨⟨hs, Or.inl h.1.2⟩, h.2.store (hb _ h.1.1).1 (hb _ h.1.1).2⟩

/-- A piece of code that writes to the inode store. -/
theorem Buf.At.save {s : Fs} {R' : Fs → Prop} (h : c.At R torn S dev Buf.Up) (hs : R' s)
    (hb : ∀ u, R u → s.dev.blocks 0 = u.dev.blocks 0) :
    (c.store s).At R' torn S dev (Buf.Due 0) :=
  ⟨⟨hs, h.1.2⟩, Buf.due_store h.2.1 (hb _ h.1.1)⟩

/-- Its sync. -/
theorem Buf.At.saved (h : c.At R torn S dev (Buf.Due 0)) (hset : Buf.Settled 1 c) :
    c.At R torn S dev Buf.Up :=
  ⟨h.1, h.2, Or.inr hset⟩

/-- The sync of the superblock. -/
theorem Buf.At.synced (h : c.At R torn S dev U) (hdue : Buf.Due 1 c) (hset : Buf.Settled 0 c) :
    c.At R torn S dev Buf.Up :=
  ⟨h.1, Or.inr hset, hdue⟩

/-- The sync of a data block. -/
theorem Buf.Between.synced (h : c.Between R torn S S' dev dev' U) (hset : Buf.Settled B c)
    (h0 : ∀ s, R s → Device.Holds (fun b => torn b ∨ b = B) S s.dev dev)
    (h1 : ∀ s, R s → Device.Holds torn S' s.dev dev')
    (hS : ∀ i v, i < slotsPerBlock → S i v → S' i v) : c.At R torn S' dev' U :=
  ⟨⟨h.1.1, Buf.settle_pending (h0 _ h.1.1) (h1 _ h.1.1) hS h.1.2 hset⟩, h.2⟩

/-- What never holds. -/
theorem Buf.safe_false : Buf.Safe C fun _ => False :=
  ⟨Prog.Steady.inMemory fun _ => False, fun _ h => h.elim⟩

theorem Buf.steady_true : Buf.Steady fun _ : Buf => True :=
  .inMemory fun _ => True

/-- What is in memory is shown where it is held. -/
theorem FsInv.shows {d : Device} (hi : FsInv fs Shadow.none)
    (h : Device.Holds torn S d fs.dev)
    (hl : ∀ i, live i → fs.dev.Live i ∧ ∀ v, S i v → v.SameFile (fs.dev.slot i)) :
    d.Shows torn live fs.dev :=
  h.shows fun i hi' => ⟨(hl i hi').1, (hi.store.block i (hl i hi').1).1, (hl i hi').2⟩

theorem FsInv.shows_kept {d : Device} (hi : FsInv fs Shadow.none)
    (h : Device.Holds torn fs.dev.Slots d fs.dev) : d.Shows torn fs.dev.Live fs.dev :=
  hi.shows h fun _ hl => ⟨hl, fun _ hv => hv.1 hl⟩

/-- The device is as it was before the call. -/
theorem FsInv.leaves_before (hi : FsInv fs Shadow.none) (op : Op) (fs' : Fs) {d : Device}
    (h : Device.Holds torn fs.dev.Slots d fs.dev) : op.Leaves torn fs fs' d :=
  .before ((hi.shows_kept h).mono (fun _ => Or.inl) fun _ => id)

/-- A write inside data block `B`. -/
theorem Device.holds_of_agreeOff (hB : 2 ≤ B)
    (h : AgreeOff (4096 * B) (4096 * B + 4096) dev dev')
    (hS : ∀ i, i < slotsPerBlock → S i (dev.slot i)) :
    Device.Holds (fun b => torn b ∨ b = B) S dev' dev := by
  refine ⟨fun b h2 ht => Device.blocks_congr h ?_, fun i hi => ?_⟩
  · have : b ≠ B := fun hb => ht (Or.inr hb)
    omega
  · have hi' : i < 128 := hi
    rw [Device.slot_congr h (by omega)]
    exact hS i hi

/-- Such a write is no write to the superblock or the inode store. -/
theorem Device.blocks_zero_one (hB : 2 ≤ B)
    (h : AgreeOff (4096 * B) (4096 * B + 4096) dev dev') :
    dev'.blocks 0 = dev.blocks 0 ∧ dev'.blocks 1 = dev.blocks 1 :=
  ⟨Device.blocks_congr h (by omega), Device.blocks_congr h (by omega)⟩

theorem Device.blocks_setSlot (dev : Device) (v : SfsInode) (hi : i < 128) (hb : b ≠ 1) :
    (dev.setSlot i v).blocks b = dev.blocks b :=
  Device.blocks_congr (Device.agreeOff_setSlot dev i v) (by omega)

theorem Device.blocks_delAt (dev : Device) (hi : i < 128) (hb : 2 ≤ b) :
    (dev.delAt i).blocks b = dev.blocks b :=
  Device.blocks_of_byte fun off _ => Device.byte_delAt dev off hi hb

theorem Device.blocks_addAt (dev : Device) (v : SfsInode) (hi : i < 128) (hb : 2 ≤ b) :
    (dev.addAt i v).blocks b = dev.blocks b :=
  Device.blocks_of_byte fun off _ => Device.byte_addAt dev v off hi hb

end Rules

end Simplefs
