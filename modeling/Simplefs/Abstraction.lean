/-
# The volume of a device

What a device says, read as a volume: slot `i` is node `i`, the used records of a directory's
block are its names, and a file is its size and the bytes of its block.  Each of the three
operations that write then does to the tree what its name says.
-/
import Simplefs.Frame
import Simplefs.Stale
import Simplefs.Volume

namespace Simplefs

open Prog (run LockState)

/-! ## 1. Nodes, names and room -/

namespace Device

/-- What the file of an inode holds. -/
def fileData (dev : Device) (v : SfsInode) : FileData :=
  ⟨v.fileSize.toNat, fun off => if off < 4096 then dev.byte v.block off else 0⟩

/-- What the node of a file has of a block. -/
def blockBytes (block : Block) (off : Nat) : UInt8 := if h : off < 4096 then block ⟨off, h⟩ else 0

/-- The node that block `b` has under a name. -/
def names (dev : Device) (b : Nat) (name : Name) : Option Nat :=
  (dev.scan b name).map fun j => slotIndex (dev.record b j).inodeNo

/-- The node of slot `i`. -/
def node (dev : Device) (i : Nat) : Option (FileNode Nat Name (BitVec 32) FileData) :=
  if dev.Live i then
    some (if isDir (dev.slot i).mode then .dir (dev.slot i).mode (dev.names (dev.slot i).block)
      else .file (dev.slot i).mode (dev.fileData (dev.slot i)))
  else none

/-- The blocks that can still be handed out. -/
def freeRoom (dev : Device) : Nat :=
  ((Finset.Icc 3 34).filter fun b => dev.freeBlocks.getLsbD (b % 32) = true).card

variable {dev dev' : Device} {i k b : Nat}

theorem node_dir (hd : dev.graph.dir i) : dev.node i =
    some (.dir (dev.slot i).mode (dev.names (dev.slot i).block)) := by
  rw [node, if_pos hd.1, if_pos hd.2]

theorem node_file (hl : dev.Live i) (hf : isDir (dev.slot i).mode = false) : dev.node i =
    some (.file (dev.slot i).mode (dev.fileData (dev.slot i))) := by
  rw [node, if_pos hl, if_neg (Bool.eq_false_iff.mp hf)]

theorem node_none (hl : ¬ dev.Live i) : dev.node i = none := if_neg hl

@[simp] theorem size_fileData (v : SfsInode) : (dev.fileData v).size = v.fileSize.toNat := rfl

theorem bytes_fileData (v : SfsInode) (off : Nat) : (dev.fileData v).bytes off =
    if off < 4096 then dev.byte v.block off else 0 := rfl

theorem blockBytes_blocks (v : SfsInode) :
    blockBytes (dev.blocks v.block) = (dev.fileData v).bytes := by
  funext off
  rw [bytes_fileData, blockBytes]
  split <;> rfl

theorem names_congr (h : ∀ off, off < 4096 → dev'.byte b off = dev.byte b off) :
    dev'.names b = dev.names b := by
  have hrec : ∀ j, j < recordsPerBlock → dev'.record b j = dev.record b j := fun j hj =>
    record_of_byte hj h
  funext name
  have hscan : dev'.scan b name = dev.scan b name := by
    rw [scan, scan, ← List.head?_filter, ← List.head?_filter]
    refine congrArg List.head? (List.filter_congr fun j hj => ?_)
    rw [hrec j (List.mem_range.mp hj)]
  rw [names, names, hscan]
  refine Option.map_congr fun j hj => ?_
  rw [hrec j (of_scan_some hj).1]

theorem fileData_congr {v : SfsInode}
    (h : ∀ off, off < 4096 → dev'.byte v.block off = dev.byte v.block off) :
    dev'.fileData v = dev.fileData v := by
  refine FileData.ext rfl ?_
  funext off
  refine if_ctx_congr Iff.rfl (fun hoff => h off hoff) fun _ => rfl

/-- A node is what its slot and its block say. -/
theorem node_congr (hs : dev'.slot i = dev.slot i)
    (hb : ∀ off, off < 4096 → dev'.byte (dev.slot i).block off = dev.byte (dev.slot i).block off) :
    dev'.node i = dev.node i := by
  rw [node, node, if_congr (live_congr hs) rfl rfl, hs, names_congr hb, fileData_congr hb]

/-- What an operation leaves alone. -/
theorem Frame.node {s : Nat} {gone : Nat → Prop} {imap : BitVec 64} {pend : Nat → Prop}
    (hf : Frame dev dev' s gone) (hs : StoreInv dev imap pend) (hl : dev.Live k) (hks : k ≠ s)
    (hg : ¬ gone k) : dev'.node k = dev.node k :=
  node_congr (hf.slot k hl hks hg) (hf.block _ (hs.block k hl).1 fun hb =>
    hks (hs.block_inj k s hl hf.live hb))

end Device

/-! ## 2. Names -/

section Names

variable {dev dev' : Device} {orphan orphan' : Nat → Prop} {s i j k : Nat} {name : Name}

/-- **The names of a directory are the entries of its block.** -/
theorem TreeInv.names_eq_some_iff (ht : TreeInv dev orphan) (hd : dev.graph.dir s) :
    dev.names (dev.slot s).block name = some k ↔ ∃ j, dev.entry s j = some (name.bytes, k) := by
  constructor
  · intro h
    obtain ⟨j, hs, rfl⟩ := Option.map_eq_some_iff.mp h
    exact ⟨j, Device.scan_some hs⟩
  · rintro ⟨j, hj⟩
    obtain ⟨-, -, -, hk⟩ := Device.of_entry_eq_some hj
    rw [Device.names, ht.scan_eq hd hj, Option.map_some, hk]

/-- A name that leads somewhere leads to a live slot. -/
theorem TreeInv.live_of_names (ht : TreeInv dev orphan) (hd : dev.graph.dir s)
    (h : dev.names (dev.slot s).block name = some k) : dev.Live k := by
  obtain ⟨j, hj⟩ := (ht.names_eq_some_iff hd).mp h
  exact (ht.wf.target _ _ _ ⟨hd, _, hj⟩).1

/-- A new entry is a new name. -/
theorem TreeInv.names_setEntry (ht : TreeInv dev orphan) (ht' : TreeInv dev' orphan')
    (hd : dev.graph.dir s) (hd' : dev'.graph.dir s)
    (h : ∀ j', dev'.entry s j' = if j' = j then some (name.bytes, i) else dev.entry s j')
    (hfree : dev.entry s j = none) (hnew : dev.names (dev.slot s).block name = none) :
    dev'.names (dev'.slot s).block =
      Function.update (dev.names (dev.slot s).block) name (some i) := by
  funext n
  refine Option.ext fun k => ?_
  rw [ht'.names_eq_some_iff hd', Function.update_apply]
  by_cases hn : n = name
  · subst hn
    rw [if_pos rfl, Option.some.injEq]
    constructor
    · rintro ⟨j', hj'⟩
      rw [h] at hj'
      split at hj'
      · exact congrArg Prod.snd (Option.some.inj hj')
      · exact nomatch hnew.symm.trans ((ht.names_eq_some_iff hd).mpr ⟨j', hj'⟩)
    · rintro rfl
      exact ⟨j, by rw [h, if_pos rfl]⟩
  · rw [if_neg hn, ht.names_eq_some_iff hd]
    constructor
    · rintro ⟨j', hj'⟩
      rw [h] at hj'
      split at hj'
      · exact absurd (Name.ext (congrArg Prod.fst (Option.some.inj hj'))).symm hn
      · exact ⟨j', hj'⟩
    · rintro ⟨j', hj'⟩
      refine ⟨j', ?_⟩
      rw [h, if_neg, hj']
      rintro rfl
      exact nomatch hfree.symm.trans hj'

/-- An entry that goes takes its name with it. -/
theorem TreeInv.names_dropEntry (ht : TreeInv dev orphan) (ht' : TreeInv dev' orphan')
    (hd : dev.graph.dir s) (hd' : dev'.graph.dir s)
    (h : ∀ j', dev'.entry s j' = if j' = j then none else dev.entry s j')
    (hj : dev.entry s j = some (name.bytes, i)) :
    dev'.names (dev'.slot s).block = Function.update (dev.names (dev.slot s).block) name none := by
  funext n
  refine Option.ext fun k => ?_
  rw [ht'.names_eq_some_iff hd', Function.update_apply]
  by_cases hn : n = name
  · subst hn
    rw [if_pos rfl]
    refine iff_of_false ?_ nofun
    rintro ⟨j', hj'⟩
    rw [h] at hj'
    split at hj'
    · cases hj'
    · rename_i hne
      exact hne (ht.wf.label s j' j _ _ _ hd hj' hj)
  · rw [if_neg hn, ht.names_eq_some_iff hd]
    constructor
    · rintro ⟨j', hj'⟩
      rw [h] at hj'
      split at hj'
      · cases hj'
      · exact ⟨j', hj'⟩
    · rintro ⟨j', hj'⟩
      refine ⟨j', ?_⟩
      rw [h, if_neg, hj']
      rintro rfl
      rw [hj] at hj'
      exact hn (Name.ext (congrArg Prod.fst (Option.some.inj hj'))).symm

/-- **Paths through the tree are paths through the blocks.** -/
theorem TreeInv.resolve_node (ht : TreeInv dev orphan) {path : List Name} (hi : dev.Live i) :
    FileTree.resolve dev.node path i = dev.resolve path i := by
  induction path generalizing i with
  | nil => rfl
  | cons name path ih =>
    rw [FileTree.resolve, Device.resolve]
    by_cases hm : isDir (dev.slot i).mode = true
    · have hd : dev.graph.dir i := ⟨hi, hm⟩
      rw [if_pos hm, FileTree.DirAt.child ⟨_, Device.node_dir hd⟩, Device.names]
      cases hs : dev.scan (dev.slot i).block name with
      | none => rfl
      | some j =>
        refine ih (ht.live_of_names hd (show dev.names (dev.slot i).block name = _ from ?_))
        rw [Device.names, hs, Option.map_some]
    · rw [if_neg hm, FileTree.child, Device.node_file hi (Bool.eq_false_iff.mpr hm)]
      rfl

end Names

/-! ## 3. The three operations that write -/

section Operations

variable {fs : Fs} {p d e : Nat} {x y : Dentry} {c : DirCache} {entry : CacheEntry} {name : Name}
  {mode : BitVec 16} {i b : Nat}

/-- A new inode is a new node: its block has never been written. -/
theorem Device.node_newInode {dev : Device} (hi : i < 63) (hb : b ≤ 34)
    (hslot : dev.slot i = newInode mode (i + 1) b) (hz : dev.ZeroBlock b) :
    dev.node i = some (newNode (mode.setWidth 32)) := by
  have hblock : (newInode mode (i + 1) b).block = b := block_newInode mode _ (by omega)
  have hlive : dev.Live i :=
    ⟨show i < 128 by omega, hslot ▸ inoOf_ne_zero (show i < 128 by omega)⟩
  have hnames : dev.names b = fun _ => none := by
    funext n
    rw [Device.names, Option.map_eq_none_iff]
    cases hs : dev.scan b n with
    | none => rfl
    | some j =>
      obtain ⟨hj, hl, -⟩ := Device.of_scan_some hs
      rw [Device.record_of_zeroBlock hz hj, DirRecord.inodeNo_zero] at hl
      exact absurd rfl hl
  have hdata : dev.fileData (newInode mode (i + 1) b) = ⟨0, fun _ => 0⟩ := by
    refine FileData.ext rfl ?_
    funext off
    rw [Device.fileData, hblock]
    refine ite_eq_right_iff.mpr fun hoff => hz off hoff
  rw [Device.node, if_pos hlive, newNode, hslot, hdata, hblock, hnames]
  rfl

/-- The entries of the directory after a create. -/
theorem Fs.SoundAt.entry_created (hs : fs.SoundAt p x c) (hl : fs.dev.Live x.slot)
    (hp : Picked fs c name i b entry) (mode : BitVec 16) (j : Nat) :
    (created fs p x c entry name mode i b).dev.entry x.slot j =
      if j = entry.entryNo then some (name.bytes, i) else fs.dev.entry x.slot j := by
  have hlt := hs.room_of_keeps hp.entry hp.keeps
  have hdisk := hs.disk hl
  have hself : (created fs p x c entry name mode i b).dev.slot x.slot = _ :=
    hs.slot_created hlt hl.lt
  rw [if_pos rfl] at hself
  have hi63 := hp.lt
  split
  · rename_i heq
    subst heq
    have hat : CreatedAt fs (created fs p x c entry name mode i b) p x name mode i b
      entry.entryNo := hs.createdAt hp.lt hp.dead hp.block hp.entry hp.keeps hl
    obtain ⟨hj, -, hno, hname⟩ := hat.record
    have hblk : ((created fs p x c entry name mode i b).dev.slot x.slot).block = x.inode.block := by
      rw [hself]
      rfl
    rw [Device.entry_eq_some hj (by rw [hblk]) (by rw [hno]; exact inoOf_ne_zero (by omega)),
      hname, hno, slotIndex_inoOf (by omega)]
  · rename_i hje
    refine Device.entry_congr (by rw [hself, hdisk]; rfl) fun hj => ?_
    have hn263 : name.bytes.length ≤ 263 := by
      rcases hp.keeps with h | ⟨h, -⟩ <;> omega
    obtain ⟨h1, h2⟩ := hs.record_created entry name mode b hp.lt j
    rw [hdisk, h1, Device.record_putRecord_ne _ _ hn263 hlt.1 hj fun h => hje h.2, h2]

/-- A name that the VFS has not found has no record. -/
theorem Fs.SoundAt.no_name {fs : Fs} {p : Nat} {x : Dentry} {c : DirCache} {name : Name}
    (hs : fs.SoundAt p x c) (hx : fs.DirAt p x) (ha : fs.Absent p name) :
    fs.dev.names x.inode.block name = none := by
  obtain ⟨y, hy, -, hnone⟩ := ha
  cases hx.1.symm.trans hy.1
  have hget := hnone c hs.fsdata
  rw [hs.agrees.mirrors.get name] at hget
  rw [Device.names, Option.map_eq_none_iff.mp hget, Option.map_none]

/-- **A create links a new node.** -/
theorem FsInv.node_created (hi : FsInv fs Shadow.none) (hx : fs.DirAt p x)
    (hs : fs.SoundAt p x c) (hp : Fs.SoundAt.Picked fs c name i b entry)
    (hi' : FsInv (Fs.SoundAt.created fs p x c entry name mode i b) Shadow.none)
    (hnew : fs.dev.names x.inode.block name = none) :
    (Fs.SoundAt.created fs p x c entry name mode i b).dev.node =
      FileTree.link fs.dev.node x.slot name i (newNode (mode.setWidth 32)) := by
  obtain ⟨hd, hb⟩ := hi.dir hx
  have hf := hs.frame hd.1 hp mode
  have hlt := hs.room_of_keeps hp.entry hp.keeps
  have hslot : ∀ k, k < slotsPerBlock →
      (Fs.SoundAt.created fs p x c entry name mode i b).dev.slot k =
        if k = x.slot then { x.inode with fileSize := x.inode.fileSize + 1 }
        else if k = i then newInode mode (i + 1) b else fs.dev.slot k := fun k hk =>
    hs.slot_created hlt hk
  have hxi : x.slot ≠ i := by
    rintro heq
    exact hp.dead (heq ▸ hd.1)
  have hself := hslot x.slot hd.1.lt
  rw [if_pos rfl] at hself
  have hblk : ((Fs.SoundAt.created fs p x c entry name mode i b).dev.slot x.slot).block =
      x.inode.block := by
    rw [hself]
    rfl
  have hd' : (Fs.SoundAt.created fs p x c entry name mode i b).dev.graph.dir x.slot :=
    (hf.keeps hi.store).dir _ hd
  obtain ⟨h3, h34, havail⟩ := hs.store.high.scan_some hp.block
  obtain ⟨-, hunused, hzero⟩ := hs.store.avail b h3 h34 havail
  have hbx : b ≠ x.inode.block := by
    rw [← hb]
    exact (hunused _ hd.1).symm
  have hnew' : fs.dev.names (fs.dev.slot x.slot).block name = none := by rw [hb, hnew]
  rw [FileTree.link, FileTree.setChild_eq (Device.node_dir hd)]
  funext k
  by_cases hki : k = i
  · -- the new node
    subst hki
    rw [Function.update_self]
    refine Device.node_newInode hp.lt h34 ?_ fun off hoff => ?_
    · rw [hslot k (by have := hp.lt; exact show k < 128 by omega), if_neg (Ne.symm hxi), if_pos rfl]
    · rw [hs.byte_created mode hp.lt hlt (by omega) hbx hoff]
      exact hzero off hoff
  rw [Function.update_of_ne hki]
  by_cases hkx : k = x.slot
  · -- the directory
    subst hkx
    rw [Function.update_self, Device.node_dir hd', hf.worked.mode,
      hi.tree.names_setEntry hi'.tree hd hd' (hs.entry_created hd.1 hp mode) ?_ hnew']
    refine Device.entry_eq_none ?_
    rw [hb]
    exact (hs.free_entry hp.entry).2
  rw [Function.update_of_ne hkx]
  by_cases hl : fs.dev.Live k
  · exact hf.node hi.store hl hkx id
  · rw [Device.node_none hl, Device.node_none]
    intro hl'
    refine hl ((Device.live_congr ?_).mp hl')
    rw [hslot k hl'.1, if_neg hkx, if_neg hki]

/-- The entries of the directory after an unlink. -/
theorem Fs.Unlinkable.entry_unlinked (hu : fs.Unlinkable e y x c) (hi : FsInv fs Shadow.none)
    (h15 : entry.entryNo < 15) (j : Nat) : (fs.unlinked e y x c entry).dev.entry x.slot j =
      if j = entry.entryNo then none else fs.dev.entry x.slot j := by
  obtain ⟨hx, hy⟩ := hu.lt_slots hi
  obtain ⟨hd, hb⟩ := hi.dir hu.dir
  have hself := hu.slot_unlinked hi h15 hx
  rw [if_neg (Ne.symm (hu.slot_ne hi)), if_pos rfl] at hself
  have hblk : ((fs.unlinked e y x c entry).dev.slot x.slot).block = (fs.dev.slot x.slot).block := by
    rw [hself, hb]
    rfl
  have hrec : ∀ k, k < 15 → (fs.unlinked e y x c entry).dev.record x.inode.block k =
      if k = entry.entryNo then DirRecord.zero else fs.dev.record x.inode.block k := by
    intro k hk
    refine (Device.record_delAt _ _ hy (hu.two_le_block hi)).trans ?_
    refine (Device.record_setSlot _ _ _ hx (hu.two_le_block hi)).trans ?_
    refine (Device.record_clearRecord _ h15 hk).trans ?_
    simp only [true_and]
  split
  · rename_i heq
    subst heq
    refine Device.entry_eq_none ?_
    rw [hblk, hb, hrec _ h15, if_pos rfl, DirRecord.inodeNo_zero]
  · rename_i hne
    refine Device.entry_congr hblk fun hj => ?_
    rw [hb, hrec j hj, if_neg hne]

/-- **An unlink removes the file and its name.** -/
theorem FsInv.node_unlinked (hi : FsInv fs Shadow.none) (hu : fs.Unlinkable e y x c)
    (hget : usedCacheEntryGet c y.name = some entry)
    (hi' : FsInv (fs.unlinked e y x c entry) Shadow.none) :
    fs.dev.names x.inode.block y.name = some y.slot ∧
      (fs.unlinked e y x c entry).dev.node =
        FileTree.unlink fs.dev.node x.slot y.name y.slot := by
  obtain ⟨hd, hb⟩ := hi.dir hu.dir
  obtain ⟨entry', hget', -, h15, hent⟩ := hi.used_entry hu.cur hu.ne hu.dir hu.fsdata
  cases hget.symm.trans hget'
  have hf := hu.frame hi hget
  have hslot := fun k (hk : k < 128) => hu.slot_unlinked hi h15 hk
  have hd' : (fs.unlinked e y x c entry).dev.graph.dir x.slot := (hf.keeps hi.store).dir _ hd
  refine ⟨by rw [← hb, hi.tree.names_eq_some_iff hd]; exact ⟨_, hent⟩, ?_⟩
  rw [FileTree.unlink, FileTree.setChild_eq (Device.node_dir hd)]
  funext k
  by_cases hky : k = y.slot
  · subst hky
    rw [Function.update_self, Device.node_none]
    exact fun hl => (hu.live_unlinked hi h15 hl).1 rfl
  rw [Function.update_of_ne hky]
  by_cases hkx : k = x.slot
  · subst hkx
    rw [Function.update_self, Device.node_dir hd', hf.worked.mode,
      hi.tree.names_dropEntry hi'.tree hd hd' (hu.entry_unlinked hi h15) hent]
  rw [Function.update_of_ne hkx]
  by_cases hl : fs.dev.Live k
  · exact hf.node hi.store hl hkx hky
  · rw [Device.node_none hl, Device.node_none]
    exact fun hl' => hl (hu.live_unlinked hi h15 hl').2.1

/-- The bytes of a write, in the block of its file. -/
theorem Device.byte_putData (dev : Device) (n ppos : Nat) (l : List UInt8) (off : Nat) :
    (dev.putData n ppos l).byte n off =
      if ppos ≤ off ∧ off < ppos + l.length then l.getD (off - ppos) 0 else dev.byte n off := by
  rw [Device.putData, Device.byte, ByteMem.store]
  split
  · rename_i h
    rw [show 4096 * n + off = 4096 * n + ppos + (off - ppos) by omega,
      ByteMem.patch_add _ _ (by omega)]
  · rename_i h
    rw [ByteMem.patch_of_not_mem _ _ (by omega)]
    rfl

/-- The slots after a write. -/
theorem FsInv.slot_written (hi : FsInv fs Shadow.none) (hx : fs.Current Shadow.none d x)
    (ppos : Nat) (data : List UInt8) (copied : Nat) {k : Nat} (hk : k < 128) :
    (fs.written d x ppos data copied).dev.slot k =
      if k = x.slot ∧ ¬ copied < data.length then (x.resized (ppos + data.length)).inode
      else fs.dev.slot k := by
  obtain ⟨hl, -, hsame⟩ := hi.live d x hx
  have hb2 := (hi.store.block x.slot hl).1
  rw [← hsame.block] at hb2
  have hput : (fs.copiedIn x ppos data copied).dev.slot k = fs.dev.slot k :=
    slot_copiedIn hb2 ppos data copied hk
  have hput' : (fs.dev.putData x.inode.block ppos (copiedBytes data copied)).slot k =
      fs.dev.slot k := hput
  rw [Fs.dev_written]
  by_cases hc : copied < data.length
  · rw [if_pos hc, if_neg fun h => h.2 hc, hput']
  · rw [if_neg hc, Device.slot_setSlot, hput']
    simp only [hc, not_false_eq_true, and_true]

/-- The bytes of the file after a write. -/
theorem FsInv.byte_written (hi : FsInv fs Shadow.none) (hx : fs.Current Shadow.none d x)
    (ppos : Nat) (data : List UInt8) (copied : Nat) {off : Nat} (hoff : off < 4096) :
    (fs.written d x ppos data copied).dev.byte x.inode.block off =
      if ppos ≤ off ∧ off < ppos + data.length then (copiedBytes data copied).getD (off - ppos) 0
      else fs.dev.byte x.inode.block off := by
  obtain ⟨hl, -, hsame⟩ := hi.live d x hx
  have hb2 := (hi.store.block x.slot hl).1
  rw [← hsame.block] at hb2
  have hlt := hl.lt
  have hput := Device.byte_putData fs.dev x.inode.block ppos (copiedBytes data copied) off
  rw [length_copiedBytes] at hput
  rw [Fs.dev_written, ← hput]
  split
  · rfl
  · exact Device.byte_congr (Device.agreeOff_setSlot _ x.slot _) (by omega)

/-- What the file holds after a write. -/
theorem FsInv.fileData_written (hi : FsInv fs Shadow.none) (hx : fs.Current Shadow.none d x)
    {ppos : Nat} {data : List UInt8} (hlen : ppos + data.length ≤ 4096) (copied : Nat) :
    (fs.written d x ppos data copied).dev.fileData
        ((fs.written d x ppos data copied).dev.slot x.slot) =
      ((fs.dev.fileData x.inode).write ppos data copied).2 := by
  obtain ⟨hl, -, hsame⟩ := hi.live d x hx
  have hclean := hi.clean d x hx id
  have hslot := hi.slot_written hx ppos data copied hl.lt
  have hblock : ((fs.written d x ppos data copied).dev.slot x.slot).block = x.inode.block := by
    rw [hslot]
    split
    · rfl
    · rw [hclean]
  refine FileData.ext ?_ ?_
  · rw [FileData.size_write, Device.size_fileData, hslot, Device.size_fileData]
    by_cases hc : copied < data.length
    · rw [if_neg fun h => h.2 hc, if_pos hc, hclean]
    · rw [if_pos ⟨rfl, hc⟩, if_neg hc]
      change (BitVec.ofNat 64 _).toNat = _
      rw [BitVec.toNat_ofNat]
      omega
  · funext off
    rw [FileData.bytes_write, Device.bytes_fileData, Device.bytes_fileData, hblock]
    by_cases hoff : off < 4096
    · rw [if_pos hoff, if_pos hoff, hi.byte_written hx ppos data copied hoff]
    · rw [if_neg hoff, if_neg hoff, if_neg (by omega)]

/-- **A write is a write to its file.** -/
theorem FsInv.node_written (hi : FsInv fs Shadow.none) (hx : fs.Current Shadow.none d x)
    (hf : isDir x.inode.mode = false) {ppos : Nat} {data : List UInt8}
    (hlen : ppos + data.length ≤ 4096) (copied : Nat) :
    (fs.written d x ppos data copied).dev.node =
      FileTree.setData fs.dev.node x.slot
        ((fs.dev.fileData x.inode).write ppos data copied).2 := by
  have hl := (hi.live d x hx).1
  have hclean := hi.clean d x hx id
  have hframe := hi.frame_written hx hf hlen copied
  have hfm : isDir (fs.dev.slot x.slot).mode = false := by rw [hclean, hf]
  rw [FileTree.setData_eq (Device.node_file hl hfm)]
  funext k
  by_cases hkx : k = x.slot
  · subst hkx
    have hlive' : (fs.written d x ppos data copied).dev.Live x.slot := by
      refine ⟨hl.1, ?_⟩
      rw [hframe.worked.inodeNo]
      exact hl.2
    rw [Function.update_self, Device.node_file hlive' (by rw [hframe.worked.mode, hfm]),
      hframe.worked.mode, hi.fileData_written hx hlen copied]
  rw [Function.update_of_ne hkx]
  by_cases hlk : fs.dev.Live k
  · exact hframe.node hi.store hlk hkx id
  · rw [Device.node_none hlk, Device.node_none]
    intro hl'
    refine hlk ((Device.live_congr ?_).mp hl')
    rw [hi.slot_written hx ppos data copied hl'.1, if_neg fun h => hkx h.1]

end Operations

end Simplefs
