/-
# A directory that was just made

`simplefs_create_fs_object` takes a block for the new directory and writes nothing to it: the
records are in the block already, whatever it holds.  `mkfs` leaves all but the first four blocks
alone, so a directory starts with what the device held there before.

The block that is handed out belongs to nobody, so it is not the parent's, which the create does
write to.  That is where the order of a run comes in; the rest is what a create leaves alone.
-/
import Simplefs.Names
import Simplefs.Tidy

namespace Simplefs

open Prog (run LockState Ending wlp wlp_step wlp_stepObs wlp_lock wlp_unlock wlp_bind)

/-! ## 1. An empty directory, and a block with nothing in it -/

/-- **The directory of dentry `d` starts empty**: it counts no children, and the first listing
builds a cache without a used entry. -/
structure BornEmpty (fs : Fs) (d : Nat) : Prop where
  dentry : ∃ x, fs.dentries d = some x ∧ x.fsdata = none ∧ x.inode.dirChildrenCount = 0
  cache : ∃ out fs' x c, iterate d 0 fs = .ok (out, fs') ∧ fs'.dentries d = some x ∧
    x.fsdata = some c ∧ c.used = [] ∧ c.free.length = recordsPerBlock

/-- The block that is handed out next has no live record. -/
def Fs.NextBlockClean (fs : Fs) : Prop :=
  ∀ b, freeBlockScan fs.dev.freeBlocks = some b →
    ∀ j, j < recordsPerBlock → (fs.dev.record b j).inodeNo = 0#64

/-- A cache of `records` has no used entry exactly if no record is live, and then all are free. -/
theorem dirCacheBuild_empty_iff (records : Nat → DirRecord) :
    ((dirCacheBuild simplefsCacheAlloc records).used = [] ∧
        (dirCacheBuild simplefsCacheAlloc records).free.length = recordsPerBlock) ↔
      ∀ j, j < recordsPerBlock → (records j).inodeNo = 0#64 := by
  have hag := dirCacheBuild_agrees records
  constructor
  · rintro ⟨hused, -⟩ j hj
    by_contra hne
    have hmem : (⟨records j, j⟩ : CacheEntry) ∈ liveEntries records :=
      mem_liveEntries.mpr ⟨hj, hne, rfl⟩
    rw [← hag.used, hused] at hmem
    exact List.not_mem_nil hmem
  · intro h
    constructor
    · rw [hag.used]
      refine List.eq_nil_iff_forall_not_mem.mpr fun e he => ?_
      obtain ⟨hj, hne, -⟩ := mem_liveEntries.mp he
      exact hne (h _ hj)
    · have hall : freeNumbers records = List.range recordsPerBlock :=
        List.filter_eq_self.mpr fun j hj => decide_eq_true (h j (List.mem_range.mp hj))
      rw [← List.length_map CacheEntry.entryNo, hag.free.length_eq, hall, List.length_range]

/-- What makes a new directory empty are the records in its block. -/
theorem bornEmpty_iff_records {fs : Fs} {d : Nat} {x : Dentry} (hx : fs.dentries d = some x)
    (hc : x.fsdata = none) (h0 : x.inode.dirChildrenCount = 0) : BornEmpty fs d ↔
      ∀ j, j < recordsPerBlock → (fs.dev.record x.inode.block j).inodeNo = 0#64 := by
  have hbuild : dirCacheOf fs x =
      dirCacheBuild simplefsCacheAlloc (fs.dev.record x.inode.block) := by
    rw [dirCacheOf, hc, Option.getD_none]
  rw [← dirCacheBuild_empty_iff, ← hbuild]
  constructor
  · rintro ⟨-, out, fs', x', c, hrun, hx', hc', hused, hfree⟩
    rw [iterate_eq hx 0] at hrun
    cases hrun
    rw [Fs.setDentry_dentries, if_pos rfl] at hx'
    cases hx'
    cases hc'
    exact ⟨hused, hfree⟩
  · rintro ⟨hused, hfree⟩
    exact ⟨⟨x, hx, hc, h0⟩, _, _, _, _, iterate_eq hx 0,
      (Fs.setDentry_dentries _ _ _ _).trans (if_pos rfl), rfl, hused, hfree⟩

/-! ## 2. What a create leaves alone -/

/-- The bytes of block `b` are the same, and the next dentry is in the same place. -/
structure SparesBlock (fs fs' : Fs) (b : Nat) : Prop where
  bytes : ∀ a, 4096 * b ≤ a → a < 4096 * b + 4096 → fs'.dev a = fs.dev a
  next : fs'.next = fs.next

section

variable {fs fs' : Fs} {p b n : Nat} {name : Name} {intr : Site → Bool} {mode : BitVec 16}
  {ino : BitVec 64}

theorem SparesBlock.trans {fs'' : Fs} (h : SparesBlock fs fs' b) (h' : SparesBlock fs' fs'' b) :
    SparesBlock fs fs'' b :=
  ⟨fun a hlo hhi => (h'.bytes a hlo hhi).trans (h.bytes a hlo hhi), h'.next.trans h.next⟩

theorem SparesBlock.record (h : SparesBlock fs fs' b) {j : Nat} (hj : j < recordsPerBlock) :
    fs'.dev.record b j = fs.dev.record b j := by
  have hj' : j < 15 := hj
  exact recordAt_congr fun a hlo hhi => h.bytes a (by omega) (by omega)

/-- A write before the data blocks. -/
theorem sparesBlock_of_agreeOff {dev : Device} {lo hi : Nat} (h3 : 3 ≤ b)
    (hagree : AgreeOff lo hi fs.dev dev) (hhi : hi ≤ 12288) :
    SparesBlock fs { fs with dev := dev } b :=
  ⟨fun a ha _ => hagree a (Or.inr (by omega)), rfl⟩

theorem sparesBlock_taken (h3 : 3 ≤ b) : SparesBlock fs (fs.taken b) b :=
  sparesBlock_of_agreeOff h3 (Device.agreeOff_setFreeBlocks _ _) (by omega)

theorem sparesBlock_added (h3 : 3 ≤ b) {v : SfsInode} {i : Nat} (hi : i < 63) {imap : BitVec 64} :
    SparesBlock fs { fs with dev := fs.dev.addAt i v, imap := imap } b := by
  refine ⟨fun a ha _ => ?_, rfl⟩
  exact (Device.agreeOff_setInodesCount _ _ a (by omega)).trans
    (Device.agreeOff_setSlot fs.dev i v a (by omega))

theorem sparesBlock_saveInode (h3 : 3 ≤ b) {found : Bool}
    (hr : saveInode p fs = .ok (found, fs')) : SparesBlock fs fs' b := by
  obtain ⟨x, -, ⟨-, rfl⟩ | ⟨-, i, hi, -, rfl⟩⟩ := saveInode_ok hr
  · exact ⟨fun _ _ _ => rfl, rfl⟩
  · have hi' : i < 128 := hi
    exact sparesBlock_of_agreeOff h3 (Device.agreeOff_setSlot _ _ _) (by omega)

theorem sparesBlock_countChild {u : Unit} (hr : countChild p fs = .ok (u, fs')) :
    SparesBlock fs fs' b := by
  obtain ⟨x, -, hr⟩ := Fs.of_bind_dentry hr
  cases hr
  exact ⟨fun _ _ _ => rfl, rfl⟩

/-- The record goes into the parent's block, which is another one. -/
theorem sparesBlock_addRecord
    (hne : ∀ x c, fs.dentries p = some x → x.fsdata = some c → x.inode.block ≠ b) {u : Unit}
    (hr : addRecord p name ino fs = .ok (u, fs')) : SparesBlock fs fs' b := by
  obtain ⟨x, c, e, hx, hc, -, hlt, rfl⟩ := addRecord_ok hr
  have hb := hne x c hx hc
  refine ⟨fun a hlo hhi => ?_, rfl⟩
  exact Device.agreeOff_putRecord_block fs.dev x.inode.block ino hlt.1 hlt.2 a (by omega)

theorem spares_inodeSave (h3 : 3 ≤ b) :
    wlp intr (simplefsInodeSave p) (fun _ fs' => SparesBlock fs fs' b) fs :=
  wlp_simplefsInodeSave ⟨fun _ _ _ => rfl, rfl⟩ fun _ _ hr => sparesBlock_saveInode h3 hr

/-- `simplefs_inode_add` changes no dentry either. -/
theorem spares_inodeAdd (h3 : 3 ≤ b) {v : SfsInode} :
    wlp intr (simplefsInodeAdd v)
      (fun _ fs' => SparesBlock fs fs' b ∧ fs'.dentries = fs.dentries) fs := by
  have hskip : SparesBlock fs fs b ∧ fs.dentries = fs.dentries := ⟨⟨fun _ _ _ => rfl, rfl⟩, rfl⟩
  exact wlp_simplefsInodeAdd hskip fun i hi _ => ⟨sparesBlock_added h3 hi, rfl⟩

/-- The dentry that a create has attached, on a block that it has not touched. -/
def AttachedOn (fs fs' : Fs) (p : Nat) (name : Name) (mode : BitVec 16) : Prop :=
  ∃ b ino, freeBlockScan fs.dev.freeBlocks = some b ∧
    fs'.dentries fs.next = some ⟨p, name, newInode mode ino b, none, true⟩ ∧
    ∀ j, j < recordsPerBlock → fs'.dev.record b j = fs.dev.record b j

/-- No directory with a cache has the block that is handed out next. -/
theorem Fs.Tidy.block_ne (h : fs.Tidy n) (hb : freeBlockScan fs.dev.freeBlocks = some b)
    {x : Dentry} {c : DirCache} (hx : fs.dentries p = some x) (hc : x.fsdata = some c) :
    x.inode.block ≠ b := by
  rintro rfl
  obtain ⟨h3, -, ha⟩ := h.device.high.scan_some hb
  exact (h.housed p x hx (Or.inr (h.cached p x c hx hc))).2 h3 ha

/-- **A create that succeeds** leaves its block as it was. -/
theorem wlp_create_attachedOn (h : fs.Tidy n) (p : Nat) (name : Name) (mode : BitVec 16) :
    wlp intr (simplefsCreateFsObject p name mode)
      (fun ret fs' => ret = 0 → AttachedOn fs fs' p name mode) fs := by
  refine wlp_createObject
    (A := fun _ b fs2 => freeBlockScan fs.dev.freeBlocks = some b ∧ SparesBlock fs fs2 b ∧
      fs2.dentries = fs.dentries)
    (R := fun ret fs' => ret = 0 → AttachedOn fs fs' p name mode)
    (fun ret hne h0 => absurd h0 hne) (fun ino b hb => ?_) ?_
  · have h3 : 3 ≤ b := (freeBlockScan_some hb).1
    refine Prog.wlp_mono (spares_inodeAdd h3) ?_
    rintro _ fs2 ⟨hs, hd⟩
    exact ⟨hb, (sparesBlock_taken h3).trans hs, hd⟩
  · rintro ino b fs2 ⟨hb, hs, hd⟩
    have hne : ∀ x c, fs2.dentries p = some x → x.fsdata = some c → x.inode.block ≠ b := by
      intro x c hx hc
      rw [hd] at hx
      exact h.block_ne hb hx hc
    refine wlp_createTail (J := fun fs' => SparesBlock fs fs' b)
      (K := fun fs' => SparesBlock fs fs' b) (M := fun _ fs' => SparesBlock fs fs' b)
      ?_ ?_ ?_ ?_ ?_ ?_
    · exact fun _ _ hr => hs.trans (sparesBlock_addRecord hne hr)
    · exact fun _ _ _ h0 => absurd h0 (by decide)
    · exact fun _ _ _ h4 hr => h4.trans (sparesBlock_countChild hr)
    · exact fun _ h5 => Prog.wlp_mono (spares_inodeSave (freeBlockScan_some hb).1)
        fun _ _ h6 => h5.trans h6
    · exact fun ret _ _ hret h0 => absurd h0 hret
    · intro fs6 h6 _
      refine ⟨b, ino, hb, ?_, fun j hj => h6.record hj⟩
      rw [Fs.dAdd_dentries, if_pos h6.next.symm]

end

/-! ## 3. When a new directory is empty -/

variable {dev dev' : Device} {size : Nat} {lk : LockState Lock} {evs : List Event} {fs fs' : Fs}
  {p : Nat} {name : Name} {mode : BitVec 16} {intr : Site → Bool}

/-- A new directory in a tidy filesystem is empty exactly when the block that was handed out had no
live record in it. -/
theorem Fs.Tidy.mkdir_empty_iff (h : fs.Tidy 33)
    (hret : (run intr (simplefsMkdir p name mode) lk fs).1 = .returned 0 fs') :
    BornEmpty fs' fs.next ↔ fs.NextBlockClean := by
  obtain ⟨b, ino, hb, hd, hrec⟩ := Prog.wlp_run
    (wlp_create_attachedOn h p name (0x4000 ||| mode)) (Prod.ext hret rfl) rfl
  have hblock : (newInode (0x4000 ||| mode) ino b).block = b := by
    have hb64 : b < 64 := (freeBlockScan_some hb).2.1
    simp only [newInode, SfsInode.block, BitVec.toNat_ofNat]
    omega
  rw [bornEmpty_iff_records hd rfl rfl, hblock]
  constructor
  · intro h b' hb' j hj
    cases hb.symm.trans hb'
    rw [← hrec j hj]
    exact h j hj
  · intro h j hj
    rw [hrec j hj]
    exact h b hb j hj

/-- **When a new directory is empty**, in every run on a device that held anything behind its first
four blocks. -/
theorem History.bornEmpty_iff (hz : dev.ZeroStart) (hmk : mkfs dev size = (0, dev'))
    (hr : History ⟨LockState.free, .offline dev'⟩ evs ⟨lk, .mounted fs⟩)
    (hret : (run intr (simplefsMkdir p name mode) lk fs).1 = .returned 0 fs') :
    BornEmpty fs' fs.next ↔ fs.NextBlockClean :=
  (History.tidy_mkfs hz hmk hr).mkdir_empty_iff hret

/-! ### The first directory of a new image -/

namespace Fs.OpenDir

variable {x : Dentry} {c : DirCache} {e : CacheEntry} {i : Nat}

/-- **A create that nothing stops succeeds.** -/
theorem run_succeeds (hd : fs.OpenDir p x c) (hl : ∀ l, lk.held l = false)
    (hno : ¬ fs.TurnedAway mode quiet) (he : freeCacheEntryGet c = some e)
    (hlt : e.entryNo < recordsPerBlock ∧ 264 * e.entryNo + name.bytes.length + 1 ≤ 4096) :
    ∃ fs', (run quiet (simplefsCreateFsObject p name mode) lk fs).1 = .returned 0 fs' := by
  obtain ⟨i, hi⟩ := hd.number
  obtain ⟨b, lk', fs1, ht, hrun⟩ := hd.run_takesOver hl hno hi
  have hx : fs1.dentries p = some x := by rw [ht.dentries, hd.dentry]
  obtain ⟨fs2, hfs2⟩ : ∃ fs2, fs2 = fs1.counted p x c e name (newInode mode (i + 1) b).inodeNo :=
    ⟨_, rfl⟩
  obtain ⟨k, hk, hkno⟩ := ht.found
  have hslot : (fs2.dev.slot k).inodeNo = x.inode.inodeNo := by
    rw [hfs2, Fs.SoundAt.slot_counted hd.block hlt hk, hkno]
  have hx2 : ∃ c', fs2.dentries p = some (x.withChild c') := by
    rw [hfs2]
    exact ⟨_, (Fs.setDentry_dentries _ _ _ _).trans (if_pos rfl)⟩
  obtain ⟨c', hx2⟩ := hx2
  rw [hrun, run_createTail_room hx hd.fsdata he hlt ht.mgmt ht.sb, ← hfs2]
  rcases firstSlot_or_absent fs2.dev.slot x.inode.inodeNo with ⟨j, hj⟩ | hnone
  · have hj' : FirstSlot fs2.dev.slot (x.withChild c').inode.inodeNo j := hj
    rw [saveInode_found hx2 hj']
    exact ⟨_, rfl⟩
  · exact absurd hslot (hnone k hk)

end Fs.OpenDir

/-- A device on which everything but the first four blocks was in use. -/
def usedMem : ByteMem := fun a => if a < 16384 then 0 else 1

theorem usedMem_zeroStart : Device.ZeroStart usedMem := fun _ ha => if_pos ha

/-- The image of such a device, mounted, ... -/
def mountedOn (dev : Device) : Fs := mountedFs (formatDevice dev) 7#64 0#64

/-- ... and its root listed: the dentry ... -/
def openRoot (dev : Device) : Dentry :=
  { freshRoot with fsdata := some (dirCacheOf (mountedOn dev) freshRoot) }

/-- ... and the state. -/
def listedOn (dev : Device) : Fs := (mountedOn dev).setDentry 0 (openRoot dev)

theorem mountedOn_root : (mountedOn dev).DirAt 0 freshRoot := by
  refine ⟨?_, rfl, rfl⟩
  rw [mountedOn, mountedFs, formatDevice.slot_zero]
  rfl

theorem History.listedOn (hz : dev.ZeroStart) :
    History ⟨LockState.free, .offline (formatDevice dev)⟩
      [.mount 0#64, .call (.iterate 0 0) quiet] ⟨LockState.free, .mounted (listedOn dev)⟩ := by
  have hslot : ∀ i, i < slotsPerBlock → (formatDevice dev).slot i = freshDevice.slot i := by
    intro i hi
    have hi' : i < 128 := hi
    rcases Nat.lt_or_ge i 2 with h2 | h2
    · rcases freshDevice.lt_two_cases h2 with rfl | rfl
      · rw [formatDevice.slot_zero, freshDevice.slot_zero]
      · rw [formatDevice.slot_one, freshDevice.slot_one]
    · rw [formatDevice.slot_rest dev h2 hi, freshDevice.slot_rest h2 hi]
      exact inodeAt_of_zero fun a _ ha => hz a (by omega)
  have hmap : fillImap (formatDevice dev).slot = .ok 7#64 :=
    (fillImap_congr fun i hi => by rw [hslot i hi]).trans freshDevice.store.fillImap
  have hmount : Event.apply (.mount 0#64) ⟨LockState.free, .offline (formatDevice dev)⟩ =
      some ⟨LockState.free, .mounted (mountedOn dev)⟩ := by
    simp only [Event.apply, run_fillSuper_of_fillImap (formatDevice.formatted dev) hmap 0#64
      (LockState.free_held _), if_true]
    rfl
  have hrun : run quiet (Op.iterate 0 0).code LockState.free (mountedOn dev) =
      (.returned () (Simplefs.listedOn dev), LockState.free) := run_iterate mountedOn_root.1 0
  refine .snoc (.snoc .nil (fun op intr fs hev => ?_) hmount) (fun op intr fs hev hm => ?_)
    (Event.apply_call hrun)
  · cases hev
  · cases hev
    cases hm
    exact ⟨_, mountedOn_root⟩

theorem listedOn_freeBlocks : (listedOn dev).dev.freeBlocks = initialFreeBlocks :=
  formatDevice.freeBlocks dev

theorem openRoot_block : (openRoot dev).inode.block = 2 := by
  have hinode : (openRoot dev).inode = rootInode := rfl
  rw [hinode]
  decide

theorem listedOn_openDir : (listedOn dev).OpenDir 0 (openRoot dev)
    (dirCacheOf (mountedOn dev) freshRoot) where
  dentry := (Fs.setDentry_dentries _ _ _ _).trans (if_pos rfl)
  fsdata := rfl
  agrees := by
    have hfd : freshRoot.fsdata = none := rfl
    rw [dirCacheOf, hfd, Option.getD_none]
    exact dirCacheBuild_agrees _
  block := Nat.le_of_eq openRoot_block.symm
  fresh := by
    have hnext : (listedOn dev).next = 1 := rfl
    rw [hnext, listedOn, Fs.setDentry_dentries, if_neg (by decide)]
    cases h : (mountedOn dev).dentries 1 with
    | none => rfl
    | some y => exact absurd (mountedFs_dentries h).1 (by decide)
  number := by
    have hffz : ffz 7#64 = some 3 := by decide
    exact ⟨2, hffz⟩
  found := by
    have hslot : (listedOn dev).dev.slot 0 = rootInode := formatDevice.slot_zero dev
    have hffz : ffz 7#64 ≠ some 1 := by decide
    refine ⟨0, by decide, ?_, hffz⟩
    rw [hslot]
    rfl

/-- A directory is made in it. -/
theorem run_mkdir_listedOn (hz : dev.ZeroStart) : ∃ fs',
    (run quiet (simplefsMkdir 0 newName 0o755) LockState.free (listedOn dev)).1 =
      .returned 0 fs' := by
  have hcount : (listedOn dev).dev.inodesCount = 2#64 := formatDevice.inodesCount dev
  have hno : ¬ (listedOn dev).TurnedAway (0x4000 ||| 0o755) quiet := by
    rw [Fs.TurnedAway, not_or, not_or, not_not, listedOn_freeBlocks]
    refine ⟨⟨rfl, rfl, ?_, Or.inl (by decide)⟩, Bool.false_ne_true, by decide⟩
    rw [hcount]
    decide
  have hone : (listedOn dev).dev.record 2 1 = DirRecord.zero :=
    (formatDevice.record_rest dev (by omega) (by omega)).trans
      (recordAt_of_zero fun a _ ha => hz a (by omega))
  have hroom : (dirCacheOf (mountedOn dev) freshRoot).free ≠ [] := by
    refine listedOn_openDir.agrees.free_ne_nil_iff.mpr ⟨1, by decide, ?_⟩
    rw [openRoot_block, hone, DirRecord.inodeNo_zero]
  obtain ⟨e, l, hel⟩ := List.exists_cons_of_ne_nil hroom
  have he : freeCacheEntryGet (dirCacheOf (mountedOn dev) freshRoot) = some e := by
    rw [freeCacheEntryGet, hel, List.head?_cons]
  have h15 : e.entryNo < 15 := (listedOn_openDir.free_entry he).1
  have hlen : newName.bytes.length = 3 := rfl
  exact listedOn_openDir.run_succeeds (fun _ => rfl) hno he ⟨h15, by omega⟩

/-- The block that this directory gets. -/
theorem listedOn_scan : freeBlockScan (listedOn dev).dev.freeBlocks = some 4 := by
  rw [listedOn_freeBlocks]
  decide

/-- What is in it has been there before `mkfs`. -/
theorem record_listedOn (j : Nat) : (listedOn dev).dev.record 4 j = dev.record 4 j :=
  recordAt_congr fun a h _ =>
    formatDevice.eq_old dev (by omega) (by omega) (by omega) (by omega)

/-- On a device of zeros the first directory is empty. -/
theorem History.bornEmpty_iff_zeroed : ∃ fs',
    (run quiet (simplefsMkdir 0 newName 0o755) LockState.free (Simplefs.listedOn zeroMem)).1 =
      .returned 0 fs' ∧ BornEmpty fs' (Simplefs.listedOn zeroMem).next := by
  have hz : Device.ZeroStart zeroMem := fun _ _ => rfl
  obtain ⟨fs', hret⟩ := run_mkdir_listedOn hz
  refine ⟨fs', hret, (History.bornEmpty_iff hz mkfs_fresh (History.listedOn hz) hret).mpr
    fun b hb j _ => ?_⟩
  cases listedOn_scan.symm.trans hb
  rw [record_listedOn]
  exact DirRecord.inodeNo_zero

/-- **On a device that was in use** it is not, though `mkfs` and the `mkdir` both report success. -/
theorem usedMem_not_bornEmpty : ∃ dev' fs', mkfs usedMem 143360 = (0, dev') ∧
    History ⟨LockState.free, .offline dev'⟩ [.mount 0#64, .call (.iterate 0 0) quiet]
      ⟨LockState.free, .mounted (listedOn usedMem)⟩ ∧
    (run quiet (simplefsMkdir 0 newName 0o755) LockState.free (listedOn usedMem)).1 =
      .returned 0 fs' ∧ ¬ BornEmpty fs' (listedOn usedMem).next := by
  obtain ⟨fs', hret⟩ := run_mkdir_listedOn usedMem_zeroStart
  have hmk : mkfs usedMem 143360 = (0, formatDevice usedMem) := mkfs_room (by omega)
  have hr := History.listedOn usedMem_zeroStart
  refine ⟨_, fs', hmk, hr, hret, fun hborn => ?_⟩
  have htidy := History.tidy_mkfs usedMem_zeroStart hmk hr
  have hrec := (htidy.mkdir_empty_iff hret).mp hborn 4 listedOn_scan 0 (by decide)
  rw [record_listedOn] at hrec
  exact absurd hrec (by decide)

end Simplefs
