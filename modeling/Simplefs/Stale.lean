/-
# Writes through the handle of an unlinked file

A handle that is still open keeps the inode of an unlinked file alive in memory.  Its data block
is never given to anybody else: `simplefs_sb_get_a_freeblock` only ever clears bits of the
free-block word, so what nobody has and what is not up for allocation is lost for good.  Its
inode number is: `simplefs_inode_del` clears the bit of the bitmap, and the next create takes
the number.  `simplefs_inode_save` knows the slot by the number alone, so a write through the
old handle then overwrites the slot of the new file.
-/
import Simplefs.Frame

namespace Simplefs

open Prog (run LockState)

/-! ## 1. Lost blocks -/

/-- Block `b` belongs to no inode of the store, and is not up for allocation either. -/
structure Fs.Lost (fs : Fs) (b : Nat) : Prop where
  ge : 2 ≤ b
  le : b ≤ 34
  taken : 3 ≤ b → ¬ Avail fs.dev.freeBlocks b
  unused : ∀ i, fs.dev.Live i → (fs.dev.slot i).block ≠ b

/-- A block stays lost if none is released, and an inode that comes has a block that was up for
allocation. -/
theorem Fs.Lost.keep {fs fs' : Fs} {b : Nat} (h : fs.Lost b)
    (havail : 3 ≤ b → Avail fs'.dev.freeBlocks b → Avail fs.dev.freeBlocks b)
    (hslot : ∀ i, fs'.dev.Live i → fs.dev.Live i ∧ (fs'.dev.slot i).block = (fs.dev.slot i).block ∨
      3 ≤ (fs'.dev.slot i).block ∧ Avail fs.dev.freeBlocks (fs'.dev.slot i).block) :
    fs'.Lost b := by
  refine ⟨h.ge, h.le, fun h3 ha => h.taken h3 (havail h3 ha), fun i hi heq => ?_⟩
  rcases hslot i hi with ⟨hl, hb⟩ | ⟨h3, ha⟩
  · exact h.unused i hl (hb ▸ heq)
  · rw [heq] at h3 ha
    exact h.taken h3 ha

theorem Fs.Lost.of_dev {fs fs' : Fs} {b : Nat} (h : fs.Lost b) (hdev : fs'.dev = fs.dev) :
    fs'.Lost b := by
  refine h.keep (fun _ ha => hdev ▸ ha) fun i hi => Or.inl ?_
  rw [hdev] at hi ⊢
  exact ⟨hi, rfl⟩

section Operations

variable {fs : Fs} {p d e : Nat} {x y : Dentry} {c : DirCache} {entry : CacheEntry} {name : Name}
  {mode : BitVec 16} {i b n : Nat}

/-- A create takes a block that was up for allocation. -/
theorem Fs.SoundAt.lost_created (hs : fs.SoundAt p x c) (h : fs.Lost n)
    (hl : fs.dev.Live x.slot) (hp : Picked fs c name i b entry) (mode : BitVec 16) :
    (created fs p x c entry name mode i b).Lost n := by
  have hlt := hs.room_of_keeps hp.entry hp.keeps
  have hdisk := hs.disk hl
  obtain ⟨hb3, hb34, hba⟩ := hs.store.high.scan_some hp.block
  refine h.keep (fun h3 ha => ?_) fun k hk => ?_
  · rw [(hs.counts_created mode i b hlt).2, avail_takeBlock hb3 hb34 h3 h.le] at ha
    exact ha.1
  have hslot : (created fs p x c entry name mode i b).dev.slot k = _ := hs.slot_created hlt hk.1
  by_cases hkx : k = x.slot
  · rw [hkx] at hslot ⊢
    rw [hslot, if_pos rfl, hdisk]
    exact Or.inl ⟨hl, rfl⟩
  by_cases hki : k = i
  · have hb : (newInode mode (i + 1) b).block = b := by
      change (BitVec.ofNat 64 b).toNat = b
      rw [BitVec.toNat_ofNat]
      omega
    rw [hslot, if_neg hkx, if_pos hki, hb]
    exact Or.inr ⟨hb3, hba⟩
  · rw [if_neg hkx, if_neg hki] at hslot
    exact Or.inl ⟨(Device.live_congr hslot).mp hk, by rw [hslot]⟩

/-- An inode that is there after an unlink was there before, with its block. -/
theorem Fs.Unlinkable.live_unlinked (hu : fs.Unlinkable e y x c) (hi : FsInv fs Shadow.none)
    (h15 : entry.entryNo < 15) {k : Nat} (hk : (fs.unlinked e y x c entry).dev.Live k) :
    k ≠ y.slot ∧ fs.dev.Live k ∧
      ((fs.unlinked e y x c entry).dev.slot k).block = (fs.dev.slot k).block := by
  have hslot := hu.slot_unlinked hi h15 hk.lt
  by_cases hky : k = y.slot
  · rw [if_pos hky] at hslot
    exact absurd (congrArg SfsInode.inodeNo hslot) hk.2
  rw [if_neg hky] at hslot
  by_cases hkx : k = x.slot
  · obtain ⟨hd, hb⟩ := hi.dir hu.dir
    rw [hkx] at hslot ⊢
    rw [if_pos rfl] at hslot
    refine ⟨Ne.symm (hu.slot_ne hi), hd.1, ?_⟩
    rw [hslot, hb]
    rfl
  · rw [if_neg hkx] at hslot
    exact ⟨hky, (Device.live_congr hslot).mp hk, by rw [hslot]⟩

theorem Fs.Unlinkable.freeBlocks_unlinked (hu : fs.Unlinkable e y x c)
    (hi : FsInv fs Shadow.none) (h15 : entry.entryNo < 15) :
    (fs.unlinked e y x c entry).dev.freeBlocks = fs.dev.freeBlocks := by
  have hdel : (fs.unlinked e y x c entry).dev.freeBlocks =
      (fs.unlinkedRecord y.parent x c entry true).dev.freeBlocks := Device.freeBlocks_delAt _ _
  exact hdel.trans (hu.counts_unlinkedRecord hi h15 true).2

/-- **The block of an unlinked file is lost.** -/
theorem Fs.Unlinkable.lost (hu : fs.Unlinkable e y x c) (hi : FsInv fs Shadow.none)
    (h15 : entry.entryNo < 15) : (fs.unlinked e y x c entry).Lost y.inode.block := by
  obtain ⟨hl, -, hs⟩ := hi.live e y hu.cur
  obtain ⟨h2, h34⟩ := hi.store.block y.slot hl
  rw [hs.block]
  refine ⟨h2, h34, fun h3 ha => ?_, fun k hk heq => ?_⟩
  · rw [hu.freeBlocks_unlinked hi h15] at ha
    exact (hi.store.avail _ h3 h34 ha).2.1 y.slot hl rfl
  · obtain ⟨hky, hk', hb⟩ := hu.live_unlinked hi h15 hk
    rw [hb] at heq
    exact hky (hi.store.block_inj k y.slot hk' hl heq)

/-- An unlink gives nothing away. -/
theorem Fs.Unlinkable.lost_unlinked (hu : fs.Unlinkable e y x c) (hi : FsInv fs Shadow.none)
    (h15 : entry.entryNo < 15) (h : fs.Lost n) : (fs.unlinked e y x c entry).Lost n :=
  h.keep (fun _ ha => hu.freeBlocks_unlinked hi h15 ▸ ha)
    fun _ hk => Or.inl (hu.live_unlinked hi h15 hk).2

/-- A write to a linked file gives nothing away either. -/
theorem FsInv.lost_written (hi : FsInv fs Shadow.none) (hx : fs.Current Shadow.none d x)
    {ppos : Nat} {data : List UInt8} (hlen : ppos + data.length ≤ 4096) (copied : Nat)
    (h : fs.Lost n) : (fs.written d x ppos data copied).Lost n := by
  obtain ⟨hl, -, hsame⟩ := hi.live d x hx
  have h2 := (hi.store.block x.slot hl).1
  rw [← hsame.block] at h2
  have hagree := Device.agreeOff_putData fs.dev x.inode.block ppos (copiedBytes data copied)
  rw [length_copiedBytes] at hagree
  have hput : ∀ k, k < 128 →
      (fs.dev.putData x.inode.block ppos (copiedBytes data copied)).slot k = fs.dev.slot k :=
    fun k hk => Device.slot_congr hagree (by omega)
  have hslot : ∀ k, k < 128 →
      ((fs.written d x ppos data copied).dev.slot k).Same (fs.dev.slot k) := by
    intro k hk
    rw [Fs.dev_written]
    split
    · rw [hput k hk]
      exact .refl _
    · rw [Device.slot_setSlot]
      split
      · rename_i hkx
        rw [hkx]
        exact ⟨hsame.mode, hsame.inodeNo, hsame.dataBlockNumber⟩
      · rw [hput k hk]
        exact .refl _
  have hfree : (fs.written d x ppos data copied).dev.freeBlocks = fs.dev.freeBlocks := by
    rw [Fs.dev_written]
    split
    · exact Device.freeBlocks_congr hagree (by omega)
    · rw [Device.freeBlocks_setSlot]
      exact Device.freeBlocks_congr hagree (by omega)
  refine h.keep (fun _ ha => hfree ▸ ha) fun k hk => Or.inl ?_
  have hs := hslot k hk.lt
  exact ⟨(Device.live_congr_no hs.inodeNo).mp hk, hs.block⟩

end Operations

/-! ## 2. Unlinked dentries -/

/-- Dentry `y` stands for a file that has been unlinked: its block is lost, and its number is
the number of a slot. -/
structure Fs.Orphaned (fs : Fs) (y : Dentry) : Prop where
  lost : fs.Lost y.inode.block
  number : y.inode.inodeNo = inoOf y.slot
  lt : y.slot < 63

/-- Every unlinked dentry stands for such a file. -/
def Fs.StaleOk (fs : Fs) : Prop :=
  ∀ e y, fs.dentries e = some y → y.linked = false → fs.Orphaned y

/-- Whatever keeps the lost blocks and makes no dentry an unlinked one. -/
theorem Fs.StaleOk.keep {fs fs' : Fs} (h : fs.StaleOk) (hlost : ∀ b, fs.Lost b → fs'.Lost b)
    (hold : ∀ e y, fs'.dentries e = some y → y.linked = false →
      ∃ z, fs.dentries e = some z ∧ z.linked = false ∧ y.inode.Same z.inode) : fs'.StaleOk := by
  intro e y hy hl
  obtain ⟨z, hz, hlz, hs⟩ := hold e y hy hl
  obtain ⟨hb, hno, hlt⟩ := h e z hz hlz
  have hslot : y.slot = z.slot := congrArg slotIndex hs.inodeNo
  exact ⟨hs.block ▸ hlost _ hb, by rw [hs.inodeNo, hslot, hno], hslot ▸ hlt⟩

/-- ... and changes only linked dentries into linked ones. -/
theorem Fs.StaleOk.keep_linked {fs fs' : Fs} (h : fs.StaleOk)
    (hlost : ∀ b, fs.Lost b → fs'.Lost b)
    (hold : ∀ e y, fs'.dentries e = some y → y.linked = true ∨ fs.dentries e = some y) :
    fs'.StaleOk := by
  refine h.keep hlost fun e y hy hl => ?_
  rcases hold e y hy with hl' | hy'
  · exact nomatch hl.symm.trans hl'
  · exact ⟨y, hy', hl, .refl _⟩

section Calls

variable {fs fs' : Fs}

/-- A create. -/
theorem FsInv.create_staleOk {p : Nat} {x : Dentry} {name : Name} {mode : BitVec 16}
    (hi : FsInv fs Shadow.none) (hx : fs.DirAt p x)
    (hdef : fs.HasFreeEntry p ∧ name.bytes.length ≤ 255)
    (hrun : (run quiet (discard (simplefsCreateFsObject p name mode)) LockState.free fs).1 =
      .returned () fs') (h : fs.StaleOk) : fs'.StaleOk := by
  rcases hi.created_of_run hx hdef hrun with rfl | ⟨c, i, b, e, hs, hp, rfl⟩
  · exact h
  · have hlive := (hi.dir hx).1.1
    refine h.keep_linked (fun n hn => hs.lost_created hn hlive hp mode) fun d y hy => ?_
    -- the new dentry, the directory's, or another one
    rw [Fs.SoundAt.created, Fs.dAdd_dentries] at hy
    split at hy
    · cases hy
      exact Or.inl rfl
    · rw [Fs.counted_dentries] at hy
      split at hy
      · cases hy
        exact Or.inl hx.2.1
      · exact Or.inr hy

/-- An unlink makes one more. -/
theorem FsInv.unlink_staleOk {e : Nat} {y x : Dentry} {c : DirCache} {entry : CacheEntry}
    (hi : FsInv fs Shadow.none) (hu : fs.Unlinkable e y x c) (h15 : entry.entryNo < 15)
    (h : fs.StaleOk) : (fs.unlinked e y x c entry).StaleOk := by
  intro d z hz hl
  rw [Fs.unlinked, Fs.setDentry_dentries] at hz
  split at hz
  · cases hz
    have hlive := (hi.live e y hu.cur).1
    have hno : y.inode.inodeNo = inoOf y.slot := hi.inodeNo_eq hu.cur
    exact ⟨hu.lost hi h15, hno, (hi.store.slots _ hlive).2⟩
  have hz' : (fs.unrecorded y.parent x c entry).dentries d = some z := hz
  rw [Fs.unrecorded, Fs.setDentry_dentries] at hz'
  split at hz'
  · cases hz'
    cases hl.symm.trans hu.dir.2.1
  · obtain ⟨hb, hno, hlt⟩ := h d z hz' hl
    exact ⟨hu.lost_unlinked hi h15 hb, hno, hlt⟩

/-- **Every defined call.** -/
theorem FsInv.call_staleOk {op : Op} {lk : LockState Lock} (hi : FsInv fs Shadow.none)
    (ha : op.Allowed fs) (hdef : op.Defined fs)
    (hrun : run quiet op.code LockState.free fs = (.returned () fs', lk)) (h : fs.StaleOk) :
    fs'.StaleOk := by
  cases op with
  | iterate d pos =>
    obtain ⟨x, hx⟩ := ha
    rw [run_iterate hx.1 pos] at hrun
    cases hrun
    refine h.keep_linked (fun _ hn => hn.of_dev rfl) fun e y hy => ?_
    rw [Fs.setDentry_dentries] at hy
    split at hy
    · cases hy
      exact Or.inl hx.2.1
    · exact Or.inr hy
  | lookup p name =>
    obtain ⟨x, c, hx, hc⟩ := hdef
    rw [run_lookup hx hc name rfl (hi.lookup_lt hx hc)] at hrun
    cases hrun
    split
    · refine h.keep_linked (fun _ hn => hn.of_dev rfl) fun e y hy => ?_
      rw [Fs.dAdd_dentries] at hy
      split at hy
      · cases hy
        exact Or.inl rfl
      · exact Or.inr hy
    · exact h
  | create p name mode =>
    obtain ⟨x, hx, -⟩ := ha
    exact hi.create_staleOk hx hdef (congrArg Prod.fst hrun) h
  | mkdir p name mode =>
    obtain ⟨x, hx, -⟩ := ha
    exact hi.create_staleOk hx hdef (congrArg Prod.fst hrun) h
  | unlink e =>
    obtain ⟨y, x, c, entry, hu, -, h15, rfl⟩ := hi.unlinked_of_run ha hdef hrun
    exact hi.unlink_staleOk hu h15 h
  | read d ppos len userOk =>
    obtain ⟨rfl, -⟩ := run_read hrun
    exact h
  | write d ppos data copied =>
    obtain ⟨x, hx, hreg⟩ := ha
    have hl := hdef.2 x hx
    have hcur : fs.Current Shadow.none d x := ⟨hx, hl, id⟩
    have hend := (hi.run_write hcur hreg hdef.1 copied).1
    rw [hend] at hrun
    cases hrun
    refine h.keep_linked (fun _ => hi.lost_written hcur hdef.1 copied) fun e y hy => ?_
    unfold Fs.written at hy
    split at hy
    · exact Or.inr hy
    · rw [Fs.resaved, Fs.setDentry_dentries] at hy
      split at hy
      · cases hy
        exact Or.inl hl
      · exact Or.inr hy
  | release d =>
    cases hrun
    refine h.keep_linked (fun _ hn => hn.of_dev rfl) fun e y hy => Or.inr ?_
    simp only [Function.update_apply] at hy
    split at hy
    · cases hy
    · exact hy

end Calls

/-! ## 3. A write through a stale handle -/

/-- The inode store's slot and the data of every file that is linked are as they were.  Between
operations the inodes in the store are those of the linked files. -/
def Fs.LinkedUntouched (fs fs' : Fs) : Prop :=
  ∀ i, fs.dev.Live i → fs'.dev.slot i = fs.dev.slot i ∧
    ∀ off, off < 4096 →
      fs'.dev.byte (fs.dev.slot i).block off = fs.dev.byte (fs.dev.slot i).block off

/-- The write ends inside its block, and either it does not get as far as the search of
`simplefs_inode_save`, or no file has the number of the handle's inode (nor has the word past
the inode store's buffer). -/
def Fs.StaleSafe (fs : Fs) (x : Dentry) (ppos : Nat) (data : List UInt8) (copied : Nat)
    (intr : Site → Bool) : Prop :=
  Fits ppos data ∧ (copied < data.length ∨ intr .write = true ∨ intr .save = true ∨
    ¬ fs.dev.Live x.slot ∧ fs.past ≠ x.inode.inodeNo)

section Write

variable {fs fs' : Fs} {d ppos copied : Nat} {x : Dentry} {data : List UInt8}
  {intr : Site → Bool} {lk : LockState Lock}

/-- The slots and the words of the superblock, when only a data block is written to. -/
theorem FsInv.write_lost {dev' : Device} {b lo hi' : Nat} (hi : FsInv fs Shadow.none)
    (h : fs.Lost b) (hagree : AgreeOff lo hi' fs.dev dev') (hlo : 4096 * b ≤ lo)
    (hhi : hi' ≤ 4096 * b + 4096) : FsInv { fs with dev := dev' } Shadow.none := by
  have h2 := h.ge
  have hslot : ∀ k, k < 128 → dev'.slot k = fs.dev.slot k := fun k hk =>
    Device.slot_congr hagree (by omega)
  -- a record of a directory is in another block
  have hrec : ∀ i j, fs.dev.Live i → j < 15 →
      dev'.record (fs.dev.slot i).block j = fs.dev.record (fs.dev.slot i).block j := by
    intro i j hl hj
    refine Device.record_congr hagree ?_
    have := h.unused i hl
    omega
  have hstore : StoreInv dev' fs.imap fun _ => False := by
    refine hi.store.congr_quiet (Device.formatted_congr hagree (by omega) hi.store.formatted)
      (fun k hk => by rw [hslot k hk]; exact ⟨rfl, rfl⟩)
      (Device.inodesCount_congr hagree (by omega)) (Device.freeBlocks_congr hagree (by omega)) ?_
    intro b' h3 ha hunused hz
    refine Device.zeroBlock_congr hagree ?_ hz
    have hne : b' ≠ b := by
      rintro rfl
      exact h.taken h3 (ha.resolve_right id)
    omega
  have htree : TreeInv dev' fun _ => False := by
    refine hi.tree.congr (fun k hk => by rw [hslot k hk]; exact ⟨rfl, rfl, rfl⟩) ?_ fun _ => Iff.rfl
    exact fun i j hl _ hj => hrec i j hl hj
  exact hi.setDev hstore htree (fun k hk ho => ⟨hslot k hk.lt, ho⟩)
    (fun i j hd hj => hrec i j hd.1 hj)
    fun b' ht => (hi.torn b' ht).congr_slots (Device.freeBlocks_congr hagree (by omega)) hslot

/-- Nobody has a lost block. -/
theorem Fs.Lost.ofFile {b : Nat} (h : fs.Lost b) : fs.dev.OfFile (fun _ => False) b :=
  ⟨h.ge, h.taken, id, fun i hi => h.unused i hi.1⟩

/-- What a write of data into a lost block leaves. -/
structure CopiedAway (fs fs' : Fs) : Prop where
  inv : FsInv fs' Shadow.none
  stale : fs'.StaleOk
  untouched : fs.LinkedUntouched fs'
  live : ∀ i, fs'.dev.Live i ↔ fs.dev.Live i

/-- The bytes that a write which fits may change. -/
theorem Fs.agreeOff_copiedIn (fs : Fs) (x : Dentry) (copied : Nat) (hfit : Fits ppos data) :
    ∃ lo hi,
    AgreeOff lo hi fs.dev (fs.copiedIn x ppos data copied).dev ∧ 4096 * x.inode.block ≤ lo ∧
      hi ≤ 4096 * x.inode.block + 4096 := by
  rcases hfit with h0 | hlen
  · refine ⟨4096 * x.inode.block, 4096 * x.inode.block, ?_, Nat.le_refl _, by omega⟩
    rw [dev_copiedIn_nil h0]
    exact fun _ _ => rfl
  · have hagree := Device.agreeOff_putData fs.dev x.inode.block ppos (copiedBytes data copied)
    rw [length_copiedBytes] at hagree
    exact ⟨_, _, hagree, by omega, by omega⟩

/-- The data goes into a block that nobody has. -/
theorem FsInv.copiedAway (hi : FsInv fs Shadow.none) (h : fs.StaleOk)
    (hx : fs.dentries d = some x) (hl : x.linked = false) (hfit : Fits ppos data)
    (copied : Nat) : CopiedAway fs (fs.copiedIn x ppos data copied) := by
  have hlost := (h d x hx hl).lost
  obtain ⟨lo, hi', hagree, hlo, hhi⟩ := fs.agreeOff_copiedIn x copied hfit
  have h2 := hlost.ge
  have hslot : ∀ k, k < 128 → (fs.copiedIn x ppos data copied).dev.slot k = fs.dev.slot k :=
    fun k hk => Device.slot_congr hagree (by omega)
  have hlive : ∀ k, (fs.copiedIn x ppos data copied).dev.Live k ↔ fs.dev.Live k := fun k =>
    and_congr_right fun hk => by rw [hslot k hk]
  have h1 := hi.write_lost hlost hagree hlo hhi
  have hfile : (fs.copiedIn x ppos data copied).dev.OfFile (fun _ => False) x.inode.block :=
    hlost.ofFile.congr_slots (Device.freeBlocks_congr hagree (by omega)) hslot
  refine ⟨h1.setTorn_tear hfile fun b hb => fs.tear_ne _ hb, ?_,
    fun k hk => ⟨hslot k hk.lt, fun off hoff => ?_⟩, hlive⟩
  · refine h.keep_linked (fun n hn => hn.keep (fun _ ha => ?_) fun k hk => Or.inl ⟨?_, ?_⟩)
      fun e y hy => Or.inr hy
    · have hfree : (fs.copiedIn x ppos data copied).dev.freeBlocks = fs.dev.freeBlocks :=
        Device.freeBlocks_congr hagree (by omega)
      rwa [hfree] at ha
    · exact (hlive k).mp hk
    · rw [hslot k hk.lt]
  · have := hlost.unused k hk
    exact Device.byte_congr hagree (by omega)

/-- The size changes in memory, for an inode that nobody else has. -/
theorem CopiedAway.resized {fs1 : Fs} (h : CopiedAway fs fs1) (hx : fs1.dentries d = some x)
    (hl : x.linked = false) (size : Nat) :
    CopiedAway fs (fs1.setDentry d (x.resized size)) := by
  refine ⟨?_, ?_, h.untouched, h.live⟩
  · refine h.inv.setDentry hx rfl rfl rfl ⟨rfl, rfl, rfl⟩ (fun _ _ hd => hd) (fun _ hcur => ?_)
      fun c hc => h.inv.cache d x c hx hc
    exact nomatch hl.symm.trans hcur.2.1
  · refine h.stale.keep (fun n hn => hn.of_dev rfl) fun e y hy hly => ?_
    rw [Fs.setDentry_dentries] at hy
    split at hy
    · rename_i hed
      cases hy
      exact ⟨x, hed ▸ hx, hl, rfl, rfl, rfl⟩
    · exact ⟨y, hy, hly, .refl _⟩

/-- Saving the stale inode, once the data is in its block and the size is changed. -/
theorem FsInv.saveInode_stale (hi : FsInv fs Shadow.none) (h : fs.StaleOk)
    (hx : fs.dentries d = some x) (hl : x.linked = false) (hfit : Fits ppos data) (size : Nat) :
    saveInode d ((fs.copiedIn x ppos data copied).setDentry d (x.resized size)) =
      let fs2 := (fs.copiedIn x ppos data copied).setDentry d (x.resized size)
      if fs.dev.Live x.slot then
        .ok (true, { fs2 with dev := fs2.dev.setSlot x.slot (x.resized size).inode })
      else if fs.past = x.inode.inodeNo then .error .outOfBlock
      else .ok (false, fs2) := by
  obtain ⟨-, hno, hlt⟩ := h d x hx hl
  have haway := hi.copiedAway h hx hl hfit copied
  obtain ⟨fs2, hfs2⟩ : ∃ u, u = (fs.copiedIn x ppos data copied).setDentry d (x.resized size) :=
    ⟨_, rfl⟩
  have haway2 : CopiedAway fs fs2 := hfs2 ▸ haway.resized hx hl size
  have hd : fs2.dentries d = some (x.resized size) := by
    rw [hfs2, Fs.setDentry_dentries, if_pos rfl]
  have hpast : fs2.past = fs.past := by
    rw [hfs2]
    rfl
  have hno2 : (x.resized size).inode.inodeNo = inoOf x.slot := hno
  have hplace : ∀ k, fs2.dev.Live k → (fs2.dev.slot k).inodeNo = inoOf k :=
    fun k hk => (haway2.inv.store.slots k hk).1
  rw [← hfs2]
  by_cases hlive : fs.dev.Live x.slot
  · have hfirst := firstSlot_live hplace ((haway2.live x.slot).mpr hlive)
    rw [← hno2] at hfirst
    rw [saveInode_found hd hfirst, if_pos hlive]
  · have hdead : ¬ fs2.dev.Live x.slot := fun hl' => hlive ((haway2.live x.slot).mp hl')
    have hlt128 : x.slot < 128 := by omega
    have habsent := absent_of_dead hplace hlt128 hdead
    rw [← hno2] at habsent
    rw [saveInode_absent hd habsent, if_neg hlive, hpast]
    rfl

/-- **A safe write returns, and leaves every linked file alone.** -/
theorem FsInv.run_staleWrite (hi : FsInv fs Shadow.none) (h : fs.StaleOk)
    (hx : fs.dentries d = some x) (hl : x.linked = false) (hm : lk.held .inodesMgmt = false)
    (hs : lk.held .sb = false) (hsafe : fs.StaleSafe x ppos data copied intr) :
    ∃ fs', run intr (Op.write d ppos data copied).code lk fs = (.returned () fs', lk) ∧
      CopiedAway fs fs' := by
  obtain ⟨hfit, hsafe⟩ := hsafe
  have haway := hi.copiedAway h hx hl hfit copied
  have haway2 := haway.resized hx hl (ppos + data.length)
  change ∃ fs', run intr (discard (simplefsWrite d ppos data copied)) lk fs = _ ∧ _
  rw [discard_eq, Simplefs.run_write _ hx hm hs, if_pos hfit]
  by_cases hc : copied < data.length
  · simp only [if_pos hc]
    exact ⟨_, rfl, haway⟩
  by_cases hw : intr .write = true
  · simp only [if_neg hc, if_pos hw]
    exact ⟨_, rfl, haway⟩
  by_cases hsv : intr .save = true
  · simp only [if_neg hc, if_neg hw, if_pos hsv]
    exact ⟨_, rfl, haway2⟩
  obtain ⟨hdead, hpast⟩ := ((hsafe.resolve_left hc).resolve_left hw).resolve_left hsv
  simp only [if_neg hc, if_neg hw, if_neg hsv, hi.saveInode_stale h hx hl hfit, if_neg hdead,
    if_neg hpast]
  exact ⟨_, rfl, haway2⟩

/-- **Any other write crashes or overwrites the slot of a linked file.** -/
theorem FsInv.staleSafe_of_run (hi : FsInv fs Shadow.none) (h : fs.StaleOk)
    (hx : fs.dentries d = some x) (hl : x.linked = false) (hm : lk.held .inodesMgmt = false)
    (hs : lk.held .sb = false) {lk' : LockState Lock}
    (hrun : run intr (Op.write d ppos data copied).code lk fs = (.returned () fs', lk'))
    (hun : fs.LinkedUntouched fs') : fs.StaleSafe x ppos data copied intr := by
  change run intr (discard (simplefsWrite d ppos data copied)) lk fs = _ at hrun
  rw [discard_eq, Simplefs.run_write _ hx hm hs] at hrun
  split at hrun
  swap
  · cases hrun
  rename_i hfit
  refine ⟨hfit, ?_⟩
  by_cases hc : copied < data.length
  · exact Or.inl hc
  by_cases hw : intr .write = true
  · exact Or.inr (Or.inl hw)
  by_cases hsv : intr .save = true
  · exact Or.inr (Or.inr (Or.inl hsv))
  refine Or.inr (Or.inr (Or.inr ?_))
  simp only [if_neg hc, if_neg hw, if_neg hsv, hi.saveInode_stale h hx hl hfit] at hrun
  by_cases hlive : fs.dev.Live x.slot
  · -- the slot now has the lost block
    rw [if_pos hlive] at hrun
    cases hrun
    have hslot := (hun x.slot hlive).1
    simp only [Device.slot_setSlot, if_true] at hslot
    exact absurd (congrArg SfsInode.block hslot).symm ((h d x hx hl).lost.unused x.slot hlive)
  · refine ⟨hlive, fun hpast => ?_⟩
    rw [if_neg hlive, if_pos hpast] at hrun
    cases hrun

end Write

/-! ## 4. Runs with stale handles -/

/-- A step of a run in which files may be open while they are unlinked: a defined step, or a
safe write through the handle of an unlinked file. -/
inductive HandleStep : Sys → Sys → Prop
  | defined {s s'} (h : DefinedStep s s') : HandleStep s s'
  | stale {lk lk' fs fs' d x ppos data copied intr} (hx : fs.dentries d = some x)
      (hl : x.linked = false) (hsafe : fs.StaleSafe x ppos data copied intr)
      (hrun : run intr (Op.write d ppos data copied).code lk fs = (.returned () fs', lk')) :
      HandleStep ⟨lk, .mounted fs⟩ ⟨lk', .mounted fs'⟩

/-- The states that such runs reach. -/
def HandleRun : Sys → Sys → Prop := Relation.ReflTransGen HandleStep

/-- The invariant of a system with stale handles. -/
structure HandleInv (s : Sys) : Prop where
  sys : SysInv s
  stale : ∀ fs, s.mnt = .mounted fs → fs.StaleOk

/-- A mounted filesystem has no stale handle. -/
theorem mountedFs_staleOk (dev : Device) (imap past : BitVec 64) :
    (mountedFs dev imap past).StaleOk := by
  intro e y hy hl
  obtain ⟨-, rfl⟩ := mountedFs_dentries hy
  cases hl

/-- **One step.** -/
theorem HandleStep.inv {s s' : Sys} (hstep : HandleStep s s') (hi : HandleInv s) :
    HandleInv s' := by
  obtain ⟨⟨hlk, hoff, hon⟩, hst⟩ := hi
  cases hstep with
  | defined h =>
    refine ⟨h.inv ⟨hlk, hoff, hon⟩, ?_⟩
    obtain ⟨ev, hallow, hdef, happ⟩ := h
    cases Event.leadsTo happ with
    | refused => exact hst
    | mount hmap =>
      rintro fs ⟨⟩
      exact mountedFs_staleOk _ _ _
    | umount => rintro fs' ⟨⟩
    | @call lk lk' op intr fs fs' hrun =>
      change lk = LockState.free at hlk
      subst hlk
      obtain ⟨rfl, hd⟩ := hdef op intr fs rfl rfl
      have ha := hallow op quiet fs rfl rfl
      rintro _ ⟨⟩
      exact (hon fs rfl).call_staleOk ha hd hrun (hst fs rfl)
  | @stale lk lk' fs fs' d x ppos data copied intr hx hl hsafe hrun =>
    change lk = LockState.free at hlk
    subst hlk
    obtain ⟨fs'', hrun', haway⟩ :=
      (hon fs rfl).run_staleWrite (hst fs rfl) hx hl (LockState.free_held _)
        (LockState.free_held _) hsafe
    rw [hrun'] at hrun
    cases hrun
    exact ⟨.of_mounted haway.inv, fun _ hm => by cases hm; exact haway.stale⟩

/-- **Every run.** -/
theorem HandleRun.inv {s s' : Sys} (hrun : HandleRun s s') (hi : HandleInv s) : HandleInv s' := by
  induction hrun with
  | refl => exact hi
  | tail _ hstep ih => exact hstep.inv ih

/-- A device that is not mounted. -/
theorem HandleInv.of_offline {dev : Device} (h : SysInv ⟨LockState.free, .offline dev⟩) :
    HandleInv ⟨LockState.free, .offline dev⟩ :=
  ⟨h, fun _ hm => nomatch hm⟩

/-- **A stale handle harms no file exactly when its writes are safe**: in every state that a run
from a fresh image reaches whose writes through stale handles were safe, a write through a stale
handle returns and leaves every linked file as it was, if and only if it is safe as well. -/
theorem HandleRun.staleWrite_iff {size : Nat} {dev : Device} {lk : LockState Lock} {fs : Fs}
    {d : Nat} {x : Dentry} (hmk : mkfs zeroMem size = (0, dev))
    (hrun : HandleRun ⟨LockState.free, .offline dev⟩ ⟨lk, .mounted fs⟩)
    (hx : fs.dentries d = some x) (hl : x.linked = false) (ppos : Nat) (data : List UInt8)
    (copied : Nat) (intr : Site → Bool) :
    (∃ fs' lk', run intr (Op.write d ppos data copied).code lk fs = (.returned () fs', lk') ∧
      fs.LinkedUntouched fs') ↔ fs.StaleSafe x ppos data copied intr := by
  have hinv := hrun.inv (.of_offline (sysInv_mkfs hmk))
  have hi := hinv.sys.mounted fs rfl
  have hst := hinv.stale fs rfl
  have hlk : lk = LockState.free := hinv.sys.locks
  subst hlk
  constructor
  · rintro ⟨fs', lk', hr, hun⟩
    exact hi.staleSafe_of_run hst hx hl rfl rfl hr hun
  · intro hsafe
    obtain ⟨fs', hr, haway⟩ := hi.run_staleWrite hst hx hl (LockState.free_held _)
      (LockState.free_held _) hsafe
    exact ⟨fs', _, hr, haway.untouched⟩

/-! ### The welcome file, unlinked while it is open -/

/-- The entry of the welcome file. -/
def welcomeEntry : CacheEntry := ⟨freshDevice.record 2 0, 0⟩

/-- The fresh image after the welcome file is looked up and unlinked; dentry 1 is a handle. -/
def staleFs : Fs :=
  foundFs.unlinked 1 welcomeDentry listedRoot (dirCacheOf freshFs freshRoot) welcomeEntry

/-- The handle. -/
def staleWelcome : Dentry := { welcomeDentry with linked := false }

theorem foundFs_unlinkable :
    foundFs.Unlinkable 1 welcomeDentry listedRoot (dirCacheOf freshFs freshRoot) :=
  foundFs_inv.unlinkable foundFs_unlink foundFs_welcome foundFs_root.1 rfl

theorem usedCacheEntryGet_welcome :
    usedCacheEntryGet (dirCacheOf freshFs freshRoot) welcomeDentry.name = some welcomeEntry := by
  rw [usedCacheEntryGet_listed]
  exact if_pos rfl

theorem foundFs_unlink_defined : (Op.unlink 1).Defined foundFs := by
  intro y hy
  cases hy.symm.trans foundFs_welcome
  exact ⟨listedRoot, _, foundFs_root.1, rfl⟩

theorem run_unlink_welcome : run quiet (Op.unlink 1).code LockState.free foundFs =
    (.returned () staleFs, LockState.free) :=
  foundFs_unlinkable.run_vfsUnlink foundFs_inv usedCacheEntryGet_welcome

theorem DefinedStep.stale :
    DefinedStep ⟨LockState.free, .mounted foundFs⟩ ⟨LockState.free, .mounted staleFs⟩ :=
  .call foundFs_unlink foundFs_unlink_defined run_unlink_welcome

theorem DefinedRun.stale :
    DefinedRun ⟨LockState.free, .offline freshDevice⟩ ⟨LockState.free, .mounted staleFs⟩ :=
  .tail DefinedRun.found DefinedStep.stale

theorem DefinedRun.handleRun {s s' : Sys} (h : DefinedRun s s') : HandleRun s s' :=
  Relation.ReflTransGen.mono (fun _ _ => HandleStep.defined) _ _ h

theorem staleFs_welcome : staleFs.dentries 1 = some staleWelcome :=
  (Fs.setDentry_dentries _ _ _ _).trans (if_pos rfl)

/-- Before its number is taken again, a byte may be written through the handle. -/
theorem HandleRun.staleWrite_iff_stale : ∃ fs' lk',
    run quiet (Op.write 1 0 [65] 1).code LockState.free staleFs = (.returned () fs', lk') ∧
      staleFs.LinkedUntouched fs' := by
  refine (HandleRun.staleWrite_iff mkfs_fresh DefinedRun.stale.handleRun staleFs_welcome rfl 0 [65]
    1 quiet).mpr ⟨Or.inr (by decide), Or.inr (Or.inr (Or.inr ⟨?_, by decide⟩))⟩
  rintro ⟨-, hno⟩
  exact hno (by decide +kernel)

/-- The root after the unlink. -/
def staleRoot : Dentry := listedRoot.without (dirCacheOf freshFs freshRoot) welcomeEntry

theorem staleFs_root : staleFs.DirAt 0 staleRoot := ⟨rfl, rfl, rfl⟩

theorem staleFs_inv : FsInv staleFs Shadow.none :=
  (DefinedRun.inv DefinedRun.stale (sysInv_mkfs mkfs_fresh)).mounted _ rfl

/-- A name may be created: none is there any more. -/
theorem staleFs_newName : staleFs.Absent 0 newName := by
  refine ⟨staleRoot, staleFs_root, fun e y he hy hl => ?_, fun c hc => ?_⟩
  · rcases Nat.lt_or_ge e 2 with h | h
    · obtain rfl : e = 1 := by omega
      cases hy.symm.trans staleFs_welcome
      cases hl
    · rw [staleFs_inv.fresh e h] at hy
      cases hy
  · cases hc
    decide +kernel

/-- The handle's inode number, if the file is unlinked, and the number in slot 1. -/
def handleAndSlot {α : Type} (r : Prog.Ending Fs Lock Fault α) :
    Option (Bool × BitVec 64) × BitVec 64 :=
  match r with
  | .returned _ fs =>
    ((fs.dentries 1).map fun y => (y.linked, y.inode.inodeNo), (fs.dev.slot 1).inodeNo)
  | _ => (none, 0#64)

/-- The new file gets the number of the unlinked one. -/
theorem staleFs_create : ∃ fs' x,
    DefinedStep ⟨LockState.free, .mounted staleFs⟩ ⟨LockState.free, .mounted fs'⟩ ∧
      fs'.dentries 1 = some x ∧ x.linked = false ∧ x.slot = 1 ∧ fs'.dev.Live 1 := by
  have hdef : (Op.create 0 newName 0x81a4).Defined staleFs :=
    ⟨⟨staleRoot, _, rfl, rfl, List.cons_ne_nil _ _⟩, by decide⟩
  have hw : (Op.create 0 newName 0x81a4).WorksIn staleFs 0 := rfl
  have ha : (Op.create 0 newName 0x81a4).Allowed staleFs := staleFs_newName
  obtain ⟨fs', hrun, -⟩ := staleFs_inv.run_worksIn hw ha hdef
  have hcheck : handleAndSlot
      (run quiet (Op.create 0 newName 0x81a4).code LockState.free staleFs).1 =
      (some (false, 2#64), 2#64) := by decide +kernel
  rw [hrun] at hcheck
  obtain ⟨hd, hslot⟩ := Prod.ext_iff.mp hcheck
  obtain ⟨x, hx, heq⟩ := Option.map_eq_some_iff.mp hd
  obtain ⟨hl, hno⟩ := Prod.ext_iff.mp heq
  refine ⟨fs', x, .call ha hdef hrun, hx, hl, ?_, by decide, ?_⟩
  · change slotIndex x.inode.inodeNo = 1
    rw [show x.inode.inodeNo = 2#64 from hno]
    decide
  · have hslot' : (fs'.dev.slot 1).inodeNo = 2#64 := hslot
    rw [hslot']
    decide

/-- **The welcome file is unlinked while it is open, a new file takes its number, and a byte is
written through the old handle**: the new file is not left as it was. -/
theorem staleFs_write_harms : ∃ fs x,
    HandleRun ⟨LockState.free, .offline freshDevice⟩ ⟨LockState.free, .mounted fs⟩ ∧
      fs.dentries 1 = some x ∧ x.linked = false ∧
      ¬ ∃ fs' lk', run quiet (Op.write 1 0 [65] 1).code LockState.free fs =
        (.returned () fs', lk') ∧ fs.LinkedUntouched fs' := by
  obtain ⟨fs, x, hstep, hx, hl, hslot, hlive⟩ := staleFs_create
  have hrun := DefinedRun.handleRun (.tail DefinedRun.stale hstep)
  have hinv := hrun.inv (.of_offline (sysInv_mkfs mkfs_fresh))
  refine ⟨fs, x, hrun, hx, hl, ?_⟩
  rintro ⟨fs', lk', hr, hun⟩
  obtain ⟨-, hsafe⟩ := (hinv.sys.mounted fs rfl).staleSafe_of_run (hinv.stale fs rfl) hx hl
    (LockState.free_held _) (LockState.free_held _) hr hun
  rcases hsafe with h | h | h | ⟨hdead, -⟩
  · exact absurd h (by decide)
  · cases h
  · cases h
  · exact hdead (hslot ▸ hlive)

end Simplefs
