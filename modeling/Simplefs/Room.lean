/-
# Room in the directory

`simplefs_create_fs_object` asks whether there is an inode left, and a block, but not whether the
directory has a record left: `free_cache_entry_get` reads the first entry of the free list
whether there is one or not.  Nor is the length of the name compared with that of the record's
array, which `strcpy` runs over; in the last record it may run over the block.
-/
import Simplefs.Confined
import Simplefs.Create
import Simplefs.Unlink

namespace Simplefs

open Prog (run LockState Ending wlp wlp_and wlp_step wlp_stepObs wlp_lock wlp_unlock wlp_bind)

/-! ## 1. What a create should do, and when it does -/

/-- **The entry that `free_cache_entry_get` takes** is an element of the free list, its record is
one of the block's and is not live, and the name ends inside the block. -/
structure TakesRecord (fs : Fs) (x : Dentry) (c : DirCache) (name : Name) (e : CacheEntry) :
    Prop where
  taken : freeCacheEntryGet c = some e
  mem : e ∈ c.free
  lt : e.entryNo < recordsPerBlock
  zero : (fs.dev.record x.inode.block e.entryNo).inodeNo = 0#64
  inside : 264 * e.entryNo + name.bytes.length + 1 ≤ 4096

/-- Behind the superblock and the inode store nothing is written but the record, and, where the
name is longer than the record, the bytes that it needs. -/
def OnlyRecordWritten (fs fs' : Fs) (x : Dentry) (name : Name) (e : CacheEntry) : Prop :=
  ∀ b off, 2 ≤ b → off < 4096 → (b = x.inode.block → off < 264 * e.entryNo ∨
    264 * e.entryNo + max 264 (name.bytes.length + 1) ≤ off) →
    fs'.dev.byte b off = fs.dev.byte b off

/-- **A create fails with an error and changes nothing, or it takes a free record of the directory
and writes to that.** -/
def CreateInBounds (fs : Fs) (x : Dentry) (c : DirCache) (name : Name)
    (r : Ending Fs Lock Fault Int) : Prop :=
  (∃ ret fs', r = .returned ret fs' ∧ ret ≠ 0 ∧ Untouched fs fs') ∨
    ∃ e, TakesRecord fs x c name e ∧
      ∀ ret fs', r = .returned ret fs' → OnlyRecordWritten fs fs' x name e

/-- The create gets no block: it is refused, or `ffz` finds it a number and
`simplefs_sb_get_a_freeblock` fails. -/
def Fs.FailsEarly (fs : Fs) (mode : BitVec 16) (intr : Site → Bool) : Prop :=
  ¬ fs.CreateStarts mode intr ∨ (∃ k, ffz fs.imap = some k) ∧
    (intr .getAFreeblock = true ∨ freeBlockScan fs.dev.freeBlocks = none)

/-- The free list has a first entry, its record is one of the block's and is not live, and from
there the name does not reach the end of the block. -/
def Fs.HeadIsFree (fs : Fs) (x : Dentry) (c : DirCache) (name : Name) : Prop :=
  ∃ e l, c.free = e :: l ∧ e.entryNo < recordsPerBlock ∧
    (fs.dev.record x.inode.block e.entryNo).inodeNo = 0#64 ∧
    264 * e.entryNo + name.bytes.length + 1 ≤ 4096

/-- The directory has a record left, and from the first free entry's record the name does not
reach the end of the block. -/
def Fs.HasRecordLeft (fs : Fs) (x : Dentry) (c : DirCache) (name : Name) : Prop :=
  (∃ j, j < recordsPerBlock ∧ (fs.dev.record x.inode.block j).inodeNo = 0#64) ∧
    ∀ e, c.free.head? = some e → 264 * e.entryNo + name.bytes.length + 1 ≤ 4096

/-! ## 2. A block that is taken stays taken

Whatever the create does once it has its block, it does not write the bitmap again. -/

section Taken

variable {fs fs' : Fs} {intr : Site → Bool} {p : Nat} {name : Name} {w : BitVec 64}

/-- The bitmap is `w`, and the inodes are as ever. -/
structure Fs.HasBitmap (fs : Fs) (w : BitVec 64) : Prop where
  bounded : fs.Bounded
  bitmap : fs.dev.freeBlocks = w

/-- Taking a block changes the bitmap. -/
theorem takeBlock_ne {b : Nat} (h : freeBitTest w b = true) : takeBlock w b ≠ w := by
  obtain ⟨j, hj, hw, hm⟩ := freeBitTest_iff.mp h
  intro heq
  have hbit := getLsbD_takeBlock w b hj
  rw [heq, hw, decide_eq_true hm] at hbit
  cases hbit

theorem hasBitmap_addRecord (h : fs.HasBitmap w) {ino : BitVec 64} {u : Unit}
    (hr : addRecord p name ino fs = .ok (u, fs')) : fs'.HasBitmap w ∧ fs'.IsDirAt p := by
  obtain ⟨hb, hd⟩ := bounded_addRecord h.bounded hr
  obtain ⟨x, c, e, hx, hc, -⟩ := addRecord_ok hr
  have h2 := (h.bounded.dentry p x hx).block (Or.inr (h.bounded.cached p x c hx hc))
  exact ⟨⟨hb, (sameCounts_addRecord hx h2 hr).2.trans h.bitmap⟩, hd⟩

theorem hasBitmap_countChild (h : fs.HasBitmap w) (hd : fs.IsDirAt p) {u : Unit}
    (hr : countChild p fs = .ok (u, fs')) : fs'.HasBitmap w :=
  ⟨bounded_countChild h.bounded hd hr, by rw [countChild_dev hr, h.bitmap]⟩

theorem wlp_inodeSave_hasBitmap (h : fs.HasBitmap w) (d : Nat) :
    wlp intr (simplefsInodeSave d) (fun _ fs' => fs'.HasBitmap w) fs :=
  wlp_simplefsInodeSave h fun _ _ hr =>
    ⟨bounded_saveInode h.bounded hr, (sameCounts_saveInode hr).2.trans h.bitmap⟩

theorem wlp_inodeAdd_hasBitmap (h : fs.HasBitmap w) {v : SfsInode} (hv : v.Bounded) :
    wlp intr (simplefsInodeAdd v) (fun _ fs' => fs'.HasBitmap w) fs := by
  have hword : wlp intr (simplefsInodeAdd v) (fun _ fs' => fs'.dev.freeBlocks = w) fs :=
    wlp_simplefsInodeAdd h.bitmap fun _ _ _ => (Device.freeBlocks_addAt _ _ _).trans h.bitmap
  exact Prog.wlp_mono (wlp_and (wlp_inodeAdd h.bounded hv) hword) fun _ _ hb => ⟨hb.1, hb.2⟩

/-- **From its block on**, a create leaves the bitmap alone. -/
theorem wlp_createTail_hasBitmap (h : fs.HasBitmap w) {v : SfsInode} (hv : v.Bounded) :
    wlp intr (do simplefsInodeAdd v; createTail p name v) (fun _ fs' => fs'.HasBitmap w) fs := by
  refine wlp_bind (wlp_inodeAdd_hasBitmap h hv) fun _ fs1 h1 => ?_
  exact wlp_createTail (J := fun fs' => fs'.HasBitmap w ∧ fs'.IsDirAt p)
    (fun _ _ hr => hasBitmap_addRecord h1 hr) (fun _ h2 _ => h2.1)
    (fun _ _ _ h2 hr => hasBitmap_countChild h2.1 h2.2 hr)
    (fun _ h3 => wlp_inodeSave_hasBitmap h3 p) (fun _ _ h4 _ => h4)
    fun _ h4 => ⟨h4.bounded.dAdd hv p name, h4.bitmap⟩

end Taken

/-! ## 3. What a create writes -/

section Written

variable {fs fs1 fs2 : Fs} {p : Nat} {x : Dentry} {c : DirCache} {name : Name} {mode : BitVec 16}
  {intr : Site → Bool} {e : CacheEntry}

/-- Nothing is written behind the inode store. -/
def DataUntouched (fs fs' : Fs) : Prop :=
  ∀ b off, 2 ≤ b → off < 4096 → fs'.dev.byte b off = fs.dev.byte b off

/-- The inode is saved to the store. -/
theorem wlp_inodeSave_onlyRecord (h : OnlyRecordWritten fs fs1 x name e) (d : Nat) :
    wlp intr (simplefsInodeSave d) (fun _ fs' => OnlyRecordWritten fs fs' x name e) fs1 := by
  refine wlp_simplefsInodeSave h fun found fs2 hr => ?_
  intro b off hb hoff hout
  rw [byte_saveInode hr (by omega) hoff]
  exact h b off hb hoff hout

/-- The record is written, if the dentry and the data are as they were. -/
theorem onlyRecord_addRecord {ino : BitVec 64} {u : Unit} (h : DataUntouched fs fs1)
    (hx : fs1.dentries p = some x) (hc : x.fsdata = some c) (he : freeCacheEntryGet c = some e)
    (hr : addRecord p name ino fs1 = .ok (u, fs2)) : OnlyRecordWritten fs fs2 x name e := by
  obtain ⟨x', c', e', hx', hc', he', hlt, rfl⟩ := addRecord_ok hr
  cases hx.symm.trans hx'
  cases hc.symm.trans hc'
  cases he.symm.trans he'
  intro b off hb hoff hout
  refine (Device.byte_congr (Device.agreeOff_putRecord_name _ _ _ ino name.bytes) ?_).trans
    (h b off hb hoff)
  have hlt15 : e.entryNo < 15 := hlt.1
  by_cases hbx : b = x.inode.block
  · have hout' := hout hbx
    subst hbx
    omega
  · omega

/-- **Whatever is interrupted**, a create writes one record. -/
theorem wlp_create_onlyRecord (hx : fs.dentries p = some x) (hc : x.fsdata = some c)
    (he : freeCacheEntryGet c = some e) : wlp intr (simplefsCreateFsObject p name mode)
      (fun _ fs' => OnlyRecordWritten fs fs' x name e) fs := by
  have hsame : OnlyRecordWritten fs fs x name e := fun _ _ _ _ _ => rfl
  refine wlp_createObject
    (A := fun _ _ fs2 => DataUntouched fs fs2 ∧ fs2.dentries = fs.dentries)
    (fun _ _ => hsame) (fun ino b _ => ?_) ?_
  · have htaken : DataUntouched fs (fs.taken b) := fun b' off hb _ =>
      Device.byte_congr (Device.agreeOff_setFreeBlocks _ _) (by omega)
    refine wlp_simplefsInodeAdd ⟨htaken, rfl⟩ fun i hi _ => ⟨fun b' off hb hoff => ?_, rfl⟩
    exact (Device.byte_addAt _ _ off (by omega) hb).trans (htaken b' off hb hoff)
  · rintro ino b fs2 ⟨hdata, hsame2⟩
    have hx2 : fs2.dentries p = some x := by rw [hsame2, hx]
    exact wlp_createTail (fun _ _ hr => onlyRecord_addRecord hdata hx2 hc he hr) (fun _ h _ => h)
      (fun fs3 _ fs4 h hr => by
        intro b' off hb hoff hout
        rw [countChild_dev hr]
        exact h b' off hb hoff hout)
      (fun _ h => wlp_inodeSave_onlyRecord h p) (fun _ _ h _ => h) fun _ h => h

end Written

/-! ## 4. When a create is in bounds -/

section Bounds

variable {fs : Fs} {p : Nat} {x : Dentry} {c : DirCache} {name : Name} {mode : BitVec 16}
  {intr : Site → Bool} {lk : LockState Lock}

/-- A create that gets no block fails, and changes nothing. -/
theorem run_failsEarly (hx : fs.dentries p = some x) (hc : x.fsdata = some c)
    (hl : ∀ l, lk.held l = false) (name : Name) (h : fs.FailsEarly mode intr) : ∃ err, err ≠ 0 ∧
      (run intr (simplefsCreateFsObject p name mode) lk fs).1 = .returned err fs := by
  rcases h with hst | ⟨hk, h⟩
  · exact run_create_turnedAway hx hc hl (fun h => absurd h hst) (Or.inl hst)
  · exact run_create_turnedAway hx hc hl (fun _ => hk) (Or.inr h)

/-- **One that gets a block does not leave everything as it was.** -/
theorem Fs.Bounded.failsEarly (hb : fs.Bounded) (hx : fs.dentries p = some x)
    (hc : x.fsdata = some c) (hl : ∀ l, lk.held l = false) {ret : Int} {fs' : Fs}
    (hr : (run intr (simplefsCreateFsObject p name mode) lk fs).1 = .returned ret fs')
    (hun : Untouched fs fs') : fs.FailsEarly mode intr := by
  by_contra hno
  rw [Fs.FailsEarly, not_or, not_not] at hno
  obtain ⟨hst, hno⟩ := hno
  rw [← bind_pure (simplefsCreateFsObject p name mode),
    run_create_started pure hx hc hl hst] at hr
  cases hk : ffz fs.imap with
  | none =>
    rw [hk] at hr
    cases hr
  | some k =>
  simp only [hk] at hr
  rw [not_and, not_or] at hno
  obtain ⟨hblk, hscan⟩ := hno ⟨k, hk⟩
  obtain ⟨b, hscan⟩ := Option.ne_none_iff_exists'.mp hscan
  simp only [if_neg hblk, hscan, bind_pure] at hr
  obtain ⟨h3, h64, htest⟩ := freeBlockScan_some hscan
  have htaken : (fs.taken b).HasBitmap (takeBlock fs.dev.freeBlocks b) :=
    ⟨hb.of_slots fun i _ => Device.slot_setFreeBlocks _ _ _, Device.freeBlocks_setFreeBlocks _ _⟩
  have hend := Prog.wlp_run (wlp_createTail_hasBitmap (p := p) htaken
    (bounded_newInode mode k h3 h64)) (Prod.ext hr rfl)
  exact takeBlock_ne htest (hend.bitmap.symm.trans (by rw [hun.1]))

/-- What is taken is the head of the free list. -/
theorem takesRecord_iff_head :
    (∃ e, TakesRecord fs x c name e) ↔ fs.HeadIsFree x c name := by
  constructor
  · rintro ⟨e, h⟩
    have he := h.taken
    rw [freeCacheEntryGet] at he
    obtain ⟨l, hl⟩ := List.head?_eq_some_iff.mp he
    exact ⟨e, l, hl, h.lt, h.zero, h.inside⟩
  · rintro ⟨e, l, hel, hlt, hzero, hlen⟩
    have he : freeCacheEntryGet c = some e := by rw [freeCacheEntryGet, hel, List.head?_cons]
    exact ⟨e, he, hel ▸ List.mem_cons_self, hlt, hzero, hlen⟩

/-- **In bounds**: the create gets no block, or the first free entry stands for a free record. -/
theorem Fs.Bounded.inBounds_iff (hb : fs.Bounded) (hx : fs.dentries p = some x)
    (hc : x.fsdata = some c) (hl : ∀ l, lk.held l = false) (name : Name) (mode : BitVec 16)
    (intr : Site → Bool) :
    CreateInBounds fs x c name (run intr (simplefsCreateFsObject p name mode) lk fs).1 ↔
      fs.FailsEarly mode intr ∨ fs.HeadIsFree x c name := by
  rw [← takesRecord_iff_head]
  constructor
  · rintro (⟨ret, fs', hr, -, hun⟩ | ⟨e, htake, -⟩)
    · exact Or.inl (hb.failsEarly hx hc hl hr hun)
    · exact Or.inr ⟨e, htake⟩
  · rintro (h | ⟨e, htake⟩)
    · obtain ⟨err, herr, hrun⟩ := run_failsEarly hx hc hl name h
      exact Or.inl ⟨err, fs, hrun, herr, rfl, rfl, rfl⟩
    · refine Or.inr ⟨e, htake, fun ret fs' hr => ?_⟩
      have hw : wlp intr (simplefsCreateFsObject p name mode)
          (fun _ fs' => OnlyRecordWritten fs fs' x name e) fs :=
        wlp_create_onlyRecord hx hc htake.taken
      have hend := Prog.wlp_run hw (Prod.ext hr rfl)
      exact hend

/-- In a consistent filesystem there always is a number for the inode. -/
theorem Fs.SoundAt.failsEarly_iff (hs : fs.SoundAt p x c) :
    fs.FailsEarly mode intr ↔ fs.TurnedAway mode intr := by
  obtain ⟨i, hi, -, -⟩ := hs.pick
  exact or_congr_right ⟨fun h => h.2, fun h => ⟨⟨_, hi⟩, h⟩⟩

/-- And the free list stands for the records that are not live. -/
theorem Fs.SoundAt.headIsFree_iff (hs : fs.SoundAt p x c) :
    fs.HeadIsFree x c name ↔ fs.HasRecordLeft x c name := by
  constructor
  · rintro ⟨e, l, hel, hlt, hzero, hlen⟩
    refine ⟨⟨e.entryNo, hlt, hzero⟩, fun e' he' => ?_⟩
    rw [hel, List.head?_cons] at he'
    cases he'
    exact hlen
  · rintro ⟨hroom, hlen⟩
    obtain ⟨e, l, hel⟩ := List.exists_cons_of_ne_nil (hs.agrees.free_ne_nil_iff.mpr hroom)
    have he : c.free.head? = some e := by rw [hel, List.head?_cons]
    obtain ⟨hlt, hzero⟩ := hs.free_entry he
    exact ⟨e, l, hel, hlt, hzero, hlen e he⟩

end Bounds

/-- **A create is in bounds exactly when it gets no block or the first free entry's record is
free**, in every state of every run whose writes end inside their blocks, whatever else is
interrupted; **and in the states of the uninterrupted runs, exactly when it is turned away or the
directory has a record left for the name.** -/
theorem createInBounds_iff {size p : Nat} {dev : Device} {lk : LockState Lock} {fs : Fs}
    {x : Dentry} {c : DirCache} (hmk : mkfs zeroMem size = (0, dev))
    (hrun : BoundedRun ⟨LockState.free, .offline dev⟩ ⟨lk, .mounted fs⟩)
    (hl : ∀ l, lk.held l = false) (hx : fs.dentries p = some x) (hc : x.fsdata = some c)
    (name : Name) (mode : BitVec 16) (intr : Site → Bool) :
    (CreateInBounds fs x c name (run intr (simplefsCreateFsObject p name mode) lk fs).1 ↔
      fs.FailsEarly mode intr ∨ fs.HeadIsFree x c name) ∧
    (DefinedRun ⟨LockState.free, .offline dev⟩ ⟨lk, .mounted fs⟩ →
      (CreateInBounds fs x c name (run intr (simplefsCreateFsObject p name mode) lk fs).1 ↔
        fs.TurnedAway mode intr ∨ fs.HasRecordLeft x c name)) := by
  have hb : fs.Bounded := hrun.bounded (sysBounded_mkfs hmk)
  have hiff := hb.inBounds_iff hx hc hl name mode intr
  refine ⟨hiff, fun hdef => ?_⟩
  have hi := (hdef.inv (sysInv_mkfs hmk)).mounted fs rfl
  have hs : fs.SoundAt p x c := hi.soundAt (hi.cache p x c hx hc).1 hc
  rw [hiff, hs.failsEarly_iff, hs.headIsFree_iff]

/-- A new file in the listed root of a fresh image. -/
theorem createInBounds_iff_listed : CreateInBounds listedFs listedRoot
    (dirCacheOf freshFs freshRoot) newName
    (run quiet (simplefsCreateFsObject 0 newName 0x81a4) LockState.free listedFs).1 := by
  have hfd : listedRoot.fsdata = some (dirCacheOf freshFs freshRoot) := rfl
  refine ((createInBounds_iff mkfs_fresh DefinedRun.listed.boundedRun (fun _ => rfl)
    listedFs_root.1 hfd newName 0x81a4 quiet).2 DefinedRun.listed).mpr (Or.inr ?_)
  obtain ⟨x, c, hx, hc, hfree⟩ := listedFs_hasFreeEntry
  cases hx.symm.trans listedFs_root.1
  cases hfd.symm.trans hc
  have hs := listedFs_soundAt
  refine ⟨hs.agrees.free_ne_nil_iff.mp hfree, fun e he => ?_⟩
  have h15 : e.entryNo < 15 := (hs.free_entry he).1
  have hlen : newName.bytes.length = 3 := rfl
  omega

/-! ## 5. A full directory

Fourteen files in the root of a fresh image, next to the welcome file, take all its records. -/

/-- The name of `k + 1` letters `a`. -/
def aName (k : Nat) : Name :=
  ⟨List.replicate (k + 1) 97, fun h => absurd (List.eq_of_mem_replicate h) (by decide)⟩

/-- The root of a fresh image, listed, with `k` more files. -/
def filledFs : Nat → Fs
  | 0 => listedFs
  | k + 1 =>
    match run quiet (Op.create 0 (aName k) 0x81a4).code LockState.free (filledFs k) with
    | (.returned _ fs, _) => fs
    | _ => filledFs k

/-- The root is a directory with a cache, of which `q` holds, and no child has the name. -/
def Fs.rootTest (fs : Fs) (name : Name) (q : DirCache → Bool) : Bool :=
  (match fs.dentries 0 with
  | some x => x.linked && isDir x.inode.mode && x.fsdata.any q
  | none => false) &&
  (List.range fs.next).all fun e => e == 0 || (fs.dentries e).all fun y => y.name != name

theorem Fs.rootTest_sound {fs : Fs} {name : Name} {q : DirCache → Bool}
    (hi : FsInv fs Shadow.none) (h : fs.rootTest name q = true) :
    ∃ x c, fs.DirAt 0 x ∧ x.fsdata = some c ∧ q c = true ∧ fs.NoChild 0 name := by
  rw [Fs.rootTest, Bool.and_eq_true] at h
  obtain ⟨hroot, hchild⟩ := h
  cases hx : fs.dentries 0 with
  | none =>
    rw [hx] at hroot
    cases hroot
  | some x =>
    simp only [hx, Bool.and_eq_true] at hroot
    obtain ⟨⟨hlink, hdir⟩, hq⟩ := hroot
    cases hc : x.fsdata with
    | none =>
      rw [hc] at hq
      cases hq
    | some c =>
    rw [hc, Option.any_some] at hq
    refine ⟨x, c, ⟨hx, hlink, hdir⟩, hc, hq, fun e y he hy _ _ hname => ?_⟩
    have hlt : e < fs.next := by
      by_contra hge
      rw [hi.fresh e (Nat.le_of_not_lt hge)] at hy
      cases hy
    have hall := List.all_eq_true.mp hchild e (List.mem_range.mpr hlt)
    rw [hy] at hall
    simp [he, hname] at hall

/-- In each of the first fourteen there is a free entry, and no file of the next name. -/
theorem filledFs_test : ∀ k, k < 14 → (filledFs k).rootTest (aName k)
    (fun c => !c.free.isEmpty && (usedCacheEntryGet c (aName k)).isNone) = true := by
  decide +kernel

/-- The last one is full, with blocks and inodes to spare. -/
theorem filledFs_full : (filledFs 14).rootTest (aName 14) (fun c => c.free.isEmpty) = true ∧
    (filledFs 14).CreateStarts 0x81a4 quiet ∧
    freeBlockScan (filledFs 14).dev.freeBlocks ≠ none := by
  decide +kernel

/-- **The fourteen creates are a run.** -/
theorem DefinedRun.filled {k : Nat} (hk : k ≤ 14) :
    DefinedRun ⟨LockState.free, .offline freshDevice⟩ ⟨LockState.free, .mounted (filledFs k)⟩ := by
  induction k with
  | zero => exact DefinedRun.listed
  | succ k ih =>
    have hrun := ih (Nat.le_of_succ_le hk)
    have hi := (hrun.inv (sysInv_mkfs mkfs_fresh)).mounted _ rfl
    obtain ⟨x, c, hx, hc, hq, hno⟩ := Fs.rootTest_sound hi (filledFs_test k hk)
    rw [Bool.and_eq_true, Bool.not_eq_true', List.isEmpty_eq_false_iff,
      Option.isNone_iff_eq_none] at hq
    have ha : (Op.create 0 (aName k) 0x81a4).Allowed (filledFs k) := by
      refine ⟨x, hx, hno, fun c' hc' => ?_⟩
      cases hc.symm.trans hc'
      exact hq.2
    have hd : (Op.create 0 (aName k) 0x81a4).Defined (filledFs k) := by
      refine ⟨⟨x, c, hx.1, hc, hq.1⟩, ?_⟩
      rw [aName, List.length_replicate]
      omega
    have hw : (Op.create 0 (aName k) 0x81a4).WorksIn (filledFs k) 0 := rfl
    obtain ⟨fs', hret, -⟩ := hi.run_worksIn hw ha hd
    have heq : filledFs (k + 1) = fs' := by rw [filledFs, hret]
    rw [heq]
    exact hrun.tail (.call ha hd hret)

/-- **One more file**: nothing turns the create away, and `free_cache_entry_get` makes an entry
of the list's head. -/
theorem filledFs_not_createInBounds : ∃ x c,
    DefinedRun ⟨LockState.free, .offline freshDevice⟩ ⟨LockState.free, .mounted (filledFs 14)⟩ ∧
    (filledFs 14).dentries 0 = some x ∧ x.fsdata = some c ∧
    ¬ CreateInBounds (filledFs 14) x c (aName 14)
      (run quiet (simplefsCreateFsObject 0 (aName 14) 0x81a4) LockState.free (filledFs 14)).1 := by
  have hrun : DefinedRun _ _ := DefinedRun.filled (Nat.le_refl 14)
  have hi := (hrun.inv (sysInv_mkfs mkfs_fresh)).mounted _ rfl
  obtain ⟨htest, hst, hscan⟩ := filledFs_full
  obtain ⟨x, c, hx, hc, hempty, -⟩ := Fs.rootTest_sound hi htest
  refine ⟨x, c, hrun, hx.1, hc, ?_⟩
  have hb : (filledFs 14).Bounded := hrun.boundedRun.bounded (sysBounded_mkfs mkfs_fresh)
  rw [hb.inBounds_iff hx.1 hc (fun _ => rfl), (hi.soundAt hx hc).failsEarly_iff]
  rintro (haway | ⟨e, l, hel, -⟩)
  · rcases haway with h | h | h
    · exact h hst
    · cases h
    · exact hscan h
  · rw [List.isEmpty_iff.mp hempty] at hel
    cases hel

end Simplefs
