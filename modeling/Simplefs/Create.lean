/-
# The effect of a create

`simplefs_create_fs_object` changes its five structures one after the other and undoes nothing
("TODO: Undo all actions" is all that stands at its error exits).  So it is all or nothing in two
cases: it is turned away before it takes a block, or it goes through to its end.

The state it starts from is asked for less than the invariant of a mounted filesystem: the
parent's inode may be missing from the inode store, which is how `simplefs_inode_save` comes not
to find it.
-/
import Simplefs.Runs

namespace Simplefs

open Prog (run LockState Ending)

/-! ## 1. What a create has to do -/

/-- **The whole effect** of creating `name` in the directory of dentry `p`: the new inode is in
slot `i`, its block is `b`, and its name stands in record `j`. -/
structure CreatedAt (fs fs' : Fs) (p : Nat) (x : Dentry) (name : Name) (mode : BitVec 16)
    (i b j : Nat) : Prop where
  /-- The slot was empty, and the inode is live in it. -/
  empty : i < slotsPerBlock ∧ ¬ fs.dev.Live i
  slot : fs'.dev.slot i = newInode mode (i + 1) b
  imap : fs.imap.getLsbD (i + 1) = false ∧ fs'.imap.getLsbD (i + 1) = true
  inodesCount : fs'.dev.inodesCount = fs.dev.inodesCount + 1
  /-- The block was free, and is taken. -/
  block : 3 ≤ b ∧ b < maxObjects ∧ freeBitTest fs.dev.freeBlocks b = true ∧
    freeBitTest fs'.dev.freeBlocks b = false
  /-- The directory has one new record ... -/
  record : j < recordsPerBlock ∧ (fs.dev.record x.inode.block j).inodeNo = 0#64 ∧
    (fs'.dev.record x.inode.block j).inodeNo = inoOf i ∧
    (fs'.dev.record x.inode.block j).filename = name.bytes
  others : ∀ k, k < recordsPerBlock → k ≠ j →
    fs'.dev.record x.inode.block k = fs.dev.record x.inode.block k
  /-- ... and one more child, in memory and in its slot. -/
  count : ∃ x', fs'.dentries p = some x' ∧
    x'.inode.dirChildrenCount = x.inode.dirChildrenCount + 1
  saved : (fs'.dev.slot x.slot).dirChildrenCount = (fs.dev.slot x.slot).dirChildrenCount + 1

/-- **No effect**, on anything a create can change. -/
structure Kept (fs fs' : Fs) (p : Nat) (x : Dentry) : Prop where
  imap : fs'.imap = fs.imap
  inodesCount : fs'.dev.inodesCount = fs.dev.inodesCount
  freeBlocks : fs'.dev.freeBlocks = fs.dev.freeBlocks
  slots : ∀ i, i < slotsPerBlock → fs'.dev.slot i = fs.dev.slot i
  block : ∀ off, off < 4096 → fs'.dev.byte x.inode.block off = fs.dev.byte x.inode.block off
  dentry : ∃ x', fs'.dentries p = some x' ∧ x'.fsdata = x.fsdata ∧
    x'.inode.dirChildrenCount = x.inode.dirChildrenCount

/-- **A create that returns 0 has its whole effect, and one that returns an error has none.** -/
def CreateSound (fs : Fs) (p : Nat) (x : Dentry) (name : Name) (mode : BitVec 16)
    (r : Ending Fs Lock Fault Int) : Prop :=
  ∃ ret fs', r = .returned ret fs' ∧ (ret = 0 → ∃ i b j, CreatedAt fs fs' p x name mode i b j) ∧
    (ret ≠ 0 → Kept fs fs' p x)

/-! ## 2. The state it starts from, and the condition -/

/-- A consistent state, as far as a create in the directory of dentry `p` depends on it; the
directory's own slot may be lost. -/
structure Fs.SoundAt (fs : Fs) (p : Nat) (x : Dentry) (c : DirCache) : Prop where
  store : StoreInv fs.dev fs.imap fun _ => False
  dentry : fs.dentries p = some x
  fsdata : x.fsdata = some c
  agrees : c.Agrees (fs.dev.record x.inode.block)
  /-- The directory's block is a data block, and is not up for allocation. -/
  block : 2 ≤ x.inode.block ∧ x.inode.block ≤ 34 ∧
    (3 ≤ x.inode.block → ¬ Avail fs.dev.freeBlocks x.inode.block)
  number : x.slot < slotsPerBlock ∧ x.inode.inodeNo = inoOf x.slot
  fresh : fs.dentries fs.next = none
  /-- If the directory's inode is in the store, it is a copy of the one in memory. -/
  disk : fs.dev.Live x.slot → fs.dev.slot x.slot = x.inode

/-- The create is turned away before it takes a block. -/
def Fs.TurnedAway (fs : Fs) (mode : BitVec 16) (intr : Site → Bool) : Prop :=
  ¬ fs.CreateStarts mode intr ∨ intr .getAFreeblock = true ∨
    freeBlockScan fs.dev.freeBlocks = none

/-- A create that is not turned away gets a block. -/
theorem Fs.starts_of_not_turnedAway {fs : Fs} {mode : BitVec 16} {intr : Site → Bool}
    (h : ¬ fs.TurnedAway mode intr) : fs.CreateStarts mode intr ∧ intr .getAFreeblock = false ∧
      ∃ b, freeBlockScan fs.dev.freeBlocks = some b := by
  rw [Fs.TurnedAway, not_or, not_or, not_not] at h
  obtain ⟨hst, hblk, hscan⟩ := h
  exact ⟨hst, Bool.eq_false_iff.mpr hblk, Option.ne_none_iff_exists'.mp hscan⟩

/-- Nothing stops the create once it has its block: no acquisition is interrupted, the
directory's inode is in the store, there is a record that is not live, and the record keeps the
number it is given under that name. -/
structure Fs.GoesThrough (fs : Fs) (x : Dentry) (name : Name) (intr : Site → Bool) : Prop where
  quiet : intr .addMgmt = false ∧ intr .addSb = false ∧ intr .createMgmt = false ∧
    intr .save = false
  found : fs.dev.Live x.slot
  room : ∃ j, j < recordsPerBlock ∧ (fs.dev.record x.inode.block j).inodeNo = 0#64
  fits : ∀ k, ffz fs.imap = some k → NameKeeps name.bytes (BitVec.ofNat 64 k)

theorem FsInv.soundAt {fs : Fs} {p : Nat} {x : Dentry} {c : DirCache}
    (hi : FsInv fs Shadow.none) (hx : fs.DirAt p x) (hc : x.fsdata = some c) :
    fs.SoundAt p x c := by
  obtain ⟨⟨hl, -⟩, hb⟩ := hi.dir hx
  obtain ⟨h2, h34⟩ := hi.store.block _ hl
  rw [hb] at h2 h34
  refine ⟨hi.store, hx.1, hc, (hi.cache p x c hx.1 hc).2, ⟨h2, h34, fun h3 ha => ?_⟩,
    ⟨hl.lt, hi.inodeNo_eq (hi.current_of_dirAt hx)⟩, hi.fresh _ (Nat.le_refl _),
    fun _ => hi.clean p x (hi.current_of_dirAt hx) id⟩
  exact (hi.store.avail _ h3 h34 ha).2.1 _ hl hb

/-- An uninterrupted create goes through, if the cache has a free entry and the name is short. -/
theorem FsInv.goesThrough {fs : Fs} {p : Nat} {x : Dentry} {name : Name}
    (hi : FsInv fs Shadow.none) (hx : fs.DirAt p x)
    (hdef : fs.HasFreeEntry p ∧ name.bytes.length ≤ 255) : fs.GoesThrough x name quiet := by
  obtain ⟨⟨x', c, hx', hc, hfree⟩, hname⟩ := hdef
  cases hx.1.symm.trans hx'
  exact ⟨⟨rfl, rfl, rfl, rfl⟩, (hi.dir hx).1.1,
    (hi.soundAt hx hc).agrees.free_ne_nil_iff.mp hfree, fun _ _ => Or.inl hname⟩

/-! ## 3. What none of the later pieces changes

The superblock's two words: `simplefs_sb_get_a_freeblock` alone writes one of them and
`simplefs_inode_add` the other. -/

/-- Neither word of the superblock has changed. -/
def SameCounts (fs fs' : Fs) : Prop :=
  fs'.dev.inodesCount = fs.dev.inodesCount ∧ fs'.dev.freeBlocks = fs.dev.freeBlocks

variable {fs fs' : Fs} {p : Nat} {x : Dentry} {c : DirCache} {e : CacheEntry} {name : Name}
  {mode : BitVec 16} {intr : Site → Bool} {lk : LockState Lock} {ino : BitVec 64} {v : SfsInode}

theorem SameCounts.trans {fs'' : Fs} (h : SameCounts fs fs') (h' : SameCounts fs' fs'') :
    SameCounts fs fs'' := ⟨h'.1.trans h.1, h'.2.trans h.2⟩

/-- A record inside a data block. -/
theorem sameCounts_recorded (hb : 2 ≤ x.inode.block)
    (he : e.entryNo < recordsPerBlock ∧ 264 * e.entryNo + name.bytes.length + 1 ≤ 4096) :
    SameCounts fs (fs.recorded p x c e name ino) := by
  have hagree := Device.agreeOff_putRecord_block fs.dev x.inode.block ino he.1 he.2
  exact ⟨Device.inodesCount_congr hagree (by omega), Device.freeBlocks_congr hagree (by omega)⟩

theorem sameCounts_addRecord (hx : fs.dentries p = some x) (hb : 2 ≤ x.inode.block)
    (h : addRecord p name ino fs = .ok ((), fs')) : SameCounts fs fs' := by
  obtain ⟨x', c, e, hx', -, -, hlt, rfl⟩ := addRecord_ok h
  cases hx.symm.trans hx'
  exact sameCounts_recorded hb hlt

theorem countChild_dev (h : countChild p fs = .ok ((), fs')) : fs'.dev = fs.dev := by
  obtain ⟨x, -, h⟩ := Fs.of_bind_dentry h
  cases h
  rfl

theorem sameCounts_saveInode {r : Bool} (h : saveInode p fs = .ok (r, fs')) :
    SameCounts fs fs' := by
  obtain ⟨x, -, ⟨-, rfl⟩ | ⟨-, i, -, -, rfl⟩⟩ := saveInode_ok h
  · exact ⟨rfl, rfl⟩
  · exact ⟨Device.inodesCount_setSlot _ _ _, Device.freeBlocks_setSlot _ _ _⟩

/-- **The tail of a create changes neither word**, however it ends and whether or not it finds
its lock free. -/
theorem sameCounts_createTail {ret : Int} (hx : fs.dentries p = some x)
    (hb : 2 ≤ x.inode.block) (hs : lk.held .sb = false)
    (h : (run intr (createTail p name v) lk fs).1 = .returned ret fs') : SameCounts fs fs' := by
  rw [← bind_pure (createTail p name v)] at h
  cases hm : lk.held .inodesMgmt with
  | true =>
    rw [run_createTail_held _ hm] at h
    cases ha : addRecord p name v.inodeNo fs with
    | error e =>
      rw [ha] at h
      cases h
    | ok r1 =>
      simp only [ha] at h
      split at h
      · cases h
        exact sameCounts_addRecord hx hb ha
      · cases h
  | false =>
    rw [run_createTail _ hm hs] at h
    cases ha : addRecord p name v.inodeNo fs with
    | error e =>
      rw [ha] at h
      cases h
    | ok r1 =>
      have h1 : SameCounts fs r1.2 := sameCounts_addRecord hx hb ha
      simp only [ha] at h
      split at h
      · cases h
        exact h1
      cases hcount : countChild p r1.2 with
      | error e =>
        rw [hcount] at h
        cases h
      | ok r2 =>
        have h2 : SameCounts fs r2.2 := by rw [SameCounts, countChild_dev hcount]; exact h1
        simp only [hcount] at h
        split at h
        · cases h
          exact h2
        cases hsave : saveInode p r2.2 with
        | error e =>
          rw [hsave] at h
          cases h
        | ok r3 =>
          obtain ⟨found, fs3⟩ := r3
          have h3 : SameCounts fs fs3 := h2.trans (sameCounts_saveInode hsave)
          simp only [hsave] at h
          split at h
          · cases h
            exact h3
          · cases h
            exact h3

/-! ## 4. A create that has its block -/

/-- The state once the inode is added. -/
def Fs.added (fs : Fs) (mode : BitVec 16) (i b : Nat) : Fs :=
  { fs.taken b with
    dev := (fs.taken b).dev.addAt i (newInode mode (i + 1) b)
    imap := setBit fs.imap (i + 1) }

/-- The parent's dentry once the entry `e` is moved and the child counted. -/
def Dentry.withChild (x : Dentry) (c' : DirCache) : Dentry :=
  { x with fsdata := some c', inode := { x.inode with fileSize := x.inode.fileSize + 1 } }

/-- The state in which `simplefs_inode_save` is called. -/
def Fs.counted (fs : Fs) (p : Nat) (x : Dentry) (c : DirCache) (e : CacheEntry) (name : Name)
    (ino : BitVec 64) : Fs :=
  (fs.recorded p x c e name ino).setDentry p
    (x.withChild ⟨c.dirChildrenCount, cacheEntryInsert c.used
      ⟨(fs.dev.putRecord x.inode.block e.entryNo ino name.bytes).record x.inode.block e.entryNo,
        e.entryNo⟩, listDel e c.free⟩)

/-- The directory's dentry is set twice, and no other one is. -/
theorem Fs.counted_dentries (fs : Fs) (p : Nat) (x : Dentry) (c : DirCache) (e : CacheEntry)
    (name : Name) (ino : BitVec 64) (d : Nat) :
    (fs.counted p x c e name ino).dentries d =
      if d = p then
        some (x.withChild ⟨c.dirChildrenCount, cacheEntryInsert c.used
          ⟨(fs.dev.putRecord x.inode.block e.entryNo ino name.bytes).record x.inode.block e.entryNo,
            e.entryNo⟩, listDel e c.free⟩)
      else fs.dentries d := by
  rw [counted, setDentry_dentries, recorded, setDentry_dentries]
  split <;> rfl

/-- **What a create does once it has a block**: which of the acquisitions in
`simplefs_inode_add` is interrupted decides in which state and with which locks it goes on. -/
theorem run_create_block (hx : fs.dentries p = some x) (hc : x.fsdata = some c)
    (hl : ∀ l, lk.held l = false) (hst : fs.CreateStarts mode intr)
    (hblk : intr .getAFreeblock = false) {b i : Nat}
    (hb : freeBlockScan fs.dev.freeBlocks = some b) (hi : ffz fs.imap = some (i + 1))
    (hi63 : i < 63) :
    (run intr (simplefsCreateFsObject p name mode) lk fs).1 =
      if intr .addMgmt then
        (run intr (createTail p name (newInode mode (i + 1) b)) (lk.take .childrenUpdate)
          (fs.taken b)).1
      else if intr .addSb then
        (run intr (createTail p name (newInode mode (i + 1) b))
          ((lk.take .childrenUpdate).take .inodesMgmt) (fs.taken b)).1
      else
        (run intr (createTail p name (newInode mode (i + 1) b)) (lk.take .childrenUpdate)
          (fs.added mode i b)).1 := by
  have hm : (lk.take .childrenUpdate).held .inodesMgmt = false := by simp [hl]
  have hsb : (lk.take .childrenUpdate).held .sb = false := by simp [hl]
  have hadd : addInode (newInode mode (i + 1) b) (fs.taken b) = .ok ((), fs.added mode i b) :=
    addInode_eq hi63 rfl
  rw [← bind_pure (simplefsCreateFsObject p name mode), run_create_started _ hx hc hl hst]
  simp only [hi, hblk, hb, Bool.false_eq_true, if_false, run_inodeAdd _ _ hm hsb, hadd, bind_pure]
  split
  · rfl
  split <;> rfl

/-- **A create that is turned away changes nothing.** -/
theorem run_create_turnedAway (hx : fs.dentries p = some x) (hc : x.fsdata = some c)
    (hl : ∀ l, lk.held l = false) (hk : fs.CreateStarts mode intr → ∃ k, ffz fs.imap = some k)
    (h : fs.TurnedAway mode intr) : ∃ err, err ≠ 0 ∧
      (run intr (simplefsCreateFsObject p name mode) lk fs).1 = .returned err fs := by
  rw [← bind_pure (simplefsCreateFsObject p name mode)]
  by_cases hst : fs.CreateStarts mode intr
  swap
  · obtain ⟨err, herr, hrun⟩ := run_create_refused pure hx hc hl hst
    exact ⟨err, herr, by rw [hrun]; rfl⟩
  obtain ⟨k, hk⟩ := hk hst
  rw [run_create_started pure hx hc hl hst]
  simp only [hk]
  rcases h with h | h | h
  · exact absurd hst h
  · rw [if_pos h]
    exact ⟨- EINTR, by decide, rfl⟩
  · split
    · exact ⟨- EINTR, by decide, rfl⟩
    · simp only [h]
      exact ⟨- ENOSPC, by decide, rfl⟩

/-- **The last part of the run**, when the tail finds its locks free and there is room. -/
theorem run_createTail_room (hx : fs.dentries p = some x) (hc : x.fsdata = some c)
    (he : freeCacheEntryGet c = some e)
    (hlt : e.entryNo < recordsPerBlock ∧ 264 * e.entryNo + name.bytes.length + 1 ≤ 4096)
    (hm : lk.held .inodesMgmt = false) (hs : lk.held .sb = false) :
    (run intr (createTail p name v) lk fs).1 =
      if intr .createMgmt then .returned (- EINTR) (fs.recorded p x c e name v.inodeNo)
      else if intr .save then .returned (- EINTR) (fs.counted p x c e name v.inodeNo)
      else match saveInode p (fs.counted p x c e name v.inodeNo) with
        | .error err => .faulted err
        | .ok (true, fs') => .returned 0 (fs'.dAdd p name v)
        | .ok (false, fs') => .returned (- EIO) fs' := by
  have hx' : (fs.recorded p x c e name v.inodeNo).dentries p = some { x with
      fsdata := some ⟨c.dirChildrenCount, cacheEntryInsert c.used
        ⟨(fs.dev.putRecord x.inode.block e.entryNo v.inodeNo name.bytes).record
          x.inode.block e.entryNo, e.entryNo⟩, listDel e c.free⟩ } := by
    rw [Fs.recorded, Fs.setDentry_dentries, if_pos rfl]
  have hcount : countChild p (fs.recorded p x c e name v.inodeNo) =
      .ok ((), fs.counted p x c e name v.inodeNo) := countChild_eq hx'
  rw [← bind_pure (createTail p name v), run_createTail _ hm hs, addRecord_eq hx hc he hlt]
  simp only [hcount]
  split
  · rfl
  split
  · rfl
  cases saveInode p (fs.counted p x c e name v.inodeNo) with
  | error err => rfl
  | ok r => obtain ⟨_ | _, fs'⟩ := r <;> rfl

/-- Without room the tail crashes. -/
theorem run_createTail_no_room (hno : ¬ fs.HasRoomFor p name)
    (hm : lk.held .inodesMgmt = false) (hs : lk.held .sb = false) :
    ∃ err, (run intr (createTail p name v) lk fs).1 = .faulted err := by
  rw [← bind_pure (createTail p name v), run_createTail _ hm hs]
  cases ha : addRecord p name v.inodeNo fs with
  | error err => exact ⟨err, rfl⟩
  | ok r => exact absurd (addRecord_ok_iff.mp ⟨r.2, ha⟩) hno

namespace Fs.SoundAt

/-- The number `ffz` picks. -/
theorem pick (hs : fs.SoundAt p x c) :
    ∃ i, ffz fs.imap = some (i + 1) ∧ i < 63 ∧ ¬ fs.dev.Live i := by
  obtain ⟨j, hj, hjl⟩ := hs.store.exists_dead
  obtain ⟨k, hk⟩ := hs.store.ffz_ne_none hj hjl
  obtain ⟨i, rfl, hi63, hil⟩ := hs.store.ffz_some hk
  exact ⟨i, hk, hi63, hil⟩

/-! ### The state once the inode is added -/

theorem slot_added (i b k : Nat) : (fs.added mode i b).dev.slot k =
    if k = i then newInode mode (i + 1) b else fs.dev.slot k := by
  simp only [Fs.added, Fs.taken, Device.slot_addAt, Device.slot_setFreeBlocks]

theorem live_added {i : Nat} (hi63 : i < 63) (b k : Nat) :
    (fs.added mode i b).dev.Live k ↔ k = i ∨ fs.dev.Live k := by
  have hno : (newInode mode (i + 1) b).inodeNo ≠ 0#64 := inoOf_ne_zero (show i < 128 by omega)
  rw [Fs.added, Device.live_addAt _ (by omega) hno]
  refine or_congr_right (Device.live_congr ?_)
  rw [Fs.taken, Device.slot_setFreeBlocks]

/-- The slots are as they were when the record is written. -/
theorem slot_counted (hb : 2 ≤ x.inode.block)
    (he : e.entryNo < recordsPerBlock ∧ 264 * e.entryNo + name.bytes.length + 1 ≤ 4096)
    {k : Nat} (hk : k < slotsPerBlock) :
    (fs.counted p x c e name ino).dev.slot k = fs.dev.slot k := by
  have hk' : k < 128 := hk
  exact Device.slot_congr (Device.agreeOff_putRecord_block fs.dev x.inode.block ino he.1 he.2)
    (by omega)

/-- **Saving the parent** finds its slot exactly when one of the slots holds its number: its own,
or the one that was just given to the new inode. -/
theorem saveInode_counted (hs : fs.SoundAt p x c) (mode : BitVec 16) (b : Nat) (ino : BitVec 64)
    {i : Nat} (hi63 : i < 63)
    (he : e.entryNo < recordsPerBlock ∧ 264 * e.entryNo + name.bytes.length + 1 ≤ 4096) :
    match saveInode p ((fs.added mode i b).counted p x c e name ino) with
    | .error _ => ¬ fs.dev.Live x.slot
    | .ok (false, _) => ¬ fs.dev.Live x.slot
    | .ok (true, fs') => (x.slot = i ∨ fs.dev.Live x.slot) ∧
        fs' = { (fs.added mode i b).counted p x c e name ino with
          dev := ((fs.added mode i b).counted p x c e name ino).dev.setSlot x.slot
            { x.inode with fileSize := x.inode.fileSize + 1 } } := by
  obtain ⟨u, hu⟩ : ∃ u, u = (fs.added mode i b).counted p x c e name ino := ⟨_, rfl⟩
  rw [← hu]
  have hslot : ∀ k, k < slotsPerBlock → u.dev.slot k = (fs.added mode i b).dev.slot k :=
    fun k hk => by rw [hu]; exact slot_counted hs.block.1 he hk
  have hlive : ∀ k, k < slotsPerBlock → (u.dev.Live k ↔ k = i ∨ fs.dev.Live k) := fun k hk =>
    (Device.live_congr (hslot k hk)).trans (live_added hi63 b k)
  have hno : ∀ k, u.dev.Live k → (u.dev.slot k).inodeNo = inoOf k := by
    intro k hk
    rw [hslot k hk.lt, slot_added]
    split
    · rename_i hki
      rw [hki]
      rfl
    · rename_i hki
      exact (hs.store.slots k (((hlive k hk.lt).mp hk).resolve_left hki)).1
  have hx' : ∃ c', u.dentries p = some (x.withChild c') := by
    rw [hu, Fs.counted]
    exact ⟨_, (Fs.setDentry_dentries _ _ _ _).trans (if_pos rfl)⟩
  obtain ⟨c', hx'⟩ := hx'
  have hnum : (x.withChild c').inode.inodeNo = inoOf x.slot := hs.number.2
  by_cases hl : u.dev.Live x.slot
  · have hfirst := firstSlot_live hno hl
    rw [← hnum] at hfirst
    rw [saveInode_found hx' hfirst]
    exact ⟨(hlive _ hs.number.1).mp hl, rfl⟩
  · have hdead : ¬ fs.dev.Live x.slot := fun h => hl ((hlive _ hs.number.1).mpr (Or.inr h))
    have habsent := absent_of_dead hno hs.number.1 hl
    rw [← hnum] at habsent
    rw [saveInode_absent hx' habsent]
    by_cases hpast : u.past = (x.withChild c').inode.inodeNo
    · rw [if_pos hpast]
      exact hdead
    · rw [if_neg hpast]
      exact hdead

/-- The state a create ends in. -/
def created (fs : Fs) (p : Nat) (x : Dentry) (c : DirCache) (e : CacheEntry) (name : Name)
    (mode : BitVec 16) (i b : Nat) : Fs :=
  { (fs.added mode i b).counted p x c e name (inoOf i) with
    dev := ((fs.added mode i b).counted p x c e name (inoOf i)).dev.setSlot x.slot
      { x.inode with fileSize := x.inode.fileSize + 1 } }.dAdd p name (newInode mode (i + 1) b)

theorem slot_created (hs : fs.SoundAt p x c) {i b : Nat}
    (he : e.entryNo < recordsPerBlock ∧ 264 * e.entryNo + name.bytes.length + 1 ≤ 4096)
    {k : Nat} (hk : k < slotsPerBlock) :
    (created fs p x c e name mode i b).dev.slot k =
      if k = x.slot then { x.inode with fileSize := x.inode.fileSize + 1 }
      else if k = i then newInode mode (i + 1) b else fs.dev.slot k := by
  change (((fs.added mode i b).counted p x c e name (inoOf i)).dev.setSlot x.slot _).slot k = _
  rw [Device.slot_setSlot, slot_counted hs.block.1 he hk, slot_added]

/-- The directory's records change by the one `putRecord`. -/
theorem record_created (hs : fs.SoundAt p x c) (e : CacheEntry) (name : Name) (mode : BitVec 16)
    {i : Nat} (b : Nat) (hi63 : i < 63) (k : Nat) :
    (created fs p x c e name mode i b).dev.record x.inode.block k =
      ((fs.added mode i b).dev.putRecord x.inode.block e.entryNo (inoOf i) name.bytes).record
        x.inode.block k ∧
    (fs.added mode i b).dev.record x.inode.block k = fs.dev.record x.inode.block k := by
  have h2 := hs.block.1
  constructor
  · exact Device.record_setSlot _ _ _ hs.number.1 h2
  · rw [Fs.added, Device.record_addAt _ _ _ (by omega) h2, Fs.taken,
      Device.record_setFreeBlocks _ _ _ (by omega)]

theorem counts_created (hs : fs.SoundAt p x c) (mode : BitVec 16) (i b : Nat)
    (he : e.entryNo < recordsPerBlock ∧ 264 * e.entryNo + name.bytes.length + 1 ≤ 4096) :
    (created fs p x c e name mode i b).dev.inodesCount = fs.dev.inodesCount + 1 ∧
      (created fs p x c e name mode i b).dev.freeBlocks = takeBlock fs.dev.freeBlocks b := by
  have h2 := hs.block.1
  have hagree := Device.agreeOff_putRecord_block (fs.added mode i b).dev x.inode.block (inoOf i)
    he.1 he.2
  obtain ⟨d, hd⟩ : ∃ d, d = (fs.added mode i b).dev.putRecord x.inode.block e.entryNo (inoOf i)
    name.bytes := ⟨_, rfl⟩
  rw [← hd] at hagree
  have hdev : (created fs p x c e name mode i b).dev = d.setSlot x.slot
      { x.inode with fileSize := x.inode.fileSize + 1 } := by rw [hd]; rfl
  rw [hdev, Device.inodesCount_setSlot, Device.freeBlocks_setSlot,
    Device.inodesCount_congr hagree (by omega), Device.freeBlocks_congr hagree (by omega)]
  simp only [Fs.added, Fs.taken, Device.inodesCount_addAt, Device.freeBlocks_addAt,
    Device.inodesCount_setFreeBlocks, Device.freeBlocks_setFreeBlocks, and_self]

/-- The parent's dentry has one child more. -/
theorem dentry_created (hs : fs.SoundAt p x c) (e : CacheEntry) (name : Name) (mode : BitVec 16)
    (i b : Nat) :
    ∃ c', (created fs p x c e name mode i b).dentries p = some (x.withChild c') := by
  have hne : p ≠ fs.next := by
    intro h
    have := hs.dentry
    rw [h, hs.fresh] at this
    cases this
  have hsame : (created fs p x c e name mode i b).dentries p =
      ((fs.added mode i b).counted p x c e name (inoOf i)).dentries p :=
    (Fs.dAdd_dentries _ _ _ _ _).trans (if_neg hne)
  rw [hsame, Fs.counted]
  exact ⟨_, (Fs.setDentry_dentries _ _ _ _).trans (if_pos rfl)⟩

/-- No dentry changes but the parent's and the new one. -/
theorem dentries_created (p : Nat) (x : Dentry) (c : DirCache) (e : CacheEntry) (name : Name)
    (mode : BitVec 16) (i b : Nat) {d : Nat} (hp : d ≠ p) (hnext : d ≠ fs.next) :
    (created fs p x c e name mode i b).dentries d = fs.dentries d := by
  have hcount := (fs.added mode i b).counted_dentries p x c e name (inoOf i) d
  rw [if_neg hp] at hcount
  exact (Fs.dAdd_dentries _ _ _ _ _).trans ((if_neg hnext).trans hcount)

/-- The free entry that a create takes. -/
theorem free_entry (hs : fs.SoundAt p x c) (he : freeCacheEntryGet c = some e) :
    e.entryNo < recordsPerBlock ∧ (fs.dev.record x.inode.block e.entryNo).inodeNo = 0#64 :=
  hs.agrees.free_entry (List.mem_of_mem_head? he)

/-! ### What follows from success -/

/-- **If the effect is whole, nothing was in its way**: the parent was in the store, and the
record kept its number. -/
theorem found_of_created (hs : fs.SoundAt p x c) {i b : Nat} (hi63 : i < 63)
    (hil : ¬ fs.dev.Live i) (he : freeCacheEntryGet c = some e)
    (hlt : e.entryNo < recordsPerBlock ∧ 264 * e.entryNo + name.bytes.length + 1 ≤ 4096)
    (hfound : x.slot = i ∨ fs.dev.Live x.slot) {i' b' j : Nat}
    (hc : CreatedAt fs (created fs p x c e name mode i b) p x name mode i' b' j) :
    fs.dev.Live x.slot ∧ NameKeeps name.bytes (inoOf i) := by
  obtain ⟨hi128, hdead⟩ := hc.empty
  have hslot := hc.slot
  rw [slot_created hs hlt hi128] at hslot
  have hi'no : (newInode mode (i' + 1) b').inodeNo = inoOf i' := rfl
  -- the new inode is in the slot that was picked
  have hcase : i' = i ∨ i' = x.slot := by
    by_contra hno
    rw [not_or] at hno
    rw [if_neg hno.2, if_neg hno.1] at hslot
    refine hdead ⟨hi128, ?_⟩
    rw [hslot, hi'no]
    exact inoOf_ne_zero hi128
  have hlive : fs.dev.Live x.slot := by
    by_contra hlost
    have hxi : x.slot = i := hfound.resolve_right hlost
    have hi'x : i' = x.slot := hcase.elim (fun h => h.trans hxi.symm) id
    -- then it is overwritten with the parent's inode, whose block was not free
    rw [if_pos hi'x] at hslot
    obtain ⟨h3, h64, htest, -⟩ := hc.block
    have hblock : x.inode.block = b' := by
      have := congrArg SfsInode.block hslot
      simp only [SfsInode.block, newInode, BitVec.toNat_ofNat] at this ⊢
      have h64' : b' < 64 := h64
      omega
    have havail := hs.store.high.test_iff.mp htest
    rw [← hblock] at havail h3
    exact hs.block.2.2 h3 havail
  refine ⟨hlive, ?_⟩
  have hi'i : i' = i := hcase.resolve_right fun h => hdead (h ▸ hlive)
  subst hi'i
  -- the record that carries the number is the one that was written
  obtain ⟨hj, -, hnum, -⟩ := hc.record
  have hino : 0 < (inoOf i').toNat ∧ (inoOf i').toNat < 256 := by
    rw [toNat_inoOf hi128]
    omega
  have hrec := hs.record_created e name mode b hi63
  rw [(hrec j).1] at hnum
  refine (Device.inodeNo_putRecord_iff (fs.added mode i' b).dev x.inode.block e.entryNo name.noNul
    hino.1 hino.2).mp ?_
  by_cases hje : j = e.entryNo
  · rw [← hje] at hnum ⊢
    exact hnum
  -- another record would be untouched, and so would the one written
  have hothers := hc.others e.entryNo hlt.1 (Ne.symm hje)
  have hzero := (free_entry hs he).2
  rw [(hrec _).1] at hothers
  rcases Nat.lt_or_ge name.bytes.length 257 with hshort | hlong
  · rw [Device.record_putRecord_ne _ _ (by omega) hlt.1 hj fun h => hje h.2, (hrec j).2,
      hc.record.2.1] at hnum
    exact absurd hnum.symm (inoOf_ne_zero hi128)
  · refine absurd ?_ (Device.inodeNo_putRecord_ne_zero (fs.added mode i' b).dev x.inode.block
      e.entryNo (inoOf i') name.noNul hlong)
    rw [hothers, hzero]

/-! ### And what makes it succeed -/

/-- A name that a record keeps ends inside the block. -/
theorem room_of_keeps (hs : fs.SoundAt p x c) (he : freeCacheEntryGet c = some e)
    (hk : NameKeeps name.bytes ino) :
    e.entryNo < recordsPerBlock ∧ 264 * e.entryNo + name.bytes.length + 1 ≤ 4096 := by
  have h15 : e.entryNo < 15 := (hs.free_entry he).1
  refine ⟨h15, ?_⟩
  rcases hk with h | ⟨h, -⟩ <;> omega

/-- **The whole effect.** -/
theorem createdAt (hs : fs.SoundAt p x c) {i b : Nat} (hi63 : i < 63) (hil : ¬ fs.dev.Live i)
    (hb : freeBlockScan fs.dev.freeBlocks = some b) (he : freeCacheEntryGet c = some e)
    (hk : NameKeeps name.bytes (inoOf i)) (hlive : fs.dev.Live x.slot) :
    CreatedAt fs (created fs p x c e name mode i b) p x name mode i b e.entryNo := by
  have hlt := hs.room_of_keeps he hk
  have hi128 : i < slotsPerBlock := Nat.lt_trans hi63 (by decide)
  have hix : i ≠ x.slot := fun h => hil (h ▸ hlive)
  have hn263 : name.bytes.length ≤ 263 := by rcases hk with h | ⟨h, -⟩ <;> omega
  have hino : 0 < (inoOf i).toNat ∧ (inoOf i).toNat < 256 := by
    rw [toNat_inoOf hi128]
    omega
  have hrec := hs.record_created e name mode b hi63
  obtain ⟨hcount, hfree⟩ := hs.counts_created mode i b hlt
  refine ⟨⟨hi128, hil⟩, ?_, ⟨?_, ?_⟩, hcount, ?_, ?_, ?_, ?_, ?_⟩
  · rw [slot_created hs hlt hi128, if_neg hix, if_pos rfl]
  · rw [← Bool.not_eq_true, hs.store.imap_iff i hi63]
    exact hil
  · change (setBit fs.imap (i + 1)).getLsbD (i + 1) = true
    rw [getLsbD_setBit _ _ (by omega)]
    simp
  · obtain ⟨h3, h64, htest⟩ := freeBlockScan_some hb
    refine ⟨h3, h64, htest, ?_⟩
    rw [hfree, ← Bool.not_eq_true, (hs.store.high.takeBlock b).test_iff, Avail,
      getLsbD_takeBlock _ _ (by omega), Bool.and_eq_true]
    simp
  · refine ⟨hlt.1, (hs.free_entry he).2, ?_, ?_⟩
    · rw [(hrec _).1]
      exact (Device.inodeNo_putRecord_iff _ _ _ name.noNul hino.1 hino.2).mpr hk
    · rw [(hrec _).1]
      exact Device.filename_putRecord _ _ _ _ hn263 name.noNul
  · intro k hk15 hke
    rw [(hrec k).1, Device.record_putRecord_ne _ _ hn263 hlt.1 hk15 fun h => hke h.2, (hrec k).2]
  · obtain ⟨c', hx'⟩ := hs.dentry_created e name mode i b
    exact ⟨_, hx', rfl⟩
  · rw [slot_created hs hlt hs.number.1, if_pos rfl, hs.disk hlive]

/-! ## 5. When a create is sound -/

theorem run_turnedAway (hs : fs.SoundAt p x c) (hl : ∀ l, lk.held l = false)
    (h : fs.TurnedAway mode intr) : ∃ err, err ≠ 0 ∧
      (run intr (simplefsCreateFsObject p name mode) lk fs).1 = .returned err fs := by
  obtain ⟨i, hi, -, -⟩ := hs.pick
  exact run_create_turnedAway hs.dentry hs.fsdata hl (fun _ => ⟨_, hi⟩) h

/-- Turned away, it has no effect. -/
theorem sound_of_turnedAway (hs : fs.SoundAt p x c) (hl : ∀ l, lk.held l = false)
    (h : fs.TurnedAway mode intr) :
    CreateSound fs p x name mode (run intr (simplefsCreateFsObject p name mode) lk fs).1 := by
  obtain ⟨err, herr, hrun⟩ := hs.run_turnedAway hl h
  rw [hrun]
  exact ⟨err, fs, rfl, fun h0 => absurd h0 herr, fun _ =>
    ⟨rfl, rfl, rfl, fun _ _ => rfl, fun _ _ => rfl, x, hs.dentry, rfl, rfl⟩⟩

/-- Once a block is taken there is no way back, and without the inode none forward. -/
theorem not_sound_of_taken {b : Nat} (hb : freeBlockScan fs.dev.freeBlocks = some b)
    (hs : fs.SoundAt p x c) {r : Ending Fs Lock Fault Int}
    (hr : ∀ ret fs', r = .returned ret fs' →
      fs'.dev.freeBlocks = takeBlock fs.dev.freeBlocks b ∧
        (ret = 0 → fs'.dev.inodesCount = fs.dev.inodesCount)) :
    ¬ CreateSound fs p x name mode r := by
  rintro ⟨ret, fs', rfl, hdone, hkept⟩
  obtain ⟨hfree, hcount⟩ := hr ret fs' rfl
  by_cases h0 : ret = 0
  · obtain ⟨i, b', j, hc⟩ := hdone h0
    have := hc.inodesCount
    rw [hcount h0] at this
    bv_omega
  · have heq := (hkept h0).freeBlocks
    have htest := (freeBlockScan_some hb).2.2
    rw [← heq, hfree, (hs.store.high.takeBlock b).test_iff, Avail,
      getLsbD_takeBlock _ _ (by omega), Bool.and_eq_true] at htest
    simp at htest

/-- **A sound create was turned away or went through.** -/
theorem goesThrough (hs : fs.SoundAt p x c) (hl : ∀ l, lk.held l = false)
    (hno : ¬ fs.TurnedAway mode intr)
    (h : CreateSound fs p x name mode (run intr (simplefsCreateFsObject p name mode) lk fs).1) :
    fs.GoesThrough x name intr := by
  obtain ⟨hst, hblk, b, hb⟩ := Fs.starts_of_not_turnedAway hno
  obtain ⟨i, hi, hi63, hil⟩ := hs.pick
  have hsb : (lk.take .childrenUpdate).held .sb = false := by simp [hl]
  have hm : (lk.take .childrenUpdate).held .inodesMgmt = false := by simp [hl]
  have hsb' : ((lk.take .childrenUpdate).take .inodesMgmt).held .sb = false := by simp [hl]
  -- without the inode in the store
  have htaken : ∀ ret fs', SameCounts (fs.taken b) fs' →
      fs'.dev.freeBlocks = takeBlock fs.dev.freeBlocks b ∧
        (ret = (0 : Int) → fs'.dev.inodesCount = fs.dev.inodesCount) := by
    intro ret fs' hsame
    refine ⟨hsame.2.trans (Device.freeBlocks_setFreeBlocks _ _), fun _ => ?_⟩
    exact hsame.1.trans (Device.inodesCount_setFreeBlocks _ _)
  rw [run_create_block hs.dentry hs.fsdata hl hst hblk hb hi hi63] at h
  cases h1 : intr .addMgmt with
  | true =>
    rw [h1, if_pos rfl] at h
    exact absurd h (not_sound_of_taken hb hs fun ret fs' hr =>
      htaken ret fs' (sameCounts_createTail hs.dentry hs.block.1 hsb hr))
  | false =>
  cases h2 : intr .addSb with
  | true =>
    rw [h1, h2, if_neg Bool.false_ne_true, if_pos rfl] at h
    exact absurd h (not_sound_of_taken hb hs fun ret fs' hr =>
      htaken ret fs' (sameCounts_createTail hs.dentry hs.block.1 hsb' hr))
  | false =>
  rw [h1, h2, if_neg Bool.false_ne_true, if_neg Bool.false_ne_true] at h
  -- with it, an error still leaves the block taken
  have herror : ∀ ret fs', ret ≠ 0 → SameCounts (fs.added mode i b) fs' →
      ¬ CreateSound fs p x name mode (.returned ret fs') := by
    intro ret fs' h0 hsame
    refine not_sound_of_taken hb hs fun ret' fs'' hr => ?_
    cases hr
    refine ⟨hsame.2.trans ?_, fun h => absurd h h0⟩
    simp only [Fs.added, Fs.taken, Device.freeBlocks_addAt, Device.freeBlocks_setFreeBlocks]
  have hx : (fs.added mode i b).dentries p = some x := hs.dentry
  by_cases hroom : (fs.added mode i b).HasRoomFor p name
  swap
  · obtain ⟨err, hrun⟩ := run_createTail_no_room hroom hm hsb
    rw [hrun] at h
    obtain ⟨_, _, hr, -⟩ := h
    cases hr
  obtain ⟨x', c', e, hx', hc', he, hlt⟩ := hroom
  cases hx.symm.trans hx'
  cases hs.fsdata.symm.trans hc'
  rw [run_createTail_room hx hs.fsdata he hlt hm hsb] at h
  have hrecorded : SameCounts (fs.added mode i b)
      ((fs.added mode i b).recorded p x c e name (newInode mode (i + 1) b).inodeNo) :=
    sameCounts_recorded hs.block.1 hlt
  have hcounted : SameCounts (fs.added mode i b)
      ((fs.added mode i b).counted p x c e name (newInode mode (i + 1) b).inodeNo) := hrecorded
  split at h
  · exact absurd h (herror _ _ (by decide) hrecorded)
  rename_i h3
  split at h
  · exact absurd h (herror _ _ (by decide) hcounted)
  rename_i h4
  have hsave := hs.saveInode_counted mode b (inoOf i) hi63 hlt
  change CreateSound fs p x name mode (match saveInode p
    ((fs.added mode i b).counted p x c e name (inoOf i)) with
      | .error err => .faulted err
      | .ok (true, fs') => .returned 0 (fs'.dAdd p name (newInode mode (i + 1) b))
      | .ok (false, fs') => .returned (- EIO) fs') at h
  cases hrun : saveInode p ((fs.added mode i b).counted p x c e name (inoOf i)) with
  | error err =>
    rw [hrun] at h
    obtain ⟨_, _, hr, -⟩ := h
    cases hr
  | ok r =>
    obtain ⟨found, fs'⟩ := r
    cases found with
    | false =>
      rw [hrun] at h
      exact absurd h (herror _ _ (by decide) (hcounted.trans (sameCounts_saveInode hrun)))
    | true =>
      rw [hrun] at h hsave
      obtain ⟨hfound, rfl⟩ := hsave
      obtain ⟨ret, fs', hr, hdone, -⟩ := h
      cases hr
      obtain ⟨i', b', j, hc⟩ := hdone rfl
      obtain ⟨hlive, hkeep⟩ := hs.found_of_created hi63 hil he hlt hfound hc
      refine ⟨⟨h1, h2, by simpa using h3, by simpa using h4⟩, hlive, ⟨_, hs.free_entry he⟩, ?_⟩
      intro k hk
      cases hi.symm.trans hk
      exact hkeep

/-- What a create that goes through has picked: an inode number, a block and a free entry. -/
structure Picked (fs : Fs) (c : DirCache) (name : Name) (i b : Nat) (e : CacheEntry) : Prop where
  lt : i < 63
  dead : ¬ fs.dev.Live i
  block : freeBlockScan fs.dev.freeBlocks = some b
  entry : freeCacheEntryGet c = some e
  keeps : NameKeeps name.bytes (inoOf i)

/-- **A create that goes through ends in the state that has its whole effect.** -/
theorem run_goesThrough (hs : fs.SoundAt p x c) (hl : ∀ l, lk.held l = false)
    (hno : ¬ fs.TurnedAway mode intr) (h : fs.GoesThrough x name intr) :
    ∃ i b e, Picked fs c name i b e ∧ (run intr (simplefsCreateFsObject p name mode) lk fs).1 =
      .returned 0 (created fs p x c e name mode i b) := by
  obtain ⟨hst, hblk, b, hb⟩ := Fs.starts_of_not_turnedAway hno
  obtain ⟨i, hi, hi63, hil⟩ := hs.pick
  have hsb : (lk.take .childrenUpdate).held .sb = false := by simp [hl]
  have hm : (lk.take .childrenUpdate).held .inodesMgmt = false := by simp [hl]
  obtain ⟨h1, h2, h3, h4⟩ := h.quiet
  obtain ⟨e, l, hel⟩ := List.exists_cons_of_ne_nil (hs.agrees.free_ne_nil_iff.mpr h.room)
  have he : freeCacheEntryGet c = some e := by rw [freeCacheEntryGet, hel, List.head?_cons]
  have hkeep := h.fits _ hi
  have hlt := hs.room_of_keeps he hkeep
  have hx : (fs.added mode i b).dentries p = some x := hs.dentry
  refine ⟨i, b, e, ⟨hi63, hil, hb, he, hkeep⟩, ?_⟩
  rw [run_create_block hs.dentry hs.fsdata hl hst hblk hb hi hi63, h1, h2,
    if_neg Bool.false_ne_true, if_neg Bool.false_ne_true,
    run_createTail_room hx hs.fsdata he hlt hm hsb, h3, h4, if_neg Bool.false_ne_true,
    if_neg Bool.false_ne_true]
  have hsave := hs.saveInode_counted mode b (inoOf i) hi63 hlt
  change ((match saveInode p ((fs.added mode i b).counted p x c e name (inoOf i)) with
      | .error err => .faulted err
      | .ok (true, fs') => .returned 0 (fs'.dAdd p name (newInode mode (i + 1) b))
      | .ok (false, fs') => .returned (- EIO) fs') : Ending Fs Lock Fault Int) = _
  cases hrun : saveInode p ((fs.added mode i b).counted p x c e name (inoOf i)) with
  | error err =>
    rw [hrun] at hsave
    exact absurd h.found hsave
  | ok r =>
    obtain ⟨found, fs'⟩ := r
    rw [hrun] at hsave
    cases found with
    | false => exact absurd h.found hsave
    | true =>
      obtain ⟨-, rfl⟩ := hsave
      rfl

/-- **One that goes through has its whole effect.** -/
theorem sound_of_goesThrough (hs : fs.SoundAt p x c) (hl : ∀ l, lk.held l = false)
    (hno : ¬ fs.TurnedAway mode intr) (h : fs.GoesThrough x name intr) :
    CreateSound fs p x name mode (run intr (simplefsCreateFsObject p name mode) lk fs).1 := by
  obtain ⟨i, b, e, hp, hrun⟩ := hs.run_goesThrough hl hno h
  rw [hrun]
  exact ⟨0, _, rfl,
    fun _ => ⟨i, b, _, hs.createdAt hp.lt hp.dead hp.block hp.entry hp.keeps h.found⟩,
    fun h0 => absurd rfl h0⟩

end Fs.SoundAt

/-- **A create is all or nothing exactly when it is turned away before it takes a block, or goes
through.** -/
theorem createSound_iff (hs : fs.SoundAt p x c) (hl : ∀ l, lk.held l = false) (name : Name)
    (mode : BitVec 16) (intr : Site → Bool) :
    CreateSound fs p x name mode (run intr (simplefsCreateFsObject p name mode) lk fs).1 ↔
      fs.TurnedAway mode intr ∨ fs.GoesThrough x name intr := by
  constructor
  · intro h
    by_cases haway : fs.TurnedAway mode intr
    · exact Or.inl haway
    · exact Or.inr (hs.goesThrough hl haway h)
  · intro h
    by_cases haway : fs.TurnedAway mode intr
    · exact hs.sound_of_turnedAway hl haway
    · exact hs.sound_of_goesThrough hl haway (h.resolve_left haway)

/-! ### In the root of a fresh image -/

theorem listedFs_soundAt : listedFs.SoundAt 0 listedRoot (dirCacheOf freshFs freshRoot) :=
  listedFs_inv.soundAt listedFs_root rfl

/-- A block is free, and nothing turns the create of a file or a directory away. -/
theorem listedFs_not_turnedAway {intr : Site → Bool} {mode : BitVec 16}
    (hmode : isDir (mode.setWidth 32) = true ∨ isReg (mode.setWidth 32) = true)
    (h1 : intr .createChildren = false) (h2 : intr .getObjectsCount = false)
    (h3 : intr .getAFreeblock = false) : ¬ listedFs.TurnedAway mode intr := by
  have hcount : listedFs.dev.inodesCount = 2#64 := freshDevice.inodesCount
  have hfree : listedFs.dev.freeBlocks = initialFreeBlocks := freshDevice.freeBlocks
  rw [Fs.TurnedAway, not_or, not_or, not_not, h3, hfree]
  refine ⟨⟨h1, h2, ?_, hmode⟩, Bool.false_ne_true, by decide⟩
  rw [hcount]
  decide

/-- A file, made without an interruption. -/
theorem createSound_iff_listed : CreateSound listedFs 0 listedRoot newName 0x81a4
    (run quiet (simplefsCreateFsObject 0 newName 0x81a4) LockState.free listedFs).1 := by
  exact (createSound_iff listedFs_soundAt (fun _ => rfl) newName 0x81a4 quiet).mpr
    (Or.inr (listedFs_inv.goesThrough listedFs_root ⟨listedFs_hasFreeEntry, by decide⟩))

/-- **A file, made while a signal interrupts the acquisition after the record is written**: the
call returns `-EINTR` with the inode, its block and its record in place. -/
theorem create_interrupted_not_sound : ¬ CreateSound listedFs 0 listedRoot newName 0x81a4
    (run (fun site => site = .createMgmt) (simplefsCreateFsObject 0 newName 0x81a4)
      LockState.free listedFs).1 := by
  intro h
  have hgo := listedFs_soundAt.goesThrough (fun _ => rfl)
    (listedFs_not_turnedAway (Or.inr (by decide)) (by decide) (by decide) (by decide)) h
  exact absurd hgo.quiet.2.2.1 (by decide)

end Simplefs
