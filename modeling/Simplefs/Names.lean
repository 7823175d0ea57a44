/-
# What a create makes of a name

`simplefs_create_fs_object` sets the record's `inode_no` and then runs `strcpy` on the 255 bytes
before it.  Nobody bounds the name: the VFS hands over components of any length, and neither
lookup nor create asks for it.  Up to 255 bytes the name and its NUL stay in front of `inode_no`,
the NUL of the longest one in the padding byte.  From 256 bytes on the name runs into `inode_no`,
and further on into the next records.

The directory is asked for less than the invariant of a mounted filesystem, in particular nothing
about the other directories or about the blocks that are free.
-/
import Simplefs.Create

namespace Simplefs

open Prog (run LockState Ending)

/-! ## 1. What a create has to do with a name -/

/-- The cache matches record `j` for the name `name` and for no other. -/
def DirCache.MatchesOnly (c : DirCache) (records : Nat → DirRecord) (j : Nat) (name : Name) :
    Prop :=
  usedCacheEntryGet c name = some ⟨records j, j⟩ ∧
    ∀ other e, other ≠ name → usedCacheEntryGet c other = some e → e.entryNo ≠ j

/-- **The name is stored** in record `j` of the directory of dentry `p`, under inode number
`ino`. -/
structure StoredAt (fs fs' : Fs) (p : Nat) (x : Dentry) (name : Name) (ino : BitVec 64)
    (j : Nat) : Prop where
  free : j < recordsPerBlock ∧ (fs.dev.record x.inode.block j).inodeNo = 0#64
  number : (fs'.dev.record x.inode.block j).inodeNo = ino
  others : ∀ k, k < recordsPerBlock → k ≠ j →
    fs'.dev.record x.inode.block k = fs.dev.record x.inode.block k
  /-- The bytes around the record, beyond the superblock and the inode store. -/
  around : ∀ a, 8192 ≤ a → a < 4096 * x.inode.block + 264 * j ∨
    4096 * x.inode.block + 264 * j + 264 ≤ a → fs'.dev a = fs.dev a
  live : ∃ x' c', fs'.dentries p = some x' ∧ x'.fsdata = some c' ∧
    c'.MatchesOnly (fs'.dev.record x.inode.block) j name
  rebuilt : (dirCacheBuild simplefsCacheAlloc (fs'.dev.record x.inode.block)).MatchesOnly
    (fs'.dev.record x.inode.block) j name

/-- **The name is rejected, or stored under the number that `ffz` picks.** -/
def NameHandled (fs : Fs) (p : Nat) (x : Dentry) (name : Name) (r : Ending Fs Lock Fault Int) :
    Prop :=
  ∃ ret fs', r = .returned ret fs' ∧ (ret ≠ 0 ∧ fs' = fs ∨
    ∃ ino j, ffz fs.imap = some ino ∧ StoredAt fs fs' p x name (BitVec.ofNat 64 ino) j)

/-! ## 2. The directory, and the condition -/

/-- A directory whose cache has been built and agrees with its block.  There is a free inode
number, and the directory's own inode is in the inode store, at another place than the one of
that number. -/
structure Fs.OpenDir (fs : Fs) (p : Nat) (x : Dentry) (c : DirCache) : Prop where
  dentry : fs.dentries p = some x
  fsdata : x.fsdata = some c
  agrees : c.Agrees (fs.dev.record x.inode.block)
  block : 2 ≤ x.inode.block
  fresh : fs.dentries fs.next = none
  number : ∃ i, ffz fs.imap = some (i + 1)
  found : ∃ k, k < slotsPerBlock ∧ (fs.dev.slot k).inodeNo = x.inode.inodeNo ∧
    ffz fs.imap ≠ some (k + 1)

/-- `simplefs_inode_add` keeps the lock that the create then waits for. -/
def WaitsForItself (intr : Site → Bool) : Prop :=
  intr .addMgmt = false ∧ intr .addSb = true ∧ intr .createMgmt = false

variable {fs fs' : Fs} {p : Nat} {x : Dentry} {c : DirCache} {e : CacheEntry} {name : Name}
  {mode : BitVec 16} {intr : Site → Bool} {lk : LockState Lock} {ino : BitVec 64} {v : SfsInode}

/-- A directory of a consistent filesystem is one, as long as its inode is in the store. -/
theorem Fs.SoundAt.openDir (hs : fs.SoundAt p x c) (hl : fs.dev.Live x.slot) :
    fs.OpenDir p x c := by
  obtain ⟨i, hi, hi63, hil⟩ := hs.pick
  refine ⟨hs.dentry, hs.fsdata, hs.agrees, hs.block.1, hs.fresh, ⟨i, hi⟩, x.slot, hl.lt, ?_, ?_⟩
  · rw [hs.disk hl]
  · intro h
    rw [hi, Option.some.injEq] at h
    obtain rfl : i = x.slot := by omega
    exact hil hl

/-! ## 3. One name in a cache -/

/-- A name that one live record bears, and no other, is found there. -/
theorem DirCache.Agrees.usedCacheEntryGet_unique {r : Nat → DirRecord} (hc : c.Agrees r) {j : Nat}
    (hj : j < recordsPerBlock) (hl : (r j).inodeNo ≠ 0#64) (hn : (r j).filename = name.bytes)
    (hno : ∀ k, k < recordsPerBlock → k ≠ j → (r k).inodeNo ≠ 0#64 →
      (r k).filename ≠ name.bytes) : c.MatchesOnly r j name := by
  constructor
  · cases hget : usedCacheEntryGet c name with
    | none => exact absurd hn (hc.usedCacheEntryGet_none hget hj hl)
    | some e =>
      obtain ⟨-, hlt, hlive, hrec, hname⟩ := hc.usedCacheEntryGet_some hget
      have hej : e.entryNo = j := by
        by_contra hne
        exact hno _ hlt hne hlive hname
      exact congrArg some (CacheEntry.ext (by rw [hrec, hej]) hej)
  · intro other e hne hget hej
    obtain ⟨-, -, -, -, hname⟩ := hc.usedCacheEntryGet_some hget
    rw [hej, hn] at hname
    exact hne (Name.ext hname.symm)

/-! ## 4. The record as it is written -/

/-- **The state once the record of entry `e` is written**, whatever happens to the superblock and
the inode store. -/
structure Written (fs fs' : Fs) (p : Nat) (x : Dentry) (c : DirCache) (e : CacheEntry)
    (name : Name) (ino : BitVec 64) : Prop where
  bytes : ∀ a, 8192 ≤ a → fs'.dev a = fs.dev.putRecord x.inode.block e.entryNo ino name.bytes a
  cache : ∃ x', fs'.dentries p = some x' ∧ x'.fsdata = some ⟨c.dirChildrenCount,
    cacheEntryInsert c.used ⟨fs'.dev.record x.inode.block e.entryNo, e.entryNo⟩, listDel e c.free⟩

theorem Written.record (h : Written fs fs' p x c e name ino) (hb : 2 ≤ x.inode.block) (k : Nat) :
    fs'.dev.record x.inode.block k =
      (fs.dev.putRecord x.inode.block e.entryNo ino name.bytes).record x.inode.block k :=
  recordAt_congr fun a ha _ => h.bytes a (by omega)

/-- It is not the state from before. -/
theorem Written.ne (h : Written fs fs' p x c e name ino) (hd : fs.OpenDir p x c)
    (he : freeCacheEntryGet c = some e) : fs' ≠ fs := by
  rintro rfl
  obtain ⟨x', hx', hc'⟩ := h.cache
  cases hd.dentry.symm.trans hx'
  obtain ⟨l, hl⟩ : ∃ l, c.free = e :: l := List.head?_eq_some_iff.mp he
  have hfree := congrArg DirCache.free (Option.some.inj (hd.fsdata.symm.trans hc'))
  simp only [hl, listDel, List.eraseP_cons, beq_self_eq_true, cond_true] at hfree
  have := congrArg List.length hfree
  simp at this

section

variable (hd : fs.OpenDir p x c) (he : freeCacheEntryGet c = some e)
include hd he

theorem Fs.OpenDir.free_entry :
    e.entryNo < recordsPerBlock ∧ (fs.dev.record x.inode.block e.entryNo).inodeNo = 0#64 :=
  hd.agrees.free_entry (List.mem_of_mem_head? he)

/-- **A name that leaves the number alone is stored.** -/
theorem Written.storedAt (h : Written fs fs' p x c e name ino)
    (habs : usedCacheEntryGet c name = none) (hino : 0 < ino.toNat ∧ ino.toNat < 256)
    (hk : NameKeeps name.bytes ino) : StoredAt fs fs' p x name ino e.entryNo := by
  have h2 := hd.block
  obtain ⟨h15, hzero⟩ := hd.free_entry he
  have hn263 : name.bytes.length ≤ 263 := by rcases hk with h | ⟨h, -⟩ <;> omega
  have hnum : (fs'.dev.record x.inode.block e.entryNo).inodeNo = ino := by
    rw [h.record h2]
    exact (Device.inodeNo_putRecord_iff _ _ _ name.noNul hino.1 hino.2).mpr hk
  have hname : (fs'.dev.record x.inode.block e.entryNo).filename = name.bytes := by
    rw [h.record h2]
    exact Device.filename_putRecord _ _ _ _ hn263 name.noNul
  have hothers : ∀ k, k < recordsPerBlock → k ≠ e.entryNo →
      fs'.dev.record x.inode.block k = fs.dev.record x.inode.block k := fun k hk15 hke => by
    rw [h.record h2, Device.record_putRecord_ne _ _ hn263 h15 hk15 fun hc => hke hc.2]
  have hlive : (fs'.dev.record x.inode.block e.entryNo).inodeNo ≠ 0#64 := by
    rw [hnum]
    intro h0
    rw [h0] at hino
    exact absurd hino.1 (by decide)
  have hunique : ∀ k, k < recordsPerBlock → k ≠ e.entryNo →
      (fs'.dev.record x.inode.block k).inodeNo ≠ 0#64 →
      (fs'.dev.record x.inode.block k).filename ≠ name.bytes := by
    intro k hk15 hke
    rw [hothers k hk15 hke]
    exact hd.agrees.usedCacheEntryGet_none habs hk15
  refine ⟨⟨h15, hzero⟩, hnum, hothers, fun a ha hout => ?_, ?_, ?_⟩
  · rw [h.bytes a ha]
    exact Device.agreeOff_putRecord fs.dev x.inode.block e.entryNo ino hn263 a hout
  · obtain ⟨x', hx', hc'⟩ := h.cache
    obtain ⟨l, hl⟩ : ∃ l, c.free = e :: l := List.head?_eq_some_iff.mp he
    have hdel : listDel e c.free = l := by
      rw [hl, listDel, List.eraseP_cons, beq_self_eq_true, cond_true]
    have hagrees : DirCache.Agrees ⟨c.dirChildrenCount, cacheEntryInsert c.used
        ⟨fs'.dev.record x.inode.block e.entryNo, e.entryNo⟩, listDel e c.free⟩
        (fs'.dev.record x.inode.block) := by
      rw [hdel]
      exact hd.agrees.take hl rfl hlive rfl hothers
    exact ⟨x', _, hx', hc', hagrees.usedCacheEntryGet_unique h15 hlive hname hunique⟩
  · exact (dirCacheBuild_agrees _).usedCacheEntryGet_unique h15 hlive hname hunique

/-- **And no other name is**: the record that is found free before and bears the number afterwards
is the one that was written. -/
theorem Written.keeps (h : Written fs fs' p x c e name ino)
    (hino : 0 < ino.toNat ∧ ino.toNat < 256) {j : Nat} (hst : StoredAt fs fs' p x name ino j) :
    NameKeeps name.bytes ino := by
  have h2 := hd.block
  obtain ⟨h15, hzero⟩ := hd.free_entry he
  have hnum := hst.number
  rw [h.record h2] at hnum
  by_cases hje : j = e.entryNo
  · rw [hje] at hnum
    exact (Device.inodeNo_putRecord_iff _ _ _ name.noNul hino.1 hino.2).mp hnum
  -- a short name has not touched record `j`, and a long one has changed record `e`
  rcases Nat.lt_or_ge name.bytes.length 257 with hshort | hlong
  · rw [Device.record_putRecord_ne _ _ (by omega) h15 hst.free.1 fun hc => hje hc.2,
      hst.free.2] at hnum
    rw [← hnum] at hino
    exact absurd hino.1 (by decide)
  · have hothers := hst.others e.entryNo h15 (Ne.symm hje)
    rw [h.record h2] at hothers
    refine absurd ?_ (Device.inodeNo_putRecord_ne_zero fs.dev x.inode.block e.entryNo ino
      name.noNul hlong)
    rw [hothers, hzero]

end

/-! ## 5. The states a create stops in once its record is written -/

/-- Only the bytes behind the superblock and the inode store matter. -/
theorem Written.base {fs0 : Fs} (h : Written fs fs' p x c e name ino)
    (hsame : ∀ a, 8192 ≤ a → fs.dev a = fs0.dev a) : Written fs0 fs' p x c e name ino := by
  refine ⟨fun a ha => ?_, h.cache⟩
  rw [h.bytes a ha]
  simp only [Device.putRecord, ByteMem.store, ByteMem.store64, ByteMem.patch, hsame a ha]

theorem written_recorded : Written fs (fs.recorded p x c e name ino) p x c e name ino :=
  ⟨fun _ _ => rfl, _, (Fs.setDentry_dentries _ _ _ _).trans (if_pos rfl), rfl⟩

theorem written_counted : Written fs (fs.counted p x c e name ino) p x c e name ino :=
  ⟨fun _ _ => rfl, _, (Fs.setDentry_dentries _ _ _ _).trans (if_pos rfl), rfl⟩

/-- Saving an inode keeps the record. -/
theorem Written.saveInode {r : Bool} {fs'' : Fs} {d : Nat} (h : Written fs fs' p x c e name ino)
    (hb : 2 ≤ x.inode.block) (hs : saveInode d fs' = .ok (r, fs'')) :
    Written fs fs'' p x c e name ino := by
  obtain ⟨y, -, ⟨-, rfl⟩ | ⟨-, i, hi, -, rfl⟩⟩ := saveInode_ok hs
  · exact h
  · have hi' : i < 128 := hi
    obtain ⟨x', hx', hc'⟩ := h.cache
    refine ⟨fun a ha => ?_, x', hx', ?_⟩
    · exact (Device.agreeOff_setSlot fs'.dev i y.inode a (by omega)).trans (h.bytes a ha)
    · rw [hc', Device.record_setSlot _ _ _ hi' hb]

/-- So does attaching the new dentry. -/
theorem Written.dAdd (h : Written fs fs' p x c e name ino) (hnext : p ≠ fs'.next) :
    Written fs (fs'.dAdd p name v) p x c e name ino := by
  obtain ⟨x', hx', hc'⟩ := h.cache
  exact ⟨h.bytes, x', (Fs.dAdd_dentries _ _ _ _ _).trans ((if_neg hnext).trans hx'), hc'⟩

/-- **The tail of a create writes the record and returns**, whatever interrupts it. -/
theorem run_createTail_written (hx : fs.dentries p = some x) (hc : x.fsdata = some c)
    (he : freeCacheEntryGet c = some e)
    (hlt : e.entryNo < recordsPerBlock ∧ 264 * e.entryNo + name.bytes.length + 1 ≤ 4096)
    (hb : 2 ≤ x.inode.block) (hnext : p ≠ fs.next)
    (hfound : ∃ k, k < slotsPerBlock ∧ (fs.dev.slot k).inodeNo = x.inode.inodeNo)
    (hm : lk.held .inodesMgmt = false) (hs : lk.held .sb = false) :
    ∃ ret fs', (run intr (createTail p name v) lk fs).1 = .returned ret fs' ∧
      Written fs fs' p x c e name v.inodeNo := by
  rw [run_createTail_room hx hc he hlt hm hs]
  split
  · exact ⟨_, _, rfl, written_recorded⟩
  split
  · exact ⟨_, _, rfl, written_counted⟩
  cases hsave : saveInode p (fs.counted p x c e name v.inodeNo) with
  | ok r =>
    obtain ⟨found, fs'⟩ := r
    have hw := written_counted.saveInode hb hsave
    cases found with
    | false => exact ⟨_, _, rfl, hw⟩
    | true =>
      refine ⟨_, _, rfl, hw.dAdd ?_⟩
      obtain ⟨y, -, ⟨-, rfl⟩ | ⟨-, i, -, -, rfl⟩⟩ := saveInode_ok hsave
      · exact hnext
      · exact hnext
  | error err =>
    -- the directory's own slot stops the search inside the store
    obtain ⟨k, hk, hno⟩ := hfound
    have hslot : (fs.counted p x c e name v.inodeNo).dev.slot k = fs.dev.slot k :=
      Fs.SoundAt.slot_counted hb hlt hk
    rw [← hslot] at hno
    obtain ⟨x', hx', hsame⟩ : ∃ x', (fs.counted p x c e name v.inodeNo).dentries p = some x' ∧
        x'.inode.inodeNo = x.inode.inodeNo :=
      ⟨_, (Fs.setDentry_dentries _ _ _ _).trans (if_pos rfl), rfl⟩
    rw [← hsame] at hno
    obtain ⟨i, hi⟩ : ∃ i, FirstSlot (fs.counted p x c e name v.inodeNo).dev.slot
        x'.inode.inodeNo i := Scan.exists_firstAt ⟨k, hk, hno⟩
    rw [saveInode_found hx' hi] at hsave
    cases hsave

/-! ## 6. When a name is handled -/

/-- The state and the locks in which the tail of a create takes over, whichever acquisition of
`simplefs_inode_add` was interrupted. -/
structure TakesOver (fs fs' : Fs) (x : Dentry) (intr : Site → Bool) (lk' : LockState Lock) :
    Prop where
  dentries : fs'.dentries = fs.dentries
  next : fs'.next = fs.next
  bytes : ∀ a, 8192 ≤ a → fs'.dev a = fs.dev a
  found : ∃ k, k < slotsPerBlock ∧ (fs'.dev.slot k).inodeNo = x.inode.inodeNo
  sb : lk'.held .sb = false
  mgmt : lk'.held .inodesMgmt = (!intr .addMgmt && intr .addSb)

namespace Fs.OpenDir

variable {i : Nat}

theorem ne_next (hd : fs.OpenDir p x c) : p ≠ fs.next := by
  intro h
  have := hd.dentry
  rw [h, hd.fresh] at this
  cases this

/-- **A create that is not turned away** comes to its tail. -/
theorem run_takesOver (hd : fs.OpenDir p x c) (hl : ∀ l, lk.held l = false)
    (hno : ¬ fs.TurnedAway mode intr) (hi : ffz fs.imap = some (i + 1)) :
    ∃ b lk' fs', TakesOver fs fs' x intr lk' ∧
      (run intr (simplefsCreateFsObject p name mode) lk fs).1 =
        (run intr (createTail p name (newInode mode (i + 1) b)) lk' fs').1 := by
  obtain ⟨hst, hblk, b, hb⟩ := Fs.starts_of_not_turnedAway hno
  have hi63 : i < 63 := by
    have := (Simplefs.ffz_some hi).1
    omega
  have htaken : ∀ a, 8192 ≤ a → (fs.taken b).dev a = fs.dev a := fun a ha =>
    Device.agreeOff_setFreeBlocks _ _ a (by omega)
  obtain ⟨k, hk, hkno, hki⟩ := hd.found
  have hkTaken : ((fs.taken b).dev.slot k).inodeNo = x.inode.inodeNo := by
    rw [Fs.taken, Device.slot_setFreeBlocks, hkno]
  rw [run_create_block hd.dentry hd.fsdata hl hst hblk hb hi hi63]
  refine ⟨b, ?_⟩
  cases h1 : intr .addMgmt with
  | true =>
    exact ⟨lk.take .childrenUpdate, fs.taken b,
      ⟨rfl, rfl, htaken, ⟨k, hk, hkTaken⟩, by simp [hl], by simp [hl, h1]⟩, rfl⟩
  | false =>
  cases h2 : intr .addSb with
  | true =>
    exact ⟨(lk.take .childrenUpdate).take .inodesMgmt, fs.taken b,
      ⟨rfl, rfl, htaken, ⟨k, hk, hkTaken⟩, by simp [hl], by simp [h1, h2]⟩, rfl⟩
  | false =>
    refine ⟨lk.take .childrenUpdate, fs.added mode i b, ⟨rfl, rfl, fun a ha => ?_, ⟨k, hk, ?_⟩,
      by simp [hl], by simp [hl, h2]⟩, rfl⟩
    · refine Eq.trans ?_ (htaken a ha)
      exact (Device.agreeOff_setInodesCount _ _ a (by omega)).trans
        (Device.agreeOff_setSlot _ i _ a (by omega))
    · have hne : k ≠ i := fun hk' => hki (by rw [hk', hi])
      rw [Fs.SoundAt.slot_added, if_neg hne, hkno]

/-- **Its record is written, and it returns**, unless it waits for itself. -/
theorem run_written (hd : fs.OpenDir p x c) (mode : BitVec 16) (hl : ∀ l, lk.held l = false)
    (hno : ¬ fs.TurnedAway mode intr) (hw : ¬ WaitsForItself intr)
    (hi : ffz fs.imap = some (i + 1)) (he : freeCacheEntryGet c = some e)
    (hlt : e.entryNo < recordsPerBlock ∧ 264 * e.entryNo + name.bytes.length + 1 ≤ 4096) :
    ∃ ret fs', (run intr (simplefsCreateFsObject p name mode) lk fs).1 = .returned ret fs' ∧
      Written fs fs' p x c e name (inoOf i) := by
  obtain ⟨b, lk', fs1, ht, hrun⟩ := hd.run_takesOver hl hno hi
  have hx : fs1.dentries p = some x := by rw [ht.dentries, hd.dentry]
  rw [hrun]
  cases hm : lk'.held .inodesMgmt with
  | false =>
    obtain ⟨ret, fs', hend, hwr⟩ := run_createTail_written hx hd.fsdata he hlt hd.block
      (ht.next ▸ hd.ne_next) ht.found hm ht.sb
    exact ⟨ret, fs', hend, hwr.base ht.bytes⟩
  | true =>
    have hmgmt := hm.symm.trans ht.mgmt
    have h3 : intr .createMgmt = true := by
      by_contra h3
      exact hw (by simpa [WaitsForItself, h3] using hmgmt)
    rw [← bind_pure (createTail p name _), run_createTail_held _ hm,
      addRecord_eq hx hd.fsdata he hlt]
    simp only [h3, if_true]
    exact ⟨_, _, rfl, written_recorded.base ht.bytes⟩

/-- One that does wait for itself never returns. -/
theorem run_waits (hd : fs.OpenDir p x c) (hl : ∀ l, lk.held l = false)
    (hno : ¬ fs.TurnedAway mode intr) (hw : WaitsForItself intr) (hi : ffz fs.imap = some (i + 1))
    (ret : Int) (fs' : Fs) :
    (run intr (simplefsCreateFsObject p name mode) lk fs).1 ≠ .returned ret fs' := by
  obtain ⟨b, lk', fs1, ht, hrun⟩ := hd.run_takesOver hl hno hi
  obtain ⟨h1, h2, h3⟩ := hw
  have hm : lk'.held .inodesMgmt = true := by rw [ht.mgmt, h1, h2]; rfl
  rw [hrun, ← bind_pure (createTail p name _), run_createTail_held _ hm, h3]
  cases addRecord p name (newInode mode (i + 1) b).inodeNo fs1 with
  | error err => rintro ⟨⟩
  | ok r => rintro ⟨⟩

/-- And a name that does not end inside the block takes the create with it. -/
theorem run_no_room (hd : fs.OpenDir p x c) (hl : ∀ l, lk.held l = false)
    (hno : ¬ fs.TurnedAway mode intr) (hi : ffz fs.imap = some (i + 1))
    (hroom : ¬ fs.HasRoomFor p name) (ret : Int) (fs' : Fs) :
    (run intr (simplefsCreateFsObject p name mode) lk fs).1 ≠ .returned ret fs' := by
  obtain ⟨b, lk', fs1, ht, hrun⟩ := hd.run_takesOver hl hno hi
  have hroom' : ¬ fs1.HasRoomFor p name := by
    rw [Fs.HasRoomFor, ht.dentries]
    exact hroom
  rw [hrun]
  cases hm : lk'.held .inodesMgmt with
  | false =>
    obtain ⟨err, hend⟩ := run_createTail_no_room hroom' hm ht.sb
    rw [hend]
    rintro ⟨⟩
  | true =>
    rw [← bind_pure (createTail p name _), run_createTail_held _ hm]
    cases ha : addRecord p name (newInode mode (i + 1) b).inodeNo fs1 with
    | error err => rintro ⟨⟩
    | ok r => exact absurd (addRecord_ok_iff.mp ⟨r.2, ha⟩) hroom'

/-- The number that is picked fits a byte. -/
theorem ino_bounds (hi : ffz fs.imap = some (i + 1)) :
    0 < (inoOf i).toNat ∧ (inoOf i).toNat < 256 := by
  have hlt := (Simplefs.ffz_some hi).1
  rw [toNat_inoOf (by omega)]
  omega

/-- **A name that the record keeps is handled.** -/
theorem handled (hd : fs.OpenDir p x c) (hl : ∀ l, lk.held l = false) (hroom : c.free ≠ [])
    (habs : usedCacheEntryGet c name = none) (hno : ¬ fs.TurnedAway mode intr)
    (hw : ¬ WaitsForItself intr) (hi : ffz fs.imap = some (i + 1))
    (hk : NameKeeps name.bytes (inoOf i)) :
    NameHandled fs p x name (run intr (simplefsCreateFsObject p name mode) lk fs).1 := by
  obtain ⟨e, l, hel⟩ := List.exists_cons_of_ne_nil hroom
  have he : freeCacheEntryGet c = some e := by rw [freeCacheEntryGet, hel, List.head?_cons]
  have h15 : e.entryNo < 15 := (hd.free_entry he).1
  have hlen : 264 * e.entryNo + name.bytes.length + 1 ≤ 4096 := by
    rcases hk with hk | ⟨hk, -⟩ <;> omega
  obtain ⟨ret, fs', hrun, hwr⟩ := hd.run_written mode hl hno hw hi he ⟨h15, hlen⟩
  exact ⟨ret, fs', hrun, Or.inr ⟨i + 1, e.entryNo, hi,
    hwr.storedAt hd he habs (ino_bounds hi) hk⟩⟩

/-- **And so is no other**, once the create is not turned away. -/
theorem of_handled (hd : fs.OpenDir p x c) (hl : ∀ l, lk.held l = false)
    (hno : ¬ fs.TurnedAway mode intr) (hi : ffz fs.imap = some (i + 1))
    (h : NameHandled fs p x name (run intr (simplefsCreateFsObject p name mode) lk fs).1) :
    ¬ WaitsForItself intr ∧ NameKeeps name.bytes (inoOf i) := by
  obtain ⟨ret, fs', hrun, h⟩ := h
  have hw : ¬ WaitsForItself intr := fun hw => hd.run_waits hl hno hw hi ret fs' hrun
  refine ⟨hw, ?_⟩
  by_cases hroom : fs.HasRoomFor p name
  swap
  · exact absurd hrun (hd.run_no_room hl hno hi hroom ret fs')
  obtain ⟨x', c', e, hx', hc', he, hlt⟩ := hroom
  cases hd.dentry.symm.trans hx'
  cases hd.fsdata.symm.trans hc'
  obtain ⟨ret', fs'', hrun', hwr⟩ := hd.run_written mode hl hno hw hi he hlt
  cases hrun.symm.trans hrun'
  rcases h with ⟨-, hsame⟩ | ⟨ino, j, hino, hst⟩
  · exact absurd hsame (hwr.ne hd he)
  · cases hi.symm.trans hino
    exact hwr.keeps hd he (ino_bounds hi) hst

end Fs.OpenDir

/-- **A name is rejected, or stored and found again, exactly when** the create is turned away
before it takes a block, or does not wait for itself and the record keeps its number under the
name: the name has at most 255 bytes, or 257 of which the last repeats the number. -/
theorem nameHandled_iff (hd : fs.OpenDir p x c) (hroom : c.free ≠ [])
    (habs : usedCacheEntryGet c name = none) (hl : ∀ l, lk.held l = false) :
    NameHandled fs p x name (run intr (simplefsCreateFsObject p name mode) lk fs).1 ↔
      fs.TurnedAway mode intr ∨
        ¬ WaitsForItself intr ∧
          ∀ k, ffz fs.imap = some k → NameKeeps name.bytes (BitVec.ofNat 64 k) := by
  obtain ⟨i, hi⟩ := hd.number
  by_cases hno : fs.TurnedAway mode intr
  · refine iff_of_true ?_ (Or.inl hno)
    obtain ⟨err, herr, hrun⟩ := run_create_turnedAway hd.dentry hd.fsdata hl (fun _ => ⟨_, hi⟩) hno
    exact ⟨err, fs, hrun, Or.inl ⟨herr, rfl⟩⟩
  rw [or_iff_right hno]
  constructor
  · intro h
    obtain ⟨hw, hk⟩ := hd.of_handled hl hno hi h
    refine ⟨hw, fun k hk' => ?_⟩
    cases hi.symm.trans hk'
    exact hk
  · rintro ⟨hw, hk⟩
    exact hd.handled hl hroom habs hno hw hi (hk _ hi)

theorem listedFs_openDir : listedFs.OpenDir 0 listedRoot (dirCacheOf freshFs freshRoot) :=
  listedFs_soundAt.openDir (listedFs_inv.dir listedFs_root).1.1

/-- A short name. -/
theorem nameHandled_iff_listed : NameHandled listedFs 0 listedRoot newName
    (run quiet (simplefsCreateFsObject 0 newName 0x81a4) LockState.free listedFs).1 := by
  have hfree : (dirCacheOf freshFs freshRoot).free ≠ [] := by
    obtain ⟨x, c, hx, hc, hfree⟩ := listedFs_hasFreeEntry
    cases hx.symm.trans listedFs_root.1
    cases hc
    exact hfree
  have habs : usedCacheEntryGet (dirCacheOf freshFs freshRoot) newName = none := by
    rw [usedCacheEntryGet_listed, if_neg (by decide)]
  refine (nameHandled_iff listedFs_openDir hfree habs fun _ => rfl).mpr (Or.inr ⟨?_, fun k _ => ?_⟩)
  · rintro ⟨-, h, -⟩
    cases h
  · exact Or.inl (by decide)

/-- A name of 256 bytes. -/
def longName : Name :=
  ⟨List.replicate 256 97, fun h => absurd (List.eq_of_mem_replicate h) (by decide)⟩

/-- **A name of 256 bytes**: its NUL is the low byte of `inode_no`. -/
theorem longName_not_handled : ¬ NameHandled listedFs 0 listedRoot longName
    (run quiet (simplefsCreateFsObject 0 longName 0x81a4) LockState.free listedFs).1 := by
  intro h
  obtain ⟨i, hi⟩ := listedFs_openDir.number
  have hno : ¬ listedFs.TurnedAway 0x81a4 quiet :=
    listedFs_not_turnedAway (Or.inr (by decide)) rfl rfl rfl
  obtain ⟨-, hk⟩ := listedFs_openDir.of_handled (fun _ => rfl) hno hi h
  have hlen : longName.bytes.length = 256 := List.length_replicate
  rcases hk with hk | ⟨hk, -⟩ <;> omega

end Simplefs
