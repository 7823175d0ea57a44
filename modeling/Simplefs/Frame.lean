/-
# What an operation leaves alone

A create, an unlink or a write works on one slot of the inode store and on that slot's block, and
an unlink gives up one more slot.  What every other path leads to stays as it is: the slot, the
block, and the path itself.

`Device.Frame` says this of the device, and each operation satisfies it.  Paths are the paths of
the name graph.
-/
import Simplefs.Confined
import Simplefs.Create
import Simplefs.Remount
import Simplefs.Unlink

namespace Simplefs

open Prog (run LockState)

/-! ## 1. Paths on the device -/

/-- A dentry's path on the device is a path of the name graph. -/
theorem TreeInv.resolve_path {dev : Device} {orphan : Nat → Prop} (ht : TreeInv dev orphan)
    {path : List Name} {i k : Nat} (hi : dev.Live i) (h : dev.resolve path i = some k) :
    dev.graph.Path i (path.map Name.bytes) k ∧ dev.Live k := by
  induction path generalizing i with
  | nil =>
    cases h
    exact ⟨.nil _, hi⟩
  | cons name path ih =>
    rw [Device.resolve] at h
    split at h
    swap
    · cases h
    rename_i hd
    have hdir : dev.graph.dir i := ⟨hi, hd⟩
    cases hs : dev.scan (dev.slot i).block name with
    | none =>
      rw [hs] at h
      cases h
    | some j =>
      rw [hs] at h
      have hent := Device.scan_some hs
      obtain ⟨hp, hk⟩ := ih (ht.wf.target i j _ ⟨hdir, _, hent⟩).1 h
      exact ⟨.cons hdir hent hp, hk⟩

/-- And a path of the name graph is what a walk on the device finds. -/
theorem TreeInv.path_resolve {dev : Device} {orphan : Nat → Prop} (ht : TreeInv dev orphan)
    {path : List Name} {i k : Nat} (h : dev.graph.Path i (path.map Name.bytes) k) :
    dev.resolve path i = some k := by
  induction path generalizing i with
  | nil =>
    cases h
    rfl
  | cons name path ih =>
    cases h with
    | cons hd he hp =>
      rw [Device.resolve, if_pos hd.2, ht.scan_eq hd he]
      simp only
      rw [(Device.of_entry_eq_some he).2.2.2]
      exact ih hp

/-! ## 2. A frame on the device -/

/-- The device before and after an operation that works on slot `s` and gives up the files
`gone`. -/
structure Device.Frame (dev dev' : Device) (s : Nat) (gone : Nat → Prop) : Prop where
  /-- The other slots are as they were, and slot `s` has the same file in it. -/
  slot : ∀ k, dev.Live k → k ≠ s → ¬ gone k → dev'.slot k = dev.slot k
  worked : (dev'.slot s).Same (dev.slot s)
  /-- So are the data blocks other than its own ... -/
  block : ∀ b, 2 ≤ b → b ≠ (dev.slot s).block → ∀ off, off < 4096 →
    dev'.byte b off = dev.byte b off
  /-- ... and, if it is a directory, its entries. -/
  entry : dev.graph.dir s → ∀ j l k, dev.entry s j = some (l, k) → ¬ gone k →
    dev'.entry s j = some (l, k)
  file : ∀ k, gone k → ¬ dev.graph.dir k
  live : dev.Live s

/-- A record lies in its block. -/
theorem Device.record_of_byte {dev dev' : Device} {b j : Nat} (hj : j < 15)
    (h : ∀ off, off < 4096 → dev'.byte b off = dev.byte b off) :
    dev'.record b j = dev.record b j := by
  refine recordAt_congr fun a ha ha' => ?_
  have := h (a - 4096 * b) (by omega)
  rwa [Device.byte, Device.byte, Nat.add_sub_cancel' (by omega)] at this

namespace Device.Frame

variable {dev dev' : Device} {imap : BitVec 64} {s : Nat} {gone pend orphan : Nat → Prop}

/-- What is live and not gone stays live, in the same block. -/
theorem sameBlock (hf : Frame dev dev' s gone) {k : Nat} (hl : dev.Live k) (hg : ¬ gone k) :
    dev'.Live k ∧ (dev'.slot k).block = (dev.slot k).block := by
  by_cases hks : k = s
  · subst hks
    exact ⟨(Device.live_congr_no hf.worked.inodeNo).mpr hl, hf.worked.block⟩
  · have hslot := hf.slot k hl hks hg
    exact ⟨(Device.live_congr hslot).mpr hl, by rw [hslot]⟩

/-- **The names stay**, but for those of what is gone. -/
theorem keeps (hf : Frame dev dev' s gone) (hs : StoreInv dev imap pend) :
    NameGraph.Keeps dev.graph dev'.graph gone := by
  have hsame : ∀ d, dev.graph.dir d → (dev'.slot d).Same (dev.slot d) := by
    intro d hd
    by_cases hds : d = s
    · rw [hds]
      exact hf.worked
    · rw [hf.slot d hd.1 hds fun hg => hf.file d hg hd]
      exact .refl _
  constructor
  case dir =>
    rintro d hd
    obtain ⟨hmode, hno, -⟩ := hsame d hd
    exact ⟨(Device.live_congr_no hno).mpr hd.1, hmode ▸ hd.2⟩
  case entry =>
    intro d j l k hd he hk
    by_cases hds : d = s
    · rw [hds] at he hd ⊢
      exact hf.entry hd j l k he hk
    · rw [← he]
      refine Device.entry_congr (hsame d hd).block fun hj => ?_
      refine Device.record_of_byte hj (hf.block _ (hs.block d hd.1).1 fun hb => ?_)
      exact hds (hs.block_inj d s hd.1 hf.live hb)

end Device.Frame

/-! ## 3. What is left alone -/

/-- What path `path` leads to, the inode `v`, is in `fs'` as it is in `fs`: its number, what the
inode store has in its slot, and every byte of its block. -/
structure LeftAlone (fs fs' : Fs) (path : List Name) (v : SfsInode) : Prop where
  path : fs'.pathInode path = some v
  slot : fs'.dev.slot (slotIndex v.inodeNo) = fs.dev.slot (slotIndex v.inodeNo)
  bytes : ∀ off, off < 4096 → fs'.dev.byte v.block off = fs.dev.byte v.block off

/-- What a path leads to is in the inode store. -/
theorem FsInv.pathInode_slot {fs : Fs} (hi : FsInv fs Shadow.none) {path : List Name}
    {v : SfsInode} (hv : fs.pathInode path = some v) :
    ∃ i, fs.dev.resolve path 0 = some i ∧ fs.dev.Live i ∧ fs.dev.slot i = v ∧
      slotIndex v.inodeNo = i := by
  rw [hi.pathInode] at hv
  obtain ⟨i, hres, hslot⟩ := Option.map_eq_some_iff.mp hv
  have hroot : fs.dev.Live 0 := hi.tree.wf.dir_live 0 hi.tree.wf.root_dir
  have hl := (hi.tree.resolve_path hroot hres).2
  refine ⟨i, hres, hl, hslot, ?_⟩
  rw [← hslot, (hi.store.slots i hl).1, slotIndex_inoOf hl.lt]

/-- **The frame, seen along a path.** -/
theorem Device.Frame.leftAlone {fs fs' : Fs} {s : Nat} {gone : Nat → Prop}
    (hf : Device.Frame fs.dev fs'.dev s gone) (hi : FsInv fs Shadow.none)
    (hi' : FsInv fs' Shadow.none) {path : List Name} {v : SfsInode}
    (hv : fs.pathInode path = some v) (hs : slotIndex v.inodeNo ≠ s)
    (hg : ¬ gone (slotIndex v.inodeNo)) : LeftAlone fs fs' path v := by
  obtain ⟨i, hres, hl, hslot, hno⟩ := hi.pathInode_slot hv
  rw [hno] at hs hg
  have hsame := hf.slot i hl hs hg
  have hroot : fs.dev.Live 0 := hi.tree.wf.dir_live 0 hi.tree.wf.root_dir
  have hpath := (hi.tree.resolve_path hroot hres).1.keep (hf.keeps hi.store) hf.file hg
  refine ⟨?_, ?_, ?_⟩
  · rw [hi'.pathInode, hi'.tree.path_resolve hpath, Option.map_some, hsame, hslot]
  · rw [hno, hsame]
  · rw [← hslot]
    exact hf.block _ (hi.store.block i hl).1 fun hb => hs (hi.store.block_inj i s hl hf.live hb)

/-! ## 4. The three operations that write -/

section Operations

variable {fs : Fs} {p d e : Nat} {x y : Dentry} {c : DirCache} {entry : CacheEntry} {name : Name}
  {mode : BitVec 16} {i b : Nat}

/-- The blocks other than the directory's, after a create. -/
theorem Fs.SoundAt.byte_created (hs : fs.SoundAt p x c) (mode : BitVec 16) (hi : i < 63)
    (hlt : entry.entryNo < recordsPerBlock ∧ 264 * entry.entryNo + name.bytes.length + 1 ≤ 4096)
    {b' off : Nat} (hb' : 2 ≤ b') (hne : b' ≠ x.inode.block) (hoff : off < 4096) :
    (created fs p x c entry name mode i b).dev.byte b' off = fs.dev.byte b' off := by
  have hx : x.slot < 128 := hs.number.1
  have hput := Device.agreeOff_putRecord_block (fs.added mode i b).dev x.inode.block (inoOf i)
    hlt.1 hlt.2
  have hapart : 4096 * x.inode.block + 4096 ≤ 4096 * b' + off ∨
      4096 * b' + off < 4096 * x.inode.block := by omega
  refine (Device.byte_congr (Device.agreeOff_setSlot _ x.slot _) (by omega)).trans ?_
  refine (Device.byte_congr hput hapart).trans ?_
  refine (Device.byte_addAt _ _ _ (by omega) hb').trans ?_
  exact Device.byte_congr (Device.agreeOff_setFreeBlocks _ _) (by omega)

/-- **A create works on the slot of its directory.** -/
theorem Fs.SoundAt.frame (hs : fs.SoundAt p x c) (hl : fs.dev.Live x.slot)
    (hp : Picked fs c name i b entry) (mode : BitVec 16) :
    Device.Frame fs.dev (created fs p x c entry name mode i b).dev x.slot fun _ => False := by
  have hlt := hs.room_of_keeps hp.entry hp.keeps
  have hdisk := hs.disk hl
  have hslot : ∀ k, k < slotsPerBlock → (created fs p x c entry name mode i b).dev.slot k =
      if k = x.slot then { x.inode with fileSize := x.inode.fileSize + 1 }
      else if k = i then newInode mode (i + 1) b else fs.dev.slot k := fun k hk =>
    hs.slot_created hlt hk
  have hself := hslot x.slot hl.lt
  rw [if_pos rfl] at hself
  constructor
  case slot =>
    intro k hk hks _
    rw [hslot k hk.lt, if_neg hks, if_neg]
    rintro rfl
    exact hp.dead hk
  case worked =>
    rw [hself, hdisk]
    exact ⟨rfl, rfl, rfl⟩
  case block =>
    intro b' hb' hne off hoff
    rw [hdisk] at hne
    exact hs.byte_created mode hp.lt hlt hb' hne hoff
  case entry =>
    intro _ j l k hent _
    obtain ⟨hj, hne, -, -⟩ := Device.of_entry_eq_some hent
    rw [hdisk] at hne
    -- the record that is written was free
    have hje : j ≠ entry.entryNo := by
      rintro rfl
      exact hne (hs.free_entry hp.entry).2
    have hn263 : name.bytes.length ≤ 263 := by
      rcases hp.keeps with h | ⟨h, -⟩ <;> omega
    rw [← hent]
    refine Device.entry_congr (by rw [hself, hdisk]; rfl) fun _ => ?_
    obtain ⟨h1, h2⟩ := hs.record_created entry name mode b hp.lt j
    rw [hdisk, h1, Device.record_putRecord_ne _ _ hn263 hlt.1 hj fun h => hje h.2, h2]
  case file => exact fun _ h => h.elim
  case live => exact hl

/-- The blocks other than the directory's, after an unlink. -/
theorem Fs.Unlinkable.byte_unlinked (hu : fs.Unlinkable e y x c) (hi : FsInv fs Shadow.none)
    (h15 : entry.entryNo < 15) {b' off : Nat} (hb' : 2 ≤ b') (hne : b' ≠ x.inode.block)
    (hoff : off < 4096) : (fs.unlinked e y x c entry).dev.byte b' off = fs.dev.byte b' off := by
  obtain ⟨hx, hy⟩ := hu.lt_slots hi
  have hapart : 4096 * x.inode.block + 264 * entry.entryNo + 264 ≤ 4096 * b' + off ∨
      4096 * b' + off < 4096 * x.inode.block + 264 * entry.entryNo := by omega
  refine (Device.byte_delAt _ _ hy hb').trans ?_
  refine (Device.byte_congr (Device.agreeOff_setSlot _ x.slot _) (by omega)).trans ?_
  exact Device.byte_congr (Device.agreeOff_clearRecord _ _ _) hapart

/-- **An unlink works on the slot of its directory, and gives up the file's.** -/
theorem Fs.Unlinkable.frame (hu : fs.Unlinkable e y x c) (hi : FsInv fs Shadow.none)
    (hget : usedCacheEntryGet c y.name = some entry) :
    Device.Frame fs.dev (fs.unlinked e y x c entry).dev x.slot fun k => k = y.slot := by
  obtain ⟨hx, hy⟩ := hu.lt_slots hi
  obtain ⟨entry', hget', -, h15, hent⟩ := hi.used_entry hu.cur hu.ne hu.dir hu.fsdata
  cases hget.symm.trans hget'
  obtain ⟨hd, hb⟩ := hi.dir hu.dir
  have hclean := hi.clean _ x (hi.current_of_dirAt hu.dir) id
  have hslot := fun k (hk : k < 128) => hu.slot_unlinked hi h15 hk
  have hself := hslot x.slot hx
  rw [if_neg (Ne.symm (hu.slot_ne hi)), if_pos rfl] at hself
  constructor
  case slot =>
    intro k hk hks hky
    rw [hslot k hk.lt, if_neg hky, if_neg hks]
  case worked =>
    rw [hself, hclean]
    exact ⟨rfl, rfl, rfl⟩
  case block =>
    intro b' hb' hne off hoff
    rw [hb] at hne
    exact hu.byte_unlinked hi h15 hb' hne hoff
  case entry =>
    intro _ j l k hj hk
    obtain ⟨hj15, -, -, -⟩ := Device.of_entry_eq_some hj
    -- the record that is cleared led to the file
    have hje : j ≠ entry.entryNo := by
      rintro rfl
      rw [hent] at hj
      cases hj
      exact hk rfl
    rw [← hj]
    refine Device.entry_congr (by rw [hself, hclean]; rfl) fun _ => ?_
    rw [hb]
    refine (Device.record_delAt _ _ hy (hu.two_le_block hi)).trans ?_
    refine (Device.record_setSlot _ _ _ hx (hu.two_le_block hi)).trans ?_
    exact (Device.record_clearRecord _ h15 hj15).trans (if_neg fun h => hje h.2)
  case file =>
    rintro k rfl hk
    have hm := hk.2
    rw [← (hi.live e y hu.cur).2.2.mode, hu.file] at hm
    cases hm
  case live => exact hd.1

/-- The device after a write. -/
theorem Fs.dev_written (fs : Fs) (d : Nat) (x : Dentry) (ppos : Nat) (data : List UInt8)
    (copied : Nat) : (fs.written d x ppos data copied).dev =
      if copied < data.length then fs.dev.putData x.inode.block ppos (copiedBytes data copied)
      else (fs.dev.putData x.inode.block ppos (copiedBytes data copied)).setSlot x.slot
        (x.resized (ppos + data.length)).inode := by
  unfold Fs.written
  split <;> rfl

/-- **A write works on the slot of its file.** -/
theorem FsInv.frame_written (hi : FsInv fs Shadow.none) (hx : fs.Current Shadow.none d x)
    (hf : isDir x.inode.mode = false) {ppos : Nat} {data : List UInt8}
    (hlen : ppos + data.length ≤ 4096) (copied : Nat) :
    Device.Frame fs.dev (fs.written d x ppos data copied).dev x.slot fun _ => False := by
  obtain ⟨hl, -, hsame⟩ := hi.live d x hx
  have h2 := (hi.store.block x.slot hl).1
  rw [← hsame.block] at h2
  have hlt := hl.lt
  have hagree := Device.agreeOff_putData fs.dev x.inode.block ppos (copiedBytes data copied)
  rw [length_copiedBytes] at hagree
  have hslot : ∀ k, k < 128 →
      (fs.dev.putData x.inode.block ppos (copiedBytes data copied)).slot k = fs.dev.slot k :=
    fun k hk => Device.slot_congr hagree (by omega)
  rw [Fs.dev_written]
  constructor
  case slot =>
    intro k hk hks _
    split
    · exact hslot k hk.lt
    · rw [Device.slot_setSlot, if_neg hks, hslot k hk.lt]
  case worked =>
    split
    · rw [hslot _ hlt]
      exact .refl _
    · rw [Device.slot_setSlot, if_pos rfl]
      exact ⟨hsame.mode, hsame.inodeNo, hsame.dataBlockNumber⟩
  case block =>
    intro b' hb' hne off hoff
    rw [← hsame.block] at hne
    have hput : (fs.dev.putData x.inode.block ppos (copiedBytes data copied)).byte b' off =
        fs.dev.byte b' off := Device.byte_congr hagree (by omega)
    split
    · exact hput
    · exact (Device.byte_congr (Device.agreeOff_setSlot _ x.slot _) (by omega)).trans hput
  case entry =>
    rintro ⟨-, hd⟩
    rw [← hsame.mode, hf] at hd
    cases hd
  case file => exact fun _ h => h.elim
  case live => exact hl

end Operations

/-! ## 5. Every operation -/

/-- The slots an operation works on: its directory's and its file's. -/
def Op.WorksOn (fs : Fs) (i : Nat) : Op → Prop
  | .create p _ _ => ∃ x, fs.dentries p = some x ∧ x.slot = i
  | .mkdir p _ _ => ∃ x, fs.dentries p = some x ∧ x.slot = i
  | .unlink e => ∃ y, fs.dentries e = some y ∧
      (y.slot = i ∨ ∃ x, fs.dentries y.parent = some x ∧ x.slot = i)
  | .write d _ _ _ => ∃ x, fs.dentries d = some x ∧ x.slot = i
  | _ => False

/-- What a call returns does not matter to where it ends. -/
theorem run_discard_fst {α : Type} {intr : Site → Bool} {q : Code α} {lk : LockState Lock}
    {fs fs' : Fs} {a : α} (h : (run intr q lk fs).1 = .returned a fs') :
    (run intr (discard q) lk fs).1 = .returned () fs' := by
  rw [discard_eq, Prog.run_bind]
  cases hr : run intr q lk fs with
  | mk r lk' =>
    rw [hr] at h
    cases h
    rfl

section Every

variable {fs : Fs} {path : List Name} {v : SfsInode}

/-- A device that is the same leaves everything alone. -/
theorem FsInv.leftAlone_of_dev {fs' : Fs} (hi : FsInv fs Shadow.none)
    (hi' : FsInv fs' Shadow.none) (hdev : fs'.dev = fs.dev)
    (hv : fs.pathInode path = some v) : LeftAlone fs fs' path v := by
  refine ⟨?_, by rw [hdev], fun _ _ => by rw [hdev]⟩
  rw [hi'.pathInode, hdev, ← hi.pathInode]
  exact hv

/-- **A create in the cases that the source handles**: it changes nothing, or it has its whole
effect. -/
theorem FsInv.created_of_run {fs' : Fs} {p : Nat} {x : Dentry} {name : Name} {mode : BitVec 16}
    (hi : FsInv fs Shadow.none) (hx : fs.DirAt p x)
    (hdef : fs.HasFreeEntry p ∧ name.bytes.length ≤ 255)
    (hrun : (run quiet (discard (simplefsCreateFsObject p name mode)) LockState.free fs).1 =
      .returned () fs') :
    fs' = fs ∨ ∃ c i b e, fs.SoundAt p x c ∧ Fs.SoundAt.Picked fs c name i b e ∧
      fs' = Fs.SoundAt.created fs p x c e name mode i b := by
  have hgo := hi.goesThrough hx hdef
  obtain ⟨⟨x', c, hx', hc, -⟩, -⟩ := hdef
  cases hx.1.symm.trans hx'
  have hs := hi.soundAt hx hc
  by_cases haway : fs.TurnedAway mode quiet
  · obtain ⟨err, -, hend⟩ := hs.run_turnedAway LockState.free_held haway
    rw [run_discard_fst hend] at hrun
    cases hrun
    exact Or.inl rfl
  · obtain ⟨i, b, e, hp, hend⟩ := hs.run_goesThrough LockState.free_held haway hgo
    rw [run_discard_fst hend] at hrun
    cases hrun
    exact Or.inr ⟨c, i, b, e, hs, hp, rfl⟩

/-- A create. -/
theorem FsInv.create_leftAlone {fs' : Fs} {p : Nat} {x : Dentry} {name : Name}
    {mode : BitVec 16} (hi : FsInv fs Shadow.none) (hi' : FsInv fs' Shadow.none)
    (hx : fs.DirAt p x) (hdef : fs.HasFreeEntry p ∧ name.bytes.length ≤ 255)
    (hrun : (run quiet (discard (simplefsCreateFsObject p name mode)) LockState.free fs).1 =
      .returned () fs')
    (hv : fs.pathInode path = some v) (hno : x.slot ≠ slotIndex v.inodeNo) :
    LeftAlone fs fs' path v := by
  rcases hi.created_of_run hx hdef hrun with rfl | ⟨c, i, b, e, hs, hp, rfl⟩
  · exact hi.leftAlone_of_dev hi rfl hv
  · exact (hs.frame (hi.dir hx).1.1 hp mode).leftAlone hi hi' hv (Ne.symm hno) id

/-- **Every defined operation leaves alone what it does not work on.** -/
theorem FsInv.leftAlone {fs' : Fs} {lk : LockState Lock} (hi : FsInv fs Shadow.none) {op : Op}
    (ha : op.Allowed fs) (hdef : op.Defined fs)
    (hrun : run quiet op.code LockState.free fs = (.returned () fs', lk))
    (hv : fs.pathInode path = some v) (hno : ¬ op.WorksOn fs (slotIndex v.inodeNo)) :
    LeftAlone fs fs' path v := by
  have hi' := (hi.call ha hdef hrun).2
  cases op with
  | iterate d pos =>
    obtain ⟨x, hx⟩ := ha
    rw [run_iterate hx.1 pos] at hrun
    cases hrun
    exact hi.leftAlone_of_dev hi' rfl hv
  | lookup p name =>
    obtain ⟨x, c, hx, hc⟩ := hdef
    rw [run_lookup hx hc name rfl (hi.lookup_lt hx hc)] at hrun
    cases hrun
    refine hi.leftAlone_of_dev hi' ?_ hv
    split <;> rfl
  | create p name mode =>
    obtain ⟨x, hx, -⟩ := ha
    refine hi.create_leftAlone hi' hx hdef (congrArg Prod.fst hrun) hv ?_
    exact fun h => hno ⟨x, hx.1, h⟩
  | mkdir p name mode =>
    obtain ⟨x, hx, -⟩ := ha
    refine hi.create_leftAlone hi' hx hdef (congrArg Prod.fst hrun) hv ?_
    exact fun h => hno ⟨x, hx.1, h⟩
  | unlink e =>
    obtain ⟨y, x, c, entry, hu, hget, -, rfl⟩ := hi.unlinked_of_run ha hdef hrun
    refine (hu.frame hi hget).leftAlone hi hi' hv (fun h => ?_) fun h => ?_
    · exact hno ⟨y, hu.cur.1, Or.inr ⟨x, hu.dir.1, h.symm⟩⟩
    · exact hno ⟨y, hu.cur.1, Or.inl h.symm⟩
  | read d ppos len userOk =>
    obtain ⟨rfl, -⟩ := run_read hrun
    exact hi.leftAlone_of_dev hi rfl hv
  | write d ppos data copied =>
    obtain ⟨x, hx, hreg⟩ := ha
    have hcur : fs.Current Shadow.none d x := ⟨hx, hdef.2 x hx, id⟩
    have hend := (hi.run_write hcur hreg hdef.1 copied).1
    rw [hend] at hrun
    cases hrun
    have hf := hi.frame_written hcur (not_isDir_of_isReg hreg) hdef.1 copied
    exact hf.leftAlone hi hi' hv (fun h => hno ⟨x, hx, h.symm⟩) id
  | release d =>
    cases hrun
    exact hi.leftAlone_of_dev hi' rfl hv

/-- **Every defined operation returns.** -/
theorem FsInv.returns (hi : FsInv fs Shadow.none) (hb : fs.Bounded) {op : Op}
    (ha : op.Allowed fs) (hdef : op.Defined fs) :
    ∃ fs', run quiet op.code LockState.free fs = (.returned () fs', LockState.free) := by
  have hworks : ∀ d, op.WorksIn fs d →
      ∃ fs', run quiet op.code LockState.free fs = (.returned () fs', LockState.free) :=
    fun d hw => (hi.run_worksIn hw ha hdef).imp fun _ => And.left
  cases op with
  | iterate d pos => exact hworks d rfl
  | lookup p name => exact hworks p rfl
  | create p name mode => exact hworks p rfl
  | mkdir p name mode => exact hworks p rfl
  | unlink e =>
    obtain ⟨-, y, hy, -⟩ := ha
    exact hworks y.parent ⟨y, hy, rfl⟩
  | read d ppos len userOk =>
    obtain ⟨x, hx, hreg⟩ := ha
    obtain ⟨r, hr⟩ := hb.readFile_ok hx hreg ppos len userOk
    refine ⟨r.2, ?_⟩
    change run quiet (discard (simplefsRead d ppos len userOk)) LockState.free fs = _
    rw [discard_eq, simplefsRead, Prog.run_step_bind, hr]
    rfl
  | write d ppos data copied =>
    obtain ⟨x, hx, hreg⟩ := ha
    exact ⟨_, (hi.run_write ⟨hx, hdef.2 x hx, id⟩ hreg hdef.1 copied).1⟩
  | release d => exact ⟨_, rfl⟩

end Every

/-- **Operations on one file leave all others alone**: in every state that a run from a fresh
image reaches, a defined operation returns, and whatever a path leads to, if it is neither the
operation's directory nor its file, is in the new state as it was. -/
theorem DefinedRun.leaves_others_alone {size : Nat} {dev : Device} {lk : LockState Lock}
    {fs : Fs} {op : Op} {path : List Name} {v : SfsInode}
    (hmk : mkfs zeroMem size = (0, dev))
    (hrun : DefinedRun ⟨LockState.free, .offline dev⟩ ⟨lk, .mounted fs⟩)
    (ha : op.Allowed fs) (hdef : op.Defined fs) (hv : fs.pathInode path = some v)
    (hno : ¬ op.WorksOn fs (slotIndex v.inodeNo)) :
    ∃ fs', run quiet op.code lk fs = (.returned () fs', lk) ∧ LeftAlone fs fs' path v := by
  have hinv := hrun.inv (sysInv_mkfs hmk)
  have hi := hinv.mounted fs rfl
  have hlk : lk = LockState.free := hinv.locks
  subst hlk
  have hb : fs.Bounded := hrun.boundedRun.bounded (sysBounded_mkfs hmk)
  obtain ⟨fs', hret⟩ := hi.returns hb ha hdef
  exact ⟨fs', hret, hi.leftAlone ha hdef hret hv hno⟩

/-- A file made in the root of a fresh image leaves the welcome file alone. -/
theorem DefinedRun.leaves_welcome_alone : ∃ fs',
    run quiet (Op.create 0 newName 0x81a4).code LockState.free listedFs =
      (.returned () fs', LockState.free) ∧
      LeftAlone listedFs fs' [welcomeName] welcomeInode := by
  have hent : listedFs.dev.graph.entry 0 0 = some (welcomeName.bytes, 1) :=
    freshDevice.entry_eq 0
  have hpath : listedFs.dev.graph.Path 0 ([welcomeName].map Name.bytes) 1 :=
    .cons listedFs_inv.tree.wf.root_dir hent (.nil 1)
  have hv : listedFs.pathInode [welcomeName] = some welcomeInode := by
    rw [listedFs_inv.pathInode, listedFs_inv.tree.path_resolve hpath]
    exact congrArg some freshDevice.slot_one
  refine DefinedRun.leaves_others_alone mkfs_fresh DefinedRun.listed listedFs_newName
    ⟨listedFs_hasFreeEntry, by decide⟩ hv ?_
  rintro ⟨x, hx, hslot⟩
  cases hx.symm.trans listedFs_root.1
  exact absurd hslot (by decide)

/-! ## 6. A second directory -/

section Opened

variable {fs : Fs} {p e i b : Nat} {x y : Dentry} {c : DirCache} {name : Name}
  {mode : BitVec 16} {entry : CacheEntry}

/-- The state after a directory's first listing. -/
def Fs.opened (fs : Fs) (e : Nat) (y : Dentry) : Fs :=
  fs.setDentry e { y with fsdata := some (dirCacheOf fs y) }

/-- **An empty directory, once listed**, is open to creates under every name. -/
theorem FsInv.opened (hi : FsInv fs Shadow.none) (hy : fs.DirAt e y) (hfd : y.fsdata = none)
    (hz : ∀ j, j < recordsPerBlock → fs.dev.record y.inode.block j = DirRecord.zero) :
    (fs.opened e y).HasFreeEntry e ∧ ∀ n, (fs.opened e y).Absent e n := by
  have hagree : (dirCacheOf fs y).Agrees (fs.dev.record y.inode.block) := by
    rw [dirCacheOf, hfd, Option.getD_none]
    exact dirCacheBuild_agrees _
  have hself : (fs.opened e y).dentries e =
      some { y with fsdata := some (dirCacheOf fs y) } :=
    (Fs.setDentry_dentries _ _ _ _).trans (if_pos rfl)
  have hdir : (fs.opened e y).DirAt e { y with fsdata := some (dirCacheOf fs y) } :=
    ⟨hself, hy.2⟩
  have hlist : (Op.iterate e 0).Allowed fs := ⟨y, hy⟩
  have hi' : FsInv (fs.opened e y) Shadow.none :=
    (hi.call hlist trivial (run_iterate hy.1 0)).2
  refine ⟨⟨_, _, hself, rfl, hagree.free_ne_nil_iff.mpr ⟨0, by decide, ?_⟩⟩,
    fun n => ⟨_, hdir, fun d z hd hz' hl hpar _ => ?_, fun c hc => ?_⟩⟩
  · rw [hz 0 (by decide)]
    exact DirRecord.inodeNo_zero
  · -- a dentry in it would have a record
    obtain ⟨x, j, hx, hent⟩ := hi'.parent d z ⟨hz', hl, id⟩ hd
    rw [hpar] at hx
    cases hself.symm.trans hx.1
    obtain ⟨hj, hlive, -⟩ := Device.of_entry_eq_some hent
    have hb := (hi'.dir hdir).2
    have hzero : (fs.opened e y).dev.record y.inode.block j = DirRecord.zero := hz j hj
    rw [hb, hzero] at hlive
    exact hlive DirRecord.inodeNo_zero
  · cases hc
    cases hget : usedCacheEntryGet (dirCacheOf fs y) n with
    | none => rfl
    | some e =>
      obtain ⟨-, hj, hl, -⟩ := hagree.usedCacheEntryGet_some hget
      rw [hz _ hj] at hl
      exact absurd DirRecord.inodeNo_zero hl

/-- **A directory that has just been made** is empty. -/
theorem Fs.SoundAt.newDir (hs : fs.SoundAt p x c) (hp : Picked fs c name i b entry)
    (hdir : isDir (mode.setWidth 32) = true) :
    (created fs p x c entry name mode i b).DirAt fs.next
        ⟨p, name, newInode mode (i + 1) b, none, true⟩ ∧
      ∀ j, j < recordsPerBlock →
        (created fs p x c entry name mode i b).dev.record (newInode mode (i + 1) b).block j =
          DirRecord.zero := by
  have hlt := hs.room_of_keeps hp.entry hp.keeps
  obtain ⟨h3, h34, hav⟩ := hs.store.high.scan_some hp.block
  refine ⟨⟨(Fs.dAdd_dentries _ _ _ _ _).trans (if_pos rfl), rfl, hdir⟩, fun j hj => ?_⟩
  rw [block_newInode mode (i + 1) (by omega)]
  refine Device.record_of_zeroBlock (fun off hoff => ?_) hj
  rw [hs.byte_created mode hp.lt hlt (by omega) (fun heq => ?_) hoff]
  · exact (hs.store.avail b h3 h34 hav).2.2 off hoff
  · exact hs.block.2.2 (heq ▸ h3) (heq ▸ hav)

/-- **A directory is made** in a directory that has room for it. -/
theorem FsInv.run_mkdir (hi : FsInv fs Shadow.none) (hx : fs.DirAt p x) (hc : x.fsdata = some c)
    (ha : fs.Absent p name) (hdef : fs.HasFreeEntry p ∧ name.bytes.length ≤ 255)
    (hno : ¬ fs.TurnedAway (0x4000 ||| mode) quiet) :
    ∃ i b e, Fs.SoundAt.Picked fs c name i b e ∧
      run quiet (Op.mkdir p name mode).code LockState.free fs =
        (.returned () (Fs.SoundAt.created fs p x c e name (0x4000 ||| mode) i b),
          LockState.free) ∧
      FsInv (Fs.SoundAt.created fs p x c e name (0x4000 ||| mode) i b) Shadow.none := by
  have hs := hi.soundAt hx hc
  obtain ⟨i, b, e, hp, hend⟩ :=
    hs.run_goesThrough LockState.free_held hno (hi.goesThrough hx hdef)
  have hallow : (Op.mkdir p name mode).Allowed fs := ha
  have hdefined : (Op.mkdir p name mode).Defined fs := hdef
  have hw : (Op.mkdir p name mode).WorksIn fs p := rfl
  obtain ⟨fs', hrun, hi'⟩ := hi.run_worksIn hw hallow hdefined
  have hret : (run quiet (discard (simplefsCreateFsObject p name (0x4000 ||| mode)))
      LockState.free fs).1 = .returned () fs' := congrArg Prod.fst hrun
  rw [run_discard_fst hend] at hret
  cases hret
  exact ⟨i, b, e, hp, hrun, hi'⟩

end Opened

/-- A directory made in the root of a fresh image and listed: anything can be made in it, and the
root still leads to the welcome file. -/
structure TwoDirs (fs : Fs) : Prop where
  run : DefinedRun ⟨LockState.free, .offline freshDevice⟩ ⟨LockState.free, .mounted fs⟩
  root : ∃ x c e, fs.DirAt 0 x ∧ x.fsdata = some c ∧ usedCacheEntryGet c welcomeName = some e
  noChild : fs.NoChild 0 welcomeName
  free : fs.HasFreeEntry 1
  absent : ∀ name, fs.Absent 1 name

theorem exists_twoDirs : ∃ fs, TwoDirs fs := by
  have hs := listedFs_soundAt
  have hmode : isDir ((0x4000 ||| 0o755 : BitVec 16).setWidth 32) = true := by decide
  obtain ⟨i, b, entry, hp, hrun, hi'⟩ := listedFs_inv.run_mkdir listedFs_root rfl
    listedFs_newName ⟨listedFs_hasFreeEntry, by decide⟩
    (listedFs_not_turnedAway (Or.inl hmode) rfl rfl rfl)
  have hothers : ∀ e, e ≠ 0 → e ≠ listedFs.next → _ = listedFs.dentries e := fun e h0 h1 =>
    Fs.SoundAt.dentries_created 0 listedRoot (dirCacheOf freshFs freshRoot) entry newName
      (0x4000 ||| 0o755) i b h0 h1
  obtain ⟨hdir, hzero⟩ := hs.newDir hp hmode
  obtain ⟨c', hroot⟩ := hs.dentry_created entry newName (0x4000 ||| 0o755) i b
  -- the record of the welcome file is in place, so the cache has it
  obtain ⟨fs1, hfs1⟩ : ∃ fs1, fs1 = Fs.SoundAt.created listedFs 0 listedRoot
      (dirCacheOf freshFs freshRoot) entry newName (0x4000 ||| 0o755) i b := ⟨_, rfl⟩
  have hat : CreatedAt listedFs fs1 0 listedRoot newName (0x4000 ||| 0o755) i b
      entry.entryNo := by
    rw [hfs1]
    exact hs.createdAt hp.lt hp.dead hp.block hp.entry hp.keeps (listedFs_inv.dir listedFs_root).1.1
  rw [← hfs1] at hrun hi' hothers hdir hzero hroot
  obtain ⟨hno, hname⟩ := freshDevice.record_zero
  have hlive : (freshDevice.record 2 0).inodeNo ≠ 0#64 := by
    rw [hno]
    decide
  have hrec := hat.others 0 (by decide) fun h => hlive (h ▸ hat.record.2.1)
  obtain ⟨w, hw⟩ : ∃ w, usedCacheEntryGet c' welcomeName = some w := by
    refine Option.ne_none_iff_exists'.mp fun hnone => ?_
    exact (hi'.cache 0 _ c' hroot rfl).2.usedCacheEntryGet_none hnone
      (by decide : 0 < recordsPerBlock) (fun h => hlive (hrec ▸ h))
      ((congrArg DirRecord.filename hrec).trans hname)
  -- the listing builds the other cache
  obtain ⟨hfree, habsent⟩ := hi'.opened hdir rfl hzero
  have ha : (Op.mkdir 0 newName 0o755).Allowed listedFs := listedFs_newName
  have hd : (Op.mkdir 0 newName 0o755).Defined listedFs := ⟨listedFs_hasFreeEntry, by decide⟩
  have hlist : (Op.iterate 1 0).Allowed fs1 := ⟨_, hdir⟩
  refine ⟨_, .tail (.tail DefinedRun.listed (.call ha hd hrun))
    (.call hlist trivial (run_iterate hdir.1 0)),
    ⟨listedRoot.withChild c', c', w, ?_, rfl, hw⟩, ?_, hfree, habsent⟩
  · refine ⟨(Fs.setDentry_dentries _ _ _ _).trans ((if_neg (by decide)).trans hroot), ?_⟩
    exact listedFs_root.2
  · intro e y h0 hy
    rw [Fs.setDentry_dentries] at hy
    split at hy
    · cases hy
      exact fun _ _ => (by decide : newName ≠ welcomeName)
    · rename_i h1
      rw [hothers e h0 h1] at hy
      exact listedFs_noChild welcomeName e y h0 hy

end Simplefs
