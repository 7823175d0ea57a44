/-
# An image that anybody may have written

A mount looks at the magic number and at the block size, and takes everything else on the device
as it comes.  The inode numbers in the store become bits of a word of 64, and the number in a
directory's record becomes the place of a slot in a block of 128.  Neither is compared with
anything: `simplefs_get_inode` prints a message when the number is 0, and goes on.

So an image is handled in bounds exactly if its numbers are in range.  A record's number moves a
pointer on by 32 bytes for each, modulo `2 ^ 64`: it is in range if it leads back into the block,
and a number above `2 ^ 59` may.  Which numbers count is a
matter of what a mount and the lookups after it get to see: the first 127 slots, and the records
that can be found by name in the directories that can be reached from the root.
-/
import Simplefs.Listed
import Simplefs.Consistency

namespace Simplefs

open Prog (run LockState wlp wlp_step wlp_lock wlp_bind wlp_read wlpf wlpf_step wlpf_lock wlpf_read
  wlpf_bind)

/-! ## 1. Mounting and looking around -/

/-- A path component that the VFS asks the filesystem for: it is not empty, has no `/`, and is
neither `.` nor `..`. -/
def Name.Component (name : Name) : Prop :=
  name.bytes ≠ [] ∧ 47 ∉ name.bytes ∧ name.bytes ≠ [46] ∧ name.bytes ≠ [46, 46]

/-- The VFS takes dentry `d` for a directory: the root always, another one if its inode says so. -/
def Fs.LooksIn (fs : Fs) (d : Nat) (x : Dentry) : Prop :=
  fs.dentries d = some x ∧ x.linked = true ∧ (d = 0 ∨ isDir x.inode.mode = true)

/-- The states that a mount of the device and calls that do not write to it lead to, interrupted
or not. -/
inductive Browsed (dev : Device) : LockState Lock → Fs → Prop
  | mount {past intr lk fs}
      (h : run intr simplefsFillSuper LockState.free (Fs.blank dev past) = (.returned 0 fs, lk)) :
      Browsed dev lk fs
  | iterate {lk lk' fs fs' d x pos intr} (hb : Browsed dev lk fs) (hx : fs.LooksIn d x)
      (h : run intr (Op.iterate d pos).code lk fs = (.returned () fs', lk')) : Browsed dev lk' fs'
  | lookup {lk lk' fs fs' d x name intr} (hb : Browsed dev lk fs) (hx : fs.LooksIn d x)
      (hno : fs.NoChild d name) (hname : name.Component)
      (h : run intr (Op.lookup d name).code lk fs = (.returned () fs', lk')) : Browsed dev lk' fs'
  | read {lk lk' fs fs' d ppos len userOk intr} (hb : Browsed dev lk fs)
      (ha : (Op.read d ppos len userOk).Allowed fs)
      (h : run intr (Op.read d ppos len userOk).code lk fs = (.returned () fs', lk')) :
      Browsed dev lk' fs'
  | release {lk lk' fs fs' d intr} (hb : Browsed dev lk fs) (ha : (Op.release d).Allowed fs)
      (h : run intr (Op.release d).code lk fs = (.returned () fs', lk')) : Browsed dev lk' fs'

/-- A bit beyond the bitmap, or a slot outside the inode store's block. -/
def Fault.OutOfRange (err : Fault) : Prop := err = .outOfImap ∨ err = .outOfBlock

/-- **The image is handled in bounds**: neither a mount nor a lookup at any time uses a number out
of its range. -/
structure HandledInBounds (dev : Device) : Prop where
  mount : ∀ past intr err lk,
    run intr simplefsFillSuper LockState.free (Fs.blank dev past) = (.faulted err, lk) →
      ¬ err.OutOfRange
  lookup : ∀ lk fs d x name intr err lk', Browsed dev lk fs → fs.LooksIn d x →
    fs.NoChild d name → name.Component →
    run intr (Op.lookup d name).code lk fs = (.faulted err, lk') → ¬ err.OutOfRange

/-- The record that a lookup of `name` finds in the directory with inode `v`. -/
def Device.foundIn (dev : Device) (v : SfsInode) (name : Name) : Option CacheEntry :=
  usedCacheEntryGet (dirCacheBuild simplefsCacheAlloc (dev.record v.block)) name

/-- The directories that can be reached: the root, and what the records lead to as long as that is
in the block. -/
inductive Device.DirReached (dev : Device) : SfsInode → Prop
  | root : DirReached dev (dev.slot 0)
  | child {v name e} (hv : DirReached dev v) (hname : name.Component)
      (he : dev.foundIn v name = some e) (hlt : slotAt e.record.inodeNo < slotsPerBlock)
      (hdir : isDir (dev.slot (slotAt e.record.inodeNo)).mode = true) :
      DirReached dev (dev.slot (slotAt e.record.inodeNo))

/-- **The numbers of the image are in range**: those in the slots that `fill_imap` reads have a bit
in the bitmap, and those in the records that lookups find lead to a slot. -/
structure Device.NumbersInRange (dev : Device) : Prop where
  slots : ∀ i, i < slotsPerBlock - 1 → (dev.slot i).inodeNo.toNat < 64
  records : ∀ v name e, dev.DirReached v → name.Component → dev.foundIn v name = some e →
    slotAt e.record.inodeNo < slotsPerBlock

variable {dev : Device} {fs fs' : Fs} {intr : Site → Bool} {lk lk' : LockState Lock}

/-! ## 2. The mount -/

/-- The loop of `fill_imap` over any slots: every number has a bit, or it stops at one that has
none. -/
theorem foldlM_fillImapTurn_cases (slot : Nat → SfsInode) (l : List Nat) (w : BitVec 64) :
    ((∀ i ∈ l, (slot i).inodeNo.toNat < 64) ∧ ∃ w', l.foldlM (fillImapTurn slot) w = .ok w') ∨
      (∃ i ∈ l, 64 ≤ (slot i).inodeNo.toNat) ∧
        l.foldlM (fillImapTurn slot) w = .error .outOfImap := by
  induction l generalizing w with
  | nil => exact Or.inl ⟨fun _ hi => absurd hi List.not_mem_nil, w, rfl⟩
  | cons i l ih =>
    rw [List.foldlM_cons]
    by_cases hlt : (slot i).inodeNo.toNat < 64
    · obtain ⟨w', hw'⟩ : ∃ w', fillImapTurn slot w i = .ok w' := by
        rw [fillImapTurn]
        split
        · exact ⟨w, rfl⟩
        · exact ⟨_, rfl⟩
      rw [hw']
      rcases ih w' with ⟨hall, w'', hw''⟩ | ⟨⟨j, hj, hge⟩, herr⟩
      · refine Or.inl ⟨fun j hj => ?_, w'', hw''⟩
        rcases List.mem_cons.mp hj with rfl | hj
        · exact hlt
        · exact hall j hj
      · exact Or.inr ⟨⟨j, List.mem_cons_of_mem _ hj, hge⟩, herr⟩
    · refine Or.inr ⟨⟨i, List.mem_cons_self, Nat.le_of_not_lt hlt⟩, ?_⟩
      have hne : (slot i).inodeNo ≠ 0#64 := fun h0 => by
        rw [h0] at hlt
        exact hlt (by decide)
      rw [fillImapTurn, if_neg hne, if_neg hlt]
      rfl

/-- `fill_imap` sets bits of the bitmap only, or is out of it. -/
theorem fillImap_cases (slot : Nat → SfsInode) :
    ((∀ i, i < slotsPerBlock - 1 → (slot i).inodeNo.toNat < 64) ∧ ∃ w, fillImap slot = .ok w) ∨
      (∃ i, i < slotsPerBlock - 1 ∧ 64 ≤ (slot i).inodeNo.toNat) ∧
        fillImap slot = .error .outOfImap := by
  rcases foldlM_fillImapTurn_cases slot (List.range (slotsPerBlock - 1)) (setBit 0 0) with
    ⟨hall, hok⟩ | ⟨⟨i, hi, hge⟩, herr⟩
  · exact Or.inl ⟨fun i hi => hall i (List.mem_range.mpr hi), hok⟩
  · exact Or.inr ⟨⟨i, List.mem_range.mp hi, hge⟩, herr⟩

/-- A mount of an image whose slots are in range is not out of range. -/
theorem wlpf_fillSuper (h : ∀ i, i < slotsPerBlock - 1 → (dev.slot i).inodeNo.toNat < 64)
    (past : BitVec 64) :
    wlpf intr Fault.OutOfRange simplefsFillSuper (fun _ _ => True) (Fs.blank dev past) := by
  obtain ⟨w, hw⟩ : ∃ w, fillImap dev.slot = .ok w := by
    rcases fillImap_cases dev.slot with ⟨-, hok⟩ | ⟨⟨i, hi, hge⟩, -⟩
    · exact hok
    · exact absurd (h i hi) (Nat.not_lt_of_le hge)
  have hstep : fillImapStep (Fs.blank dev past) =
      .ok ((), { Fs.blank dev past with imap := w }) := by
    have hw' : fillImap (Fs.blank dev past).dev.slot = .ok w := hw
    rw [fillImapStep, hw']
    rfl
  refine wlpf_read fun b _ => ?_
  split
  · trivial
  refine wlpf_read fun b _ => ?_
  split
  · trivial
  refine wlpf_step (fun err herr => ?_) fun _ fs1 _ => ?_
  · rw [hstep] at herr
    cases herr
  refine wlpf_lock fun i _ => ?_
  cases i with
  | true =>
    refine ⟨fun err herr => ?_, fun _ _ hr => by cases hr⟩
    cases herr
    rintro (hf | hf) <;> cases hf
  | false =>
    refine wlpf_step (fun err herr => ?_) fun v fs2 _ => ?_
    · unfold readInode at herr
      split at herr
      · cases herr
      · rename_i hlt
        have h0 : slotAt (BitVec.ofNat 64 rootInodeNumber) < slotsPerBlock := by decide
        exact absurd h0 hlt
    · exact wlpf_step (fun err herr => by cases herr) fun _ _ _ => trivial

/-- What a mount makes of the device. -/
theorem wlp_fillSuper (past : BitVec 64) :
    wlp intr simplefsFillSuper (fun ret fs => ret = 0 → ∃ imap, fs = mountedFs dev imap past)
      (Fs.blank dev past) := by
  refine wlp_read fun b _ => ?_
  split
  · exact fun h0 => absurd h0 (by decide)
  refine wlp_read fun b _ => ?_
  split
  · exact fun h0 => absurd h0 (by decide)
  refine wlp_step fun _ fs1 hr => ?_
  obtain ⟨w, rfl⟩ : ∃ w, fs1 = { Fs.blank dev past with imap := w } := by
    unfold fillImapStep at hr
    cases hmap : fillImap (Fs.blank dev past).dev.slot with
    | error err =>
      rw [hmap] at hr
      cases hr
    | ok w =>
      rw [hmap] at hr
      cases hr
      exact ⟨w, rfl⟩
  refine wlp_lock fun i _ => ?_
  cases i with
  | true => exact fun _ _ hr => by cases hr
  | false =>
    refine wlp_step fun v fs2 hr => ?_
    cases hr
    refine wlp_step fun _ fs3 hr => ?_
    cases hr
    exact fun _ => ⟨w, rfl⟩

/-- A number that has no bit takes the mount with it. -/
theorem run_fillSuper_outOfImap (hf : dev.Formatted)
    (hmap : fillImap dev.slot = .error .outOfImap) (past : BitVec 64) :
    run quiet simplefsFillSuper LockState.free (Fs.blank dev past) =
      (.faulted .outOfImap, LockState.free) := by
  have hmagic : decide ((Fs.blank dev past).dev.magic ≠ superMagic) = false :=
    decide_eq_false (not_not.mpr hf.1)
  have hsize : decide ((Fs.blank dev past).dev.blockSize ≠ 4096) = false :=
    decide_eq_false (not_not.mpr hf.2)
  have hstep : fillImapStep (Fs.blank dev past) = .error .outOfImap := by
    have hmap' : fillImap (Fs.blank dev past).dev.slot = .error .outOfImap := hmap
    rw [fillImapStep, hmap']
    rfl
  unfold simplefsFillSuper
  simp only [Prog.run_read_bind, hmagic, hsize, Bool.false_eq_true, if_false,
    Prog.run_step_bind, hstep]

/-! ## 3. Listings and lookups -/

/-- What holds of every state on the way: the device is as it was, the directories are among those
that can be reached, and their caches are what is in their blocks. -/
structure Fs.Browsing (fs : Fs) (dev : Device) : Prop where
  same : fs.dev = dev
  next : fs.next ≠ 0
  dirs : ∀ d x, fs.LooksIn d x → dev.DirReached x.inode
  cache : ∀ d x c, fs.dentries d = some x → x.fsdata = some c →
    c = dirCacheBuild simplefsCacheAlloc (dev.record x.inode.block)

theorem mountedFs_browsing (imap past : BitVec 64) : (mountedFs dev imap past).Browsing dev := by
  refine ⟨rfl, Nat.one_ne_zero, fun d x hx => ?_, fun d x c hx hc => ?_⟩
  · obtain ⟨-, rfl⟩ := mountedFs_dentries hx.1
    exact .root
  · obtain ⟨-, rfl⟩ := mountedFs_dentries hx
    cases hc

namespace Fs.Browsing

variable {d : Nat} {x : Dentry} {name : Name}

/-- A listing builds the cache from the block. -/
theorem iterate (h : fs.Browsing dev) (hx : fs.LooksIn d x) (pos : Nat) :
    wlp intr (Op.iterate d pos).code (fun _ fs' => fs'.Browsing dev) fs := by
  refine wlp_discard fun r fs1 hr => ?_
  rw [iterate_eq hx.1 pos] at hr
  cases hr
  refine ⟨h.same, h.next, fun e y hy => ?_, fun e y c hy hc => ?_⟩
  · obtain ⟨hy, hl, hdir⟩ := hy
    rw [Fs.setDentry_dentries] at hy
    split at hy
    · rename_i he
      cases hy
      exact h.dirs d x hx
    · exact h.dirs e y ⟨hy, hl, hdir⟩
  · rw [Fs.setDentry_dentries] at hy
    split at hy
    · obtain rfl := Option.some.inj hy
      obtain rfl := Option.some.inj hc
      rw [dirCacheOf, h.same]
      rcases hfd : x.fsdata with _ | c'
      · rw [Option.getD_none]
      · rw [Option.getD_some]
        exact h.cache d x c' hx.1 hfd
    · exact h.cache e y c hy hc

/-- What the cache finds is in a record of the directory. -/
theorem found (h : fs.Browsing dev) {c : DirCache} (hx : fs.dentries d = some x)
    (hc : x.fsdata = some c) {e : CacheEntry} (he : usedCacheEntryGet c name = some e) :
    dev.foundIn x.inode name = some e := by
  rw [Device.foundIn, ← h.cache d x c hx hc]
  exact he

/-- **A lookup** gets at one more dentry; if it is a directory's, then that can be reached. -/
theorem lookup (h : fs.Browsing dev) (hx : fs.LooksIn d x) (hname : name.Component) :
    wlp intr (Op.lookup d name).code (fun _ fs' => fs'.Browsing dev) fs := by
  refine wlp_discard (wlp_lookupObject (fun _ => h) fun x' c e hx' hc hget hlt => ?_)
  cases hx.1.symm.trans hx'
  have he := h.found hx' hc hget
  refine ⟨h.same, Nat.succ_ne_zero _, fun k y hy => ?_, fun k y c hy hc => ?_⟩
  · obtain ⟨hy, hl, hdir⟩ := hy
    rw [Fs.dAdd_dentries] at hy
    split at hy
    · rename_i hk
      cases hy
      rw [h.same] at hdir ⊢
      exact .child (h.dirs d x hx) hname he hlt (hdir.resolve_left (hk ▸ h.next))
    · exact h.dirs k y ⟨hy, hl, hdir⟩
  · rw [Fs.dAdd_dentries] at hy
    split at hy
    · cases hy
      cases hc
    · exact h.cache k y c hy hc

/-- A release takes a dentry away. -/
theorem release (h : fs.Browsing dev) (d : Nat) :
    wlp intr (Op.release d).code (fun _ fs' => fs'.Browsing dev) fs := by
  intro u fs1 hr
  cases hr
  refine ⟨h.same, h.next, fun e y hy => ?_, fun e y c hy hc => ?_⟩
  · exact h.dirs e y ⟨(Fs.of_update_none hy.1).2, hy.2⟩
  · exact h.cache e y c (Fs.of_update_none hy).2 hc

/-- **A lookup in an image whose records are in range** is not out of range. -/
theorem wlpf_lookup (h : fs.Browsing dev) (hx : fs.LooksIn d x) (hname : name.Component)
    (hn : dev.NumbersInRange) :
    wlpf intr Fault.OutOfRange (Op.lookup d name).code (fun _ _ => True) fs := by
  refine wlpf_bind (R := fun _ _ => True) (wlpf_step (fun err herr => ?_) fun r fs1 hr => ?_)
    fun _ _ _ => trivial
  · rw [lookupEntry, Fs.dentry_of_eq hx.1] at herr
    rcases hfd : x.fsdata with _ | c
    · simp only [bind, Except.bind, hfd] at herr
      cases herr
      rintro (hf | hf) <;> cases hf
    · simp only [bind, Except.bind, hfd] at herr
      cases herr
  obtain ⟨rfl, x', c, hx', hc, rfl⟩ := lookupEntry_ok hr
  cases hx.1.symm.trans hx'
  cases hget : usedCacheEntryGet c name with
  | none => trivial
  | some e =>
  have he := h.found hx' hc hget
  refine wlpf_lock fun i _ => ?_
  cases i with
  | true => trivial
  | false =>
  refine wlpf_step (fun err herr => ?_) fun v fs2 hr2 => ?_
  · have hlt := hn.records _ _ _ (h.dirs d x hx) hname he
    unfold readInode at herr
    rw [if_pos hlt] at herr
    cases herr
  exact wlpf_step (fun err herr => by cases herr) fun _ _ _ => trivial

end Fs.Browsing

/-- **Every state on the way.** -/
theorem Browsed.browsing (h : Browsed dev lk fs) : fs.Browsing dev := by
  induction h with
  | mount hrun =>
    obtain ⟨imap, rfl⟩ := Prog.wlp_run (wlp_fillSuper _) hrun rfl
    exact mountedFs_browsing imap _
  | iterate hb hx hrun ih =>
    have hend := Prog.wlp_run (ih.iterate hx _) hrun
    exact hend
  | lookup hb hx hno hname hrun ih =>
    have hend := Prog.wlp_run (ih.lookup hx hname) hrun
    exact hend
  | read hb ha hrun ih =>
    obtain ⟨rfl, -⟩ := run_read hrun
    exact ih
  | release hb ha hrun ih =>
    have hend := Prog.wlp_run (ih.release _) hrun
    exact hend

/-! ## 4. A way to every directory -/

/-- Dentry `d` is the directory with inode `v`.  It has been listed, and no name in it has been
looked up yet. -/
structure Fs.OpenAt (fs : Fs) (dev : Device) (d : Nat) (v : SfsInode) : Prop where
  dir : ∃ x, fs.LooksIn d x ∧ x.inode = v ∧
    x.fsdata = some (dirCacheBuild simplefsCacheAlloc (dev.record v.block))
  new : ∀ e y, fs.dentries e = some y → e < fs.next ∧ y.parent < fs.next
  bare : ∀ e y, fs.dentries e = some y → e ≠ 0 → y.parent ≠ d

theorem Fs.OpenAt.noChild {d : Nat} {v : SfsInode} (h : fs.OpenAt dev d v) (name : Name) :
    fs.NoChild d name :=
  fun e y he hy _ hp => absurd hp (h.bare e y hy he)

/-- A listing opens a directory whose dentry is new. -/
theorem Browsed.open {d : Nat} {x : Dentry} (hb : Browsed dev lk fs) (hx : fs.LooksIn d x)
    (hfd : x.fsdata = none)
    (hnew : ∀ e y, fs.dentries e = some y → e < fs.next ∧ y.parent < fs.next)
    (hbare : ∀ e y, fs.dentries e = some y → e ≠ 0 → y.parent ≠ d) :
    ∃ fs', Browsed dev lk fs' ∧ fs'.OpenAt dev d x.inode := by
  have hc : dirCacheOf fs x = dirCacheBuild simplefsCacheAlloc (dev.record x.inode.block) := by
    rw [dirCacheOf, hfd, Option.getD_none, hb.browsing.same]
  obtain ⟨x', hx'⟩ : ∃ x' : Dentry, x' = { x with fsdata := some (dirCacheOf fs x) } := ⟨_, rfl⟩
  have hrun : run quiet (Op.iterate d 0).code lk fs = (.returned () (fs.setDentry d x'), lk) := by
    rw [hx']
    exact run_iterate hx.1 0
  have hfd' : x'.fsdata = some (dirCacheBuild simplefsCacheAlloc (dev.record x.inode.block)) := by
    rw [hx', ← hc]
  have hold : ∀ e y, (fs.setDentry d x').dentries e = some y →
      ∃ z, fs.dentries e = some z ∧ z.parent = y.parent := by
    intro e y hy
    rw [Fs.setDentry_dentries] at hy
    split at hy
    · rename_i he
      obtain rfl := Option.some.inj hy
      refine ⟨x, he ▸ hx.1, ?_⟩
      rw [hx']
    · exact ⟨y, hy, rfl⟩
  have hlook : (fs.setDentry d x').LooksIn d x' := by
    refine ⟨?_, ?_⟩
    · rw [Fs.setDentry_dentries, if_pos rfl]
    · rw [hx']
      exact hx.2
  have hinode : x'.inode = x.inode := by rw [hx']
  refine ⟨_, .iterate hb hx hrun, ⟨x', hlook, hinode, hfd'⟩, fun e y hy => ?_, fun e y hy he => ?_⟩
  · obtain ⟨z, hz, hp⟩ := hold e y hy
    exact hp ▸ hnew e z hz
  · obtain ⟨z, hz, hp⟩ := hold e y hy
    exact hp ▸ hbare e z hz he

/-- **Every directory that can be reached is opened by some listings and lookups**, as long as the
mount itself is in range. -/
theorem Device.DirReached.opened {v : SfsInode} {w : BitVec 64} (h : dev.DirReached v)
    (hf : dev.Formatted) (hmap : fillImap dev.slot = .ok w) :
    ∃ fs d, Browsed dev LockState.free fs ∧ fs.OpenAt dev d v := by
  induction h with
  | root =>
    have hb : Browsed dev LockState.free (mountedFs dev w 0#64) :=
      .mount (run_fillSuper_of_fillImap hf hmap 0#64 rfl)
    have hx : (mountedFs dev w 0#64).LooksIn 0 ⟨0, ⟨[], Name.noNul_nil⟩, dev.slot 0, none, true⟩ :=
      ⟨rfl, rfl, Or.inl rfl⟩
    obtain ⟨fs', hb', hopen⟩ := hb.open hx rfl
      (fun e y hy => by
        obtain ⟨rfl, rfl⟩ := mountedFs_dentries hy
        exact ⟨Nat.one_pos, Nat.one_pos⟩)
      fun e y hy he => absurd (mountedFs_dentries hy).1 he
    exact ⟨fs', 0, hb', hopen⟩
  | @child v name e hv hname he hlt hdir ih =>
    obtain ⟨fs, d, hb, hopen⟩ := ih
    obtain ⟨x, hx, hxv, hc⟩ := hopen.dir
    have hsame := hb.browsing.same
    have hfound : usedCacheEntryGet (dirCacheBuild simplefsCacheAlloc (dev.record v.block)) name =
      some e := he
    have hin : ∀ e',
        usedCacheEntryGet (dirCacheBuild simplefsCacheAlloc (dev.record v.block)) name =
          some e' → slotAt e'.record.inodeNo < slotsPerBlock := by
      intro e' he'
      cases hfound.symm.trans he'
      exact hlt
    have hrun := run_lookupAt hx.1 hc name (LockState.free_held _) hin
    rw [hfound, hsame] at hrun
    have hb' := Browsed.lookup hb hx (hopen.noChild name) hname hrun
    have hne : fs.next ≠ 0 := hb.browsing.next
    have hadd := Fs.dAdd_dentries fs d name (dev.slot (slotAt e.record.inodeNo))
    have hlook : (fs.dAdd d name (dev.slot (slotAt e.record.inodeNo))).LooksIn fs.next
        ⟨d, name, dev.slot (slotAt e.record.inodeNo), none, true⟩ :=
      ⟨by rw [hadd, if_pos rfl], rfl, Or.inr hdir⟩
    have hd : d < fs.next := (hopen.new d x hx.1).1
    obtain ⟨fs', hb'', hopen'⟩ := hb'.open hlook rfl
      (fun k y hy => by
        rw [hadd] at hy
        split at hy
        · rename_i hk
          cases hy
          exact ⟨hk ▸ Nat.lt_succ_self _, Nat.lt_succ_of_lt hd⟩
        · have hk := hopen.new k y hy
          exact ⟨Nat.lt_succ_of_lt hk.1, Nat.lt_succ_of_lt hk.2⟩)
      fun k y hy hk => by
        rw [hadd] at hy
        split at hy
        · cases hy
          exact Nat.ne_of_lt hd
        · exact Nat.ne_of_lt (hopen.new k y hy).2
    exact ⟨fs', fs.next, hb'', hopen'⟩

/-- A lookup that finds a record whose number leads out of the block reads there. -/
theorem run_lookup_outOfBlock {d : Nat} {x : Dentry} {c : DirCache} {name : Name} {e : CacheEntry}
    (hx : fs.dentries d = some x) (hc : x.fsdata = some c)
    (he : usedCacheEntryGet c name = some e)
    (hge : ¬ slotAt e.record.inodeNo < slotsPerBlock) :
    run quiet (Op.lookup d name).code LockState.free fs =
      (.faulted .outOfBlock, LockState.free.take .inodesMgmt) := by
  have hent : lookupEntry d name fs = .ok (some e.record.inodeNo, fs) := by
    simp only [lookupEntry, Fs.dentry_of_eq hx, bind, Except.bind, hc, pure, Except.pure, he,
      Option.map_some]
  change run quiet (discard (simplefsLookup d name)) LockState.free fs = _
  rw [discard_eq, simplefsLookup, bind_assoc, Prog.run_step_bind, hent]
  simp only [bind_assoc, run_getInode _ _ (LockState.free_held _), quiet, Bool.false_eq_true,
    if_false, readInode, if_neg hge]

/-! ## 5. In bounds exactly if the numbers are in range -/

theorem Device.NumbersInRange.handledInBounds (hn : dev.NumbersInRange) : HandledInBounds dev where
  mount _ _ _ _ hrun := Prog.wlpf_run (wlpf_fillSuper hn.slots _) hrun
  lookup _ _ _ _ _ _ _ _ hb hx _ hname hrun :=
    Prog.wlpf_run (hb.browsing.wlpf_lookup hx hname hn) hrun

theorem HandledInBounds.slots (h : HandledInBounds dev) (hf : dev.Formatted) :
    (∀ i, i < slotsPerBlock - 1 → (dev.slot i).inodeNo.toNat < 64) ∧
      ∃ w, fillImap dev.slot = .ok w := by
  rcases fillImap_cases dev.slot with hok | ⟨-, herr⟩
  · exact hok
  · exact absurd (Or.inl rfl) (h.mount 0#64 quiet _ _ (run_fillSuper_outOfImap hf herr 0#64))

/-- A fresh image with one more inode, whose number has no bit in the bitmap. -/
def wideDevice : Device := freshDevice.setSlot 2 ⟨0x8000, 64#64, 4#64, 0#64⟩

theorem wideDevice_not_handledInBounds : wideDevice.Formatted ∧ ¬ HandledInBounds wideDevice := by
  have hf : wideDevice.Formatted :=
    Device.formatted_congr (Device.agreeOff_setSlot freshDevice 2 _) (by omega)
      freshDevice.formatted
  refine ⟨hf, fun h => ?_⟩
  have hslot : wideDevice.slot 2 = ⟨0x8000, 64#64, 4#64, 0#64⟩ := by
    rw [wideDevice, Device.slot_setSlot, if_pos rfl]
  have hlt := (h.slots hf).1 2 (by decide)
  rw [hslot] at hlt
  exact absurd hlt (by decide)

/-- **Which images are handled in bounds**: of those that pass the checks of a mount, the ones
whose numbers are in range. -/
theorem handledInBounds_iff (hf : dev.Formatted) : HandledInBounds dev ↔ dev.NumbersInRange := by
  constructor
  · intro h
    obtain ⟨hslots, w, hmap⟩ := h.slots hf
    refine ⟨hslots, fun v name e hv hname he => ?_⟩
    obtain ⟨fs, d, hb, hopen⟩ := hv.opened hf hmap
    obtain ⟨x, hx, -, hc⟩ := hopen.dir
    refine not_not.mp fun hge => ?_
    have hrun := run_lookup_outOfBlock hx.1 hc he hge
    exact h.lookup _ _ _ _ _ _ _ _ hb hx (hopen.noChild name) hname hrun (Or.inr rfl)
  · exact Device.NumbersInRange.handledInBounds

/-- What a lookup in the root of a fresh image finds. -/
theorem freshDevice.foundIn_root {name : Name} {e : CacheEntry}
    (h : freshDevice.foundIn rootInode name = some e) : e.record.inodeNo = 2#64 := by
  have hb : rootInode.block = 2 := by decide
  obtain ⟨-, hlt, hl, hrec, -⟩ := (dirCacheBuild_agrees _).usedCacheEntryGet_some h
  rw [hb] at hl hrec
  rcases Nat.eq_zero_or_pos e.entryNo with h0 | hpos
  · rw [hrec, h0, freshDevice.record_zero.1]
  · rw [freshDevice.record_rest hpos hlt] at hl
    exact absurd DirRecord.inodeNo_zero hl

/-- The root is its only directory. -/
theorem freshDevice.dirReached_iff {v : SfsInode} : freshDevice.DirReached v ↔ v = rootInode := by
  constructor
  · intro h
    induction h with
    | root => exact freshDevice.slot_zero
    | child hv hname he hlt hdir ih =>
      rw [ih] at he
      have hone : slotAt 2#64 = 1 := by decide
      rw [freshDevice.foundIn_root he, hone, freshDevice.slot_one] at hdir
      exact absurd hdir (by decide)
  · rintro rfl
    rw [← freshDevice.slot_zero]
    exact .root

theorem freshDevice.numbersInRange : freshDevice.NumbersInRange where
  slots i hi := by
    rcases i with _ | _ | i
    · rw [freshDevice.slot_zero]
      decide
    · rw [freshDevice.slot_one]
      decide
    · have hlt : i + 2 < 127 := hi
      rw [freshDevice.slot_rest (by omega) (by omega)]
      decide
  records v name e hv _ he := by
    rw [freshDevice.dirReached_iff.mp hv] at he
    rw [freshDevice.foundIn_root he]
    decide

/-- A fresh image is one of them. -/
theorem handledInBounds_iff_fresh : HandledInBounds freshDevice :=
  (handledInBounds_iff freshDevice.formatted).mpr freshDevice.numbersInRange

end Simplefs
