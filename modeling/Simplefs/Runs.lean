/-
# Runs and schedules

The invariant holds after every event of an uninterrupted run inside the defined cases, from a
freshly made image on, and at every point of every schedule of such calls.

Calls that work in a directory get there through their outlines; reading, writing and releasing
touch no more than one file or one dentry and are run directly.
-/
import Simplefs.Calls
import Simplefs.Mkfs
import Simplefs.Mount
import Simplefs.Outlines

namespace Simplefs

open Prog (Outline run LockState Config Admit Reach)

/-! ## 1. Calls that work in a directory -/

section Start

variable {T : Type} [DecidableEq T] {t : T}

/-- A thread starts on an operation, in a directory that no other thread works in. -/
theorem Inv.start {fs : Fs} {G : T → Phase} {g : Phase} {d : Nat} (hi : Inv fs G)
    (hidle : G t = .idle) (hd : g.dir = some d) (hp : g.pend = none) (ho : g.orphan = none)
    (hdi : g.dirty = none) (hg : g.going = none) (hloc : Local fs g)
    (hfree : ∀ u, u ≠ t → (G u).dir ≠ some d) : Inv fs (Function.update G t g) := by
  refine ⟨?_, ?_, ?_, ?_⟩
  · have hsame : shadow (Function.update G t g) = shadow G :=
      shadow_same (by rw [hidle, hp]; rfl) (by rw [hidle, ho]; rfl) (by rw [hidle, hdi]; rfl)
        (by rw [hidle, hg]; rfl)
    rw [hsame]
    exact hi.inv
  · intro u
    by_cases hut : u = t
    · subst hut
      rw [Function.update_self]
      exact hloc
    · rw [Function.update_of_ne hut]
      exact hi.loc u
  · intro u v e hu hv
    by_cases hut : u = t <;> by_cases hvt : v = t
    · rw [hut, hvt]
    · rw [hut, Function.update_self, hd] at hu
      rw [Function.update_of_ne hvt, ← hu] at hv
      exact absurd hv (hfree v hvt)
    · rw [hvt, Function.update_self, hd] at hv
      rw [Function.update_of_ne hut, ← hv] at hu
      exact absurd hu (hfree u hut)
    · rw [Function.update_of_ne hut] at hu
      rw [Function.update_of_ne hvt] at hv
      exact hi.dirs u v e hu hv
  · have hold : ∀ u i, (Function.update G t g u).orphan = some i → (G u).orphan = some i := by
      intro u i hu
      by_cases hut : u = t
      · rw [hut, Function.update_self, ho] at hu
        cases hu
      · rwa [Function.update_of_ne hut] at hu
    intro u v i hu hv
    exact hi.orphans u v i (hold u i hu) (hold v i hv)

/-- What the VFS has found out before it lets a name be created. -/
theorem FsInv.ready {fs : Fs} {S : Shadow} (hi : FsInv fs S) {p : Nat} {name : Name}
    (ha : fs.Absent p name) (hf : fs.HasFreeEntry p) : fs.Ready p name := by
  obtain ⟨x, hx, hno, hnone⟩ := ha
  obtain ⟨x', c, hx', hc, hfree⟩ := hf
  cases hx.1.symm.trans hx'
  refine ⟨hno, x, c, hx, hc, hfree, fun j k hent => ?_⟩
  obtain ⟨hj, hne, hname, -⟩ := Device.of_entry_eq_some hent
  rw [(hi.dir hx).2] at hne hname
  exact (hi.cache p x c hx.1 hc).2.usedCacheEntryGet_none (hnone c hc) hj hne hname

/-- **Every call that works in a directory starts at an outlined point.** -/
theorem Op.start {fs : Fs} {G : T → Phase} {op : Op} {d : Nat} (hi : Inv fs G)
    (hidle : G t = .idle) (hw : op.WorksIn fs d) (ha : op.Allowed fs) (hdef : op.Defined fs)
    (hfree : ∀ u, u ≠ t → (G u).dir ≠ some d) :
    ∃ g : Phase, g.view = .start d ∧ g.pick = none ∧ Inv fs (Function.update G t g) ∧
      Outline (discipline T) t op.code (fun _ => false) g := by
  cases op with
  | iterate e pos =>
    cases hw
    exact ⟨.busy d, rfl, rfl, hi.start hidle rfl rfl rfl rfl rfl ha hfree, outline_iterate⟩
  | lookup p name =>
    cases hw
    obtain ⟨x, hx, hno⟩ := ha
    obtain ⟨x', c, hx', hc⟩ := hdef
    cases hx.1.symm.trans hx'
    exact ⟨.looking d name, rfl, rfl,
      hi.start hidle rfl rfl rfl rfl rfl ⟨hno, x, c, hx, hc⟩ hfree, outline_lookup⟩
  | create p name mode =>
    cases hw
    exact ⟨.ready d name, rfl, rfl,
      hi.start hidle rfl rfl rfl rfl rfl (hi.inv.ready ha hdef.1) hfree, outline_create hdef.2⟩
  | mkdir p name mode =>
    cases hw
    exact ⟨.ready d name, rfl, rfl,
      hi.start hidle rfl rfl rfl rfl rfl (hi.inv.ready ha hdef.1) hfree, outline_create hdef.2⟩
  | unlink e =>
    obtain ⟨y, hy, rfl⟩ := hw
    obtain ⟨he, y', hy', hl, hreg⟩ := ha
    cases hy.symm.trans hy'
    obtain ⟨x, c, hx, hc⟩ := hdef y hy
    have hxd := (hi.inv.cache _ x c hx hc).1
    have hf := not_isDir_of_isReg hreg
    exact ⟨.leaving y.parent e, rfl, rfl, hi.start hidle rfl rfl rfl rfl rfl
      ⟨he, ⟨x, c, hxd, hc⟩, y, hy, hl, rfl, hf⟩ hfree, outline_unlink⟩
  | read d' ppos len userOk => exact hw.elim
  | write d' ppos data copied => exact hw.elim
  | release d' => exact hw.elim

/-- **Whatever the VFS admits can be outlined.** -/
theorem vfsAdmit_sound : (vfsAdmit T).Sound (discipline T) := by
  rintro fs G published t p w hi hidle hpub ⟨op, d, rfl, hw, ha, hdef, rfl, hfree⟩
  have hdirs : ∀ u, u ≠ t → (G u).dir ≠ some d := by
    intro u _ hu
    rcases hpub u with ⟨-, hGu⟩ | hpu
    · rw [hGu] at hu
      cases hu
    · exact hfree u _ hpu (Phase.view_dir hu)
  obtain ⟨g, hview, hpick, hinv, hout⟩ := Op.start hi hidle hw ha hdef hdirs
  exact ⟨g, hview, not_relies hpick, hinv, hout⟩

/-- **The invariant at every point of every schedule.** -/
theorem Reach.inv {fs : Fs} (h : FsInv fs Shadow.none)
    {c : Config Fs Progress Lock Site Fault Unit T}
    (hr : Reach (vfsAdmit T) (Config.quiescent fs) c) : Prog.Outlined (discipline T) c :=
  Prog.Reach.outlined vfsAdmit_sound hr (Prog.quiescent_outlined (inv_idle_iff.mpr h))

end Start

/-- A defined call that works in a directory, run alone and uninterrupted. -/
theorem FsInv.run_worksIn {fs : Fs} {op : Op} {d : Nat} (hi : FsInv fs Shadow.none)
    (hw : op.WorksIn fs d) (ha : op.Allowed fs) (hdef : op.Defined fs) :
    ∃ fs', run quiet op.code LockState.free fs = (.returned () fs', LockState.free) ∧
      FsInv fs' Shadow.none := by
  have hidle : Inv fs fun _ : Unit => Phase.idle := inv_idle_iff.mpr hi
  obtain ⟨g, -, hpick, hinv, hout⟩ :=
    Op.start hidle (rfl : (fun _ : Unit => Phase.idle) () = .idle) hw ha hdef fun u hu => by
      cases u
      exact absurd rfl hu
  have hrel : ∀ u : Unit, u ≠ () → ∀ l,
      ¬ (discipline Unit).relies (Function.update (fun _ => Phase.idle) () g u) l := fun u hu => by
    cases u
    exact absurd rfl hu
  have hout' : Outline (discipline Unit) () op.code (LockState.free : LockState Lock).held
      (Function.update (fun _ : Unit => Phase.idle) () g ()) := by
    rw [Function.update_self]
    exact hout
  obtain ⟨a, fs', hrun, hend⟩ := hout'.run_alone hinv hrel
  refine ⟨fs', hrun, ?_⟩
  have hidle' : Function.update (Function.update (fun _ : Unit => Phase.idle) () g) ()
      (discipline Unit).idle = fun _ => Phase.idle := by
    funext u
    cases u
    rw [Function.update_self]
    rfl
  rw [hidle'] at hend
  exact inv_idle_iff.mp hend

/-! ## 2. The other calls -/

theorem readFile_state {fs fs' : Fs} {d ppos len : Nat} {userOk : Bool}
    {r : Except Int (List UInt8) × Nat} (h : readFile d ppos len userOk fs = .ok (r, fs')) :
    fs' = fs := by
  unfold readFile at h
  cases hx : fs.dentry d with
  | error e =>
    rw [hx] at h
    cases h
  | ok x =>
    rw [hx] at h
    simp only [bind, Except.bind, pure, Except.pure] at h
    split at h
    · cases h; rfl
    split at h
    · cases h
    split at h <;> cases h <;> rfl

/-- A read changes nothing. -/
theorem run_read {intr : Site → Bool} {lk lk' : LockState Lock} {fs fs' : Fs} {d ppos len : Nat}
    {userOk : Bool} {a : Unit}
    (h : run intr (Op.read d ppos len userOk).code lk fs = (.returned a fs', lk')) :
    fs' = fs ∧ lk' = lk := by
  change run intr (discard (simplefsRead d ppos len userOk)) lk fs = _ at h
  rw [discard_eq, simplefsRead, Prog.run_step_bind] at h
  cases hr : readFile d ppos len userOk fs with
  | error e =>
    rw [hr] at h
    cases h
  | ok r =>
    rw [hr] at h
    simp only [Prog.run_pure] at h
    cases h
    exact ⟨readFile_state hr, rfl⟩

/-- The state once the size of dentry `d`'s inode is changed in memory and then saved. -/
def Fs.resaved (fs : Fs) (d : Nat) (x : Dentry) (size : Nat) : Fs :=
  { fs.setDentry d (x.resized size) with
    dev := fs.dev.setSlot x.slot (x.resized size).inode }

/-- The size of a linked file, changed in memory and then saved. -/
theorem FsInv.resize {fs : Fs} (hi : FsInv fs Shadow.none) {d : Nat} {x : Dentry}
    (hx : fs.Current Shadow.none d x) (size : Nat) :
    saveInode d (fs.setDentry d (x.resized size)) = .ok (true, fs.resaved d x size) ∧
      FsInv (fs.resaved d x size) Shadow.none := by
  have hi1 : FsInv (fs.setDentry d (x.resized size))
      { Shadow.none with dirty := fun e => e = d } :=
    hi.setDentry hx.1 rfl rfl rfl ⟨rfl, rfl, rfl⟩ (fun _ _ h => h.elim) (fun h => absurd rfl h)
      fun c hc => hi.cache d x c hx.1 hc
  have hx1 : (fs.setDentry d (x.resized size)).Current
      { Shadow.none with dirty := fun e => e = d } d (x.resized size) :=
    ⟨by rw [Fs.setDentry_dentries, if_pos rfl], hx.2⟩
  exact ⟨hi1.saveInode_eq hx1, hi1.save hx1 fun e he h => he h⟩

/-- The state after a write that is not interrupted. -/
def Fs.written (fs : Fs) (d : Nat) (x : Dentry) (ppos : Nat) (data : List UInt8)
    (copied : Nat) : Fs :=
  if copied < data.length then fs.copiedIn x ppos data copied
  else (fs.copiedIn x ppos data copied).resaved d x (ppos + data.length)

/-- The bytes of a write, inside the block of a linked file. -/
theorem FsInv.copiedIn {fs : Fs} (hi : FsInv fs Shadow.none) {d : Nat} {x : Dentry}
    (hx : fs.Current Shadow.none d x) (hf : isDir x.inode.mode = false) {ppos : Nat}
    {data : List UInt8} (hlen : ppos + data.length ≤ 4096) (copied : Nat) :
    FsInv (fs.copiedIn x ppos data copied) Shadow.none := by
  have hagree := Device.agreeOff_putData fs.dev x.inode.block ppos (copiedBytes data copied)
  rw [length_copiedBytes] at hagree
  have h1 := hi.write_block hx hf hagree (by omega) (by omega)
  exact h1.setTorn_tear (h1.ofFile (e := d) hx hf) fun b hb => fs.tear_ne _ hb

/-- A defined write, run alone and uninterrupted. -/
theorem FsInv.run_write {fs : Fs} {d ppos : Nat} {data : List UInt8} {x : Dentry}
    (hi : FsInv fs Shadow.none) (hx : fs.Current Shadow.none d x)
    (hreg : isReg x.inode.mode = true) (hlen : ppos + data.length ≤ 4096) (copied : Nat) :
    run quiet (Op.write d ppos data copied).code LockState.free fs =
        (.returned () (fs.written d x ppos data copied), LockState.free) ∧
      FsInv (fs.written d x ppos data copied) Shadow.none := by
  have hi1 := hi.copiedIn hx (not_isDir_of_isReg hreg) hlen copied
  have hx1 : (fs.copiedIn x ppos data copied).Current Shadow.none d x := hx
  obtain ⟨hsave, hi2⟩ := hi1.resize hx1 (ppos + data.length)
  have hfit : Fits ppos data := Or.inr hlen
  change run quiet (discard (simplefsWrite d ppos data copied)) LockState.free fs = _ ∧ _
  rw [discard_eq, Simplefs.run_write _ hx.1 rfl rfl, if_pos hfit]
  unfold Fs.written
  split
  · exact ⟨rfl, hi1⟩
  · simp only [quiet, Bool.false_eq_true, if_false, hsave, Prog.run_pure, true_and]
    exact hi2

/-- The release of a dentry without children. -/
theorem FsInv.run_release {fs : Fs} {d : Nat} (hi : FsInv fs Shadow.none)
    (ha : (Op.release d).Allowed fs) :
    ∃ fs', run quiet (Op.release d).code LockState.free fs =
      (.returned () fs', LockState.free) ∧ FsInv fs' Shadow.none :=
  ⟨_, rfl, hi.release ha.1 ha.2.2⟩

/-- **A defined call that returns, run alone and uninterrupted, leaves every lock free and keeps
the invariant.** -/
theorem FsInv.call {fs fs' : Fs} {op : Op} {lk : LockState Lock} (hi : FsInv fs Shadow.none)
    (ha : op.Allowed fs) (hdef : op.Defined fs)
    (hr : run quiet op.code LockState.free fs = (.returned () fs', lk)) :
    lk = LockState.free ∧ FsInv fs' Shadow.none := by
  have hdone : (∃ fs'', run quiet op.code LockState.free fs =
      (.returned () fs'', LockState.free) ∧ FsInv fs'' Shadow.none) →
      lk = LockState.free ∧ FsInv fs' Shadow.none := by
    rintro ⟨fs'', hrun, hi'⟩
    rw [hr] at hrun
    cases hrun
    exact ⟨rfl, hi'⟩
  cases op with
  | iterate d pos => exact hdone (hi.run_worksIn (d := d) rfl ha hdef)
  | lookup p name => exact hdone (hi.run_worksIn (d := p) rfl ha hdef)
  | create p name mode => exact hdone (hi.run_worksIn (d := p) rfl ha hdef)
  | mkdir p name mode => exact hdone (hi.run_worksIn (d := p) rfl ha hdef)
  | unlink e =>
    obtain ⟨he, y, hy, hrest⟩ := ha
    exact hdone (hi.run_worksIn (d := y.parent) ⟨y, hy, rfl⟩ ⟨he, y, hy, hrest⟩ hdef)
  | read d ppos len userOk =>
    obtain ⟨rfl, rfl⟩ := run_read hr
    exact ⟨rfl, hi⟩
  | write d ppos data copied =>
    obtain ⟨x, hx, hreg⟩ := ha
    exact hdone ⟨_, hi.run_write ⟨hx, hdef.2 x hx, id⟩ hreg hdef.1 copied⟩
  | release d => exact hdone (hi.run_release ha)

/-! ## 3. Whole runs -/

/-- The invariant of a system: the locks are free, and the device, or the filesystem that is
mounted on it, satisfies its invariant. -/
structure SysInv (s : Sys) : Prop where
  locks : s.locks = LockState.free
  offline : ∀ dev, s.mnt = .offline dev →
    ∃ imap, StoreInv dev imap (fun _ => False) ∧ TreeInv dev fun _ => False
  mounted : ∀ fs, s.mnt = .mounted fs → FsInv fs Shadow.none

theorem SysInv.of_mounted {fs : Fs} (h : FsInv fs Shadow.none) :
    SysInv ⟨LockState.free, .mounted fs⟩ :=
  ⟨rfl, fun _ hd => (by cases hd), fun _ hm => (by cases hm; exact h)⟩

theorem SysInv.of_offline {dev : Device} {imap : BitVec 64}
    (hs : StoreInv dev imap fun _ => False) (ht : TreeInv dev fun _ => False) :
    SysInv ⟨LockState.free, .offline dev⟩ :=
  ⟨rfl, fun _ hd => (by cases hd; exact ⟨imap, hs, ht⟩), fun _ hm => (by cases hm)⟩

/-- **One step.** -/
theorem DefinedStep.inv {s s' : Sys} (hstep : DefinedStep s s') (hi : SysInv s) : SysInv s' := by
  obtain ⟨ev, hallow, hdef, happ⟩ := hstep
  obtain ⟨hlk, hoff, hon⟩ := hi
  cases Event.leadsTo happ with
  | refused => exact ⟨hlk, hoff, hon⟩
  | @mount lk dev past imap hmap =>
    change lk = LockState.free at hlk
    subst hlk
    obtain ⟨imap', hs, ht⟩ := hoff dev rfl
    rw [hs.fillImap] at hmap
    cases hmap
    exact .of_mounted (mountedFs_inv hs ht past)
  | @umount lk fs =>
    change lk = LockState.free at hlk
    subst hlk
    exact .of_offline (hon fs rfl).restored.store (hon fs rfl).restored.tree
  | @call lk lk' op intr fs fs' hrun =>
    change lk = LockState.free at hlk
    subst hlk
    obtain ⟨rfl, hd⟩ := hdef op intr fs rfl rfl
    have ha := hallow op quiet fs rfl rfl
    obtain ⟨rfl, hi'⟩ := (hon fs rfl).call ha hd hrun
    exact .of_mounted hi'

/-- **Every run.** -/
theorem DefinedRun.inv {s s' : Sys} (hrun : DefinedRun s s') (hi : SysInv s) : SysInv s' := by
  induction hrun with
  | refl => exact hi
  | tail _ hstep ih => exact hstep.inv ih

/-- `Event.apply`, of a call that returns. -/
theorem Event.apply_call {op : Op} {intr : Site → Bool} {lk lk' : LockState Lock} {fs fs' : Fs}
    (h : run intr op.code lk fs = (.returned () fs', lk')) :
    Event.apply (.call op intr) ⟨lk, .mounted fs⟩ = some ⟨lk', .mounted fs'⟩ := by
  simp only [Event.apply, h]

/-- A defined call as a step. -/
theorem DefinedStep.call {op : Op} {lk lk' : LockState Lock} {fs fs' : Fs} (ha : op.Allowed fs)
    (hd : op.Defined fs) (h : run quiet op.code lk fs = (.returned () fs', lk')) :
    DefinedStep ⟨lk, .mounted fs⟩ ⟨lk', .mounted fs'⟩ := by
  refine ⟨.call op quiet, ?_, ?_, Event.apply_call h⟩
  · intro op' intr' fs0 hev hm
    cases hev
    cases hm
    exact ha
  · intro op' intr' fs0 hev hm
    cases hev
    cases hm
    exact ⟨rfl, hd⟩

/-- A mount as a step. -/
theorem DefinedStep.mount {lk lk' : LockState Lock} {dev : Device} {past : BitVec 64} {fs : Fs}
    (h : run quiet simplefsFillSuper lk (Fs.blank dev past) = (.returned 0 fs, lk')) :
    DefinedStep ⟨lk, .offline dev⟩ ⟨lk', .mounted fs⟩ := by
  have happ := Event.apply_mount_iff.mpr ⟨0, fs, lk', h, rfl⟩
  rw [if_pos rfl] at happ
  exact ⟨.mount past, nofun, nofun, happ⟩

/-- An unmount as a step. -/
theorem DefinedStep.umount (lk : LockState Lock) (fs : Fs) :
    DefinedStep ⟨lk, .mounted fs⟩ ⟨lk, .offline fs.flushed⟩ :=
  ⟨.umount, nofun, nofun, rfl⟩

/-! ## 4. The first steps of a run -/

/-- What `mkfs-simplefs` makes of a zeroed device. -/
theorem sysInv_mkfs {size : Nat} {dev : Device} (h : mkfs zeroMem size = (0, dev)) :
    SysInv ⟨LockState.free, .offline dev⟩ := by
  rw [mkfs_ok h]
  exact .of_offline freshDevice.store freshDevice.tree

/-- A device with the 35 blocks that the bitmap can name. -/
theorem mkfs_fresh : mkfs zeroMem 143360 = (0, freshDevice) := mkfs_room (by omega)

/-- The fresh image, mounted. -/
def freshFs : Fs := mountedFs freshDevice 7#64 0#64

/-- The dentry of its root. -/
def freshRoot : Dentry := ⟨0, ⟨[], Name.noNul_nil⟩, rootInode, none, true⟩

theorem freshFs_root : freshFs.DirAt 0 freshRoot := by
  refine ⟨?_, rfl, rfl⟩
  rw [freshFs, mountedFs, freshDevice.slot_zero]
  rfl

theorem run_fillSuper_fresh : run quiet simplefsFillSuper LockState.free
    (Fs.blank freshDevice 0#64) = (.returned 0 freshFs, LockState.free) :=
  run_fillSuper freshDevice.store 0#64 (LockState.free_held _)

theorem Event.apply_mount_fresh : Event.apply (.mount 0#64)
    ⟨LockState.free, .offline freshDevice⟩ = some ⟨LockState.free, .mounted freshFs⟩ := by
  simp only [Event.apply, run_fillSuper_fresh, if_true]

theorem DefinedRun.mount :
    DefinedRun ⟨LockState.free, .offline freshDevice⟩ ⟨LockState.free, .mounted freshFs⟩ :=
  .single (.mount run_fillSuper_fresh)

/-- Listing a directory builds its cache. -/
theorem run_iterate {intr : Site → Bool} {lk : LockState Lock} {fs : Fs} {d : Nat} {x : Dentry}
    (hx : fs.dentries d = some x) (pos : Nat) : run intr (Op.iterate d pos).code lk fs =
      (.returned () (fs.setDentry d { x with fsdata := some (dirCacheOf fs x) }), lk) := by
  change run intr (discard (simplefsIterate d pos)) lk fs = _
  rw [discard_eq, simplefsIterate, Prog.run_step_bind, iterate_eq hx pos]
  rfl

/-- A lookup in a directory whose cache is built, whatever numbers its records have. -/
theorem run_lookupAt {lk : LockState Lock} {fs : Fs} {p : Nat} {x : Dentry} {c : DirCache}
    (hx : fs.dentries p = some x) (hc : x.fsdata = some c) (name : Name)
    (hl : lk.held .inodesMgmt = false)
    (hlt : ∀ e, usedCacheEntryGet c name = some e → slotAt e.record.inodeNo < slotsPerBlock) :
    run quiet (Op.lookup p name).code lk fs =
      (.returned () (match usedCacheEntryGet c name with
        | some e => fs.dAdd p name (fs.dev.slot (slotAt e.record.inodeNo))
        | none => fs), lk) := by
  have hent : lookupEntry p name fs =
      .ok ((usedCacheEntryGet c name).map fun e => e.record.inodeNo, fs) := by
    simp only [lookupEntry, Fs.dentry_of_eq hx, bind, Except.bind, hc, pure, Except.pure]
  change run quiet (discard (simplefsLookup p name)) lk fs = _
  rw [discard_eq, simplefsLookup, bind_assoc, Prog.run_step_bind, hent]
  cases hget : usedCacheEntryGet c name with
  | none => rfl
  | some e =>
    simp only [Option.map_some, bind_assoc, run_getInode _ _ hl, quiet, Bool.false_eq_true,
      if_false, readInode, if_pos (hlt e hget), Prog.run_step_bind, attach, pure_bind,
      Prog.run_pure]

/-- ... and one where they are those of slots. -/
theorem run_lookup {lk : LockState Lock} {fs : Fs} {p : Nat} {x : Dentry} {c : DirCache}
    (hx : fs.dentries p = some x) (hc : x.fsdata = some c) (name : Name)
    (hl : lk.held .inodesMgmt = false)
    (hlt : ∀ e, usedCacheEntryGet c name = some e → slotIndex e.record.inodeNo < slotsPerBlock) :
    run quiet (Op.lookup p name).code lk fs =
      (.returned () (match usedCacheEntryGet c name with
        | some e => fs.dAdd p name (fs.dev.slot (slotIndex e.record.inodeNo))
        | none => fs), lk) := by
  have hat : ∀ e, usedCacheEntryGet c name = some e →
      slotAt e.record.inodeNo = slotIndex e.record.inodeNo := fun e he => slotAt_of_lt (hlt e he)
  rw [run_lookupAt hx hc name hl fun e he => (hat e he).symm ▸ hlt e he]
  cases hget : usedCacheEntryGet c name with
  | none => rfl
  | some e => simp only [hat e hget]

/-- What a cache of a consistent filesystem finds is in the inode store. -/
theorem FsInv.lookup_lt {fs : Fs} {p : Nat} {x : Dentry} {c : DirCache}
    (hi : FsInv fs Shadow.none) (hx : fs.dentries p = some x) (hc : x.fsdata = some c)
    {name : Name} (e : CacheEntry) (he : usedCacheEntryGet c name = some e) :
    slotIndex e.record.inodeNo < slotsPerBlock := by
  obtain ⟨hxd, hagree⟩ := hi.cache p x c hx hc
  obtain ⟨-, hj, hl, hrec, -⟩ := hagree.usedCacheEntryGet_some he
  obtain ⟨hd, hb⟩ := hi.dir hxd
  rw [← hb] at hl hrec
  rw [hrec]
  exact (hi.tree.wf.target _ _ _ ⟨hd, _, Device.entry_eq_some hj rfl hl⟩).1.lt

/-- The root's dentry once its cache is built. -/
def listedRoot : Dentry := { freshRoot with fsdata := some (dirCacheOf freshFs freshRoot) }

/-- The fresh image, mounted, after a listing of its root. -/
def listedFs : Fs := freshFs.setDentry 0 listedRoot

theorem DefinedStep.listed :
    DefinedStep ⟨LockState.free, .mounted freshFs⟩ ⟨LockState.free, .mounted listedFs⟩ := by
  have ha : (Op.iterate 0 0).Allowed freshFs := ⟨_, freshFs_root⟩
  have hr : run quiet (Op.iterate 0 0).code LockState.free freshFs =
      (.returned () listedFs, LockState.free) := run_iterate freshFs_root.1 0
  exact .call ha trivial hr

theorem DefinedRun.listed :
    DefinedRun ⟨LockState.free, .offline freshDevice⟩ ⟨LockState.free, .mounted listedFs⟩ :=
  .tail DefinedRun.mount DefinedStep.listed

theorem listedFs_root : listedFs.DirAt 0 listedRoot := by
  refine ⟨?_, rfl, rfl⟩
  rw [listedFs, Fs.setDentry_dentries, if_pos rfl]

theorem listedFs_inv : FsInv listedFs Shadow.none :=
  (DefinedRun.inv DefinedRun.listed (sysInv_mkfs mkfs_fresh)).mounted _ rfl

theorem listedFs_agrees : (dirCacheOf freshFs freshRoot).Agrees (freshDevice.record 2) := by
  have hb : freshRoot.inode.block = 2 := by decide
  have hfd : freshRoot.fsdata = none := rfl
  rw [dirCacheOf, hfd, Option.getD_none, hb]
  exact dirCacheBuild_agrees _

/-- A name that a fresh image does not have. -/
def newName : Name := ⟨[110, 101, 119], by decide⟩

/-- The listed root has a free entry, ... -/
theorem listedFs_hasFreeEntry : listedFs.HasFreeEntry 0 := by
  refine ⟨listedRoot, _, listedFs_root.1, rfl, ?_⟩
  refine listedFs_agrees.free_ne_nil_iff.mpr ⟨1, by decide, ?_⟩
  rw [freshDevice.record_rest (by omega) (by omega)]
  exact DirRecord.inodeNo_zero

/-- ... and of its names only the welcome file's is taken. -/
theorem usedCacheEntryGet_listed (name : Name) :
    usedCacheEntryGet (dirCacheOf freshFs freshRoot) name =
      if name.bytes = vanakkam then some ⟨freshDevice.record 2 0, 0⟩ else none := by
  have ha := listedFs_agrees
  obtain ⟨hno, hname⟩ := freshDevice.record_zero
  have hlive : (freshDevice.record 2 0).inodeNo ≠ 0#64 := by
    rw [hno]
    decide
  cases hget : usedCacheEntryGet (dirCacheOf freshFs freshRoot) name with
  | none =>
    have := ha.usedCacheEntryGet_none hget (i := 0) (by decide) hlive
    rw [hname] at this
    rw [if_neg fun h => this h.symm]
  | some e =>
    obtain ⟨-, hlt, hl, hrec, hn⟩ := ha.usedCacheEntryGet_some hget
    have he : e.entryNo = 0 := by
      by_contra hne
      rw [freshDevice.record_rest (by omega) hlt] at hl
      exact hl DirRecord.inodeNo_zero
    rw [he] at hrec hn
    rw [if_pos (hn.symm.trans hname)]
    exact congrArg some (CacheEntry.ext hrec he)

theorem listedFs_noChild (name : Name) : listedFs.NoChild 0 name := by
  intro e y he hy
  rw [listedFs, Fs.setDentry_dentries, if_neg he] at hy
  exact absurd (mountedFs_dentries hy).1 he

theorem listedFs_absent {name : Name} (hv : name.bytes ≠ vanakkam) : listedFs.Absent 0 name := by
  refine ⟨listedRoot, listedFs_root, listedFs_noChild name, fun c hc => ?_⟩
  cases hc
  rw [usedCacheEntryGet_listed, if_neg hv]

theorem listedFs_newName : listedFs.Absent 0 newName := listedFs_absent (by decide)

/-- The name of the welcome file. -/
def welcomeName : Name := ⟨vanakkam, by decide⟩

/-- The dentry that a lookup makes for it. -/
def welcomeDentry : Dentry := ⟨0, welcomeName, welcomeInode, none, true⟩

/-- The fresh image, mounted, its root listed and the welcome file looked up. -/
def foundFs : Fs := listedFs.dAdd 0 welcomeName welcomeInode

theorem listedFs_lookup : (Op.lookup 0 welcomeName).Allowed listedFs :=
  ⟨_, listedFs_root, listedFs_noChild welcomeName⟩

theorem listedFs_lookup_defined : (Op.lookup 0 welcomeName).Defined listedFs :=
  ⟨_, _, listedFs_root.1, rfl⟩

theorem run_lookup_welcome : run quiet (Op.lookup 0 welcomeName).code LockState.free listedFs =
    (.returned () foundFs, LockState.free) := by
  have hget : usedCacheEntryGet (dirCacheOf freshFs freshRoot) welcomeName =
      some ⟨freshDevice.record 2 0, 0⟩ := by
    rw [usedCacheEntryGet_listed]
    exact if_pos rfl
  have hslot : slotIndex (freshDevice.record 2 0).inodeNo = 1 := by
    rw [freshDevice.record_zero.1]
    decide
  have hfd : listedRoot.fsdata = some (dirCacheOf freshFs freshRoot) := rfl
  have hr : run quiet (Op.lookup 0 welcomeName).code LockState.free listedFs = _ :=
    run_lookup listedFs_root.1 hfd welcomeName rfl fun e he => by
      cases hget.symm.trans he
      rw [hslot]
      decide
  rw [hget] at hr
  simp only [hslot] at hr
  have hv : listedFs.dev.slot 1 = welcomeInode := freshDevice.slot_one
  rw [hv] at hr
  exact hr

theorem DefinedStep.found :
    DefinedStep ⟨LockState.free, .mounted listedFs⟩ ⟨LockState.free, .mounted foundFs⟩ :=
  .call listedFs_lookup listedFs_lookup_defined run_lookup_welcome

theorem DefinedRun.found :
    DefinedRun ⟨LockState.free, .offline freshDevice⟩ ⟨LockState.free, .mounted foundFs⟩ :=
  .tail DefinedRun.listed DefinedStep.found

theorem foundFs_inv : FsInv foundFs Shadow.none :=
  (DefinedRun.inv DefinedRun.found (sysInv_mkfs mkfs_fresh)).mounted _ rfl

theorem foundFs_root : foundFs.DirAt 0 listedRoot := by
  refine ⟨?_, listedFs_root.2⟩
  rw [foundFs, Fs.dAdd_dentries, if_neg (by decide)]
  exact listedFs_root.1

theorem foundFs_welcome : foundFs.dentries 1 = some welcomeDentry := by
  rw [foundFs, Fs.dAdd_dentries]
  exact if_pos rfl

theorem foundFs_unlink : (Op.unlink 1).Allowed foundFs :=
  ⟨by decide, welcomeDentry, foundFs_welcome, rfl, by decide⟩

end Simplefs
