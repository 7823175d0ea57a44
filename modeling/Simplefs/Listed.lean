/-
# The cache that a listing builds

`simplefs_iterate` is the one operation that builds a directory's cache, and it hangs it on the
dentry.  `simplefs_lookup`, `simplefs_create_fs_object` and `simplefs_unlink` take it from the
parent's dentry as it is: the first and the last walk its lists, the other one stops at
`BUG_ON(!dir_cache)`.

A dentry has a cache from its first listing on.  This says nothing about the directory: after a
release and another lookup, or another mount, its dentry is a new one, without a cache.  So the
history of a run decides, and all of it is kept here: every call, interrupted or not.
-/
import Simplefs.Bounds

namespace Simplefs

open Prog (run LockState wlp wlp_step wlp_lock wlp_unlock wlp_read wlp_bind wlpf wlpf_step
  wlpf_stepObs wlpf_lock wlpf_unlock wlpf_read wlpf_bind wlpf_wlp wlpf_fault)

/-! ## 1. Histories -/

/-- What an event does to the list of the dentries that have been listed. -/
def Event.listed : List Nat → Event → List Nat
  | _, .mount _ => []
  | _, .umount => []
  | l, .call (.iterate d _) _ => d :: l
  | l, .call (.release d) _ => l.filter (· ≠ d)
  | l, .call _ _ => l

/-- The dentries that have been listed since the mount, and not been released. -/
def listed (evs : List Event) : List Nat := evs.foldl Event.listed []

/-- What the VFS may issue, one event after the other, interrupted or not. -/
inductive History (s : Sys) : List Event → Sys → Prop where
  | nil : History s [] s
  | snoc {evs : List Event} {ev : Event} {s1 s2 : Sys} : History s evs s1 → ev.Allowed s1 →
      ev.apply s1 = some s2 → History s (evs ++ [ev]) s2

/-- Runs without interruptions are histories. -/
theorem DefinedRun.history {s s' : Sys} (h : DefinedRun s s') : ∃ evs, History s evs s' := by
  induction h with
  | refl => exact ⟨[], .nil⟩
  | tail _ hstep ih =>
    obtain ⟨evs, hr⟩ := ih
    obtain ⟨ev, ha, -, happ⟩ := hstep
    exact ⟨evs ++ [ev], hr.snoc ha happ⟩

/-- The call consults the cache of dentry `d`. -/
def Op.Consults (fs : Fs) (d : Nat) : Op → Prop
  | .lookup p _ => p = d
  | .create p _ _ => p = d
  | .mkdir p _ _ => p = d
  | .unlink e => ∃ y, fs.dentries e = some y ∧ y.parent = d
  | _ => False

/-! ## 2. The dentries with a cache -/

/-- `l` lists the dentries that have a cache; new dentries get numbers of their own, and parents
are not released before their children. -/
structure Fs.CachesAre (fs : Fs) (l : List Nat) : Prop where
  built : ∀ d, fs.CacheBuilt d ↔ d ∈ l
  fresh : ∀ d, fs.next ≤ d → fs.dentries d = none
  parent : ∀ e y, fs.dentries e = some y → ∃ x, fs.dentries y.parent = some x

/-- Nothing has happened to the dentries. -/
def SameDentries (fs fs' : Fs) : Prop := fs'.dentries = fs.dentries ∧ fs'.next = fs.next

namespace Fs.CachesAre

variable {fs fs' : Fs} {l : List Nat} {d p : Nat} {x x' : Dentry}

theorem of_same (h : fs.CachesAre l) (hs : SameDentries fs fs') : fs'.CachesAre l := by
  obtain ⟨hd, hn⟩ := hs
  refine ⟨fun d => ?_, fun d hle => ?_, fun e y hy => ?_⟩
  · rw [← h.built d, Fs.CacheBuilt, Fs.CacheBuilt, hd]
  · rw [hd]
    exact h.fresh d (hn ▸ hle)
  · rw [hd] at hy ⊢
    exact h.parent e y hy

/-- A dentry is written: it has a cache afterwards if `l'` says so. -/
theorem setDentry {l' : List Nat} (h : fs.CachesAre l) (hx : fs.dentries d = some x)
    (hp : x'.parent = x.parent) (hd : (∃ c, x'.fsdata = some c) ↔ d ∈ l')
    (hl : ∀ e, e ≠ d → (e ∈ l' ↔ e ∈ l)) : (fs.setDentry d x').CachesAre l' := by
  constructor
  case built =>
    intro e
    rw [Fs.CacheBuilt, Fs.setDentry_dentries]
    by_cases he : e = d
    · rw [if_pos he, he, ← hd]
      constructor
      · rintro ⟨y, c, hy, hc⟩
        cases hy
        exact ⟨c, hc⟩
      · rintro ⟨c, hc⟩
        exact ⟨x', c, rfl, hc⟩
    · rw [if_neg he, hl e he]
      exact h.built e
  case fresh =>
    intro e hle
    have hnone := h.fresh e hle
    rw [Fs.setDentry_dentries, if_neg, hnone]
    rintro rfl
    rw [hx] at hnone
    cases hnone
  case parent =>
    intro e y hy
    have hold : ∃ z, fs.dentries y.parent = some z := by
      rw [Fs.setDentry_dentries] at hy
      split at hy
      · cases hy
        rw [hp]
        exact h.parent d x hx
      · exact h.parent e y hy
    rw [Fs.setDentry_dentries]
    split
    · exact ⟨x', rfl⟩
    · exact hold

/-- A dentry is written that keeps its cache, or its lack of one. -/
theorem setDentry_keep (h : fs.CachesAre l) (hx : fs.dentries d = some x)
    (hp : x'.parent = x.parent) (hc : x'.fsdata.isSome = x.fsdata.isSome) :
    (fs.setDentry d x').CachesAre l := by
  refine h.setDentry hx hp ?_ fun _ _ => Iff.rfl
  rw [← h.built d, ← Option.isSome_iff_exists, hc, Option.isSome_iff_exists]
  constructor
  · rintro ⟨c, hc⟩
    exact ⟨x, c, hx, hc⟩
  · rintro ⟨y, c, hy, hc⟩
    cases hx.symm.trans hy
    exact ⟨c, hc⟩

/-- A new dentry has no cache. -/
theorem dAdd (h : fs.CachesAre l) (hx : fs.dentries p = some x) (name : Name) (v : SfsInode) :
    (fs.dAdd p name v).CachesAre l := by
  constructor
  case built =>
    intro e
    rw [← h.built e, Fs.CacheBuilt, Fs.CacheBuilt, Fs.dAdd_dentries]
    by_cases he : e = fs.next
    · rw [if_pos he, he, h.fresh _ (Nat.le_refl _)]
      constructor
      · rintro ⟨y, c, hy, hc⟩
        cases hy
        cases hc
      · rintro ⟨y, c, hy, -⟩
        cases hy
    · rw [if_neg he]
  case fresh =>
    intro e hle
    have hlt : fs.next < e := hle
    rw [Fs.dAdd_dentries, if_neg (Nat.ne_of_gt hlt)]
    exact h.fresh e (Nat.le_of_lt hlt)
  case parent =>
    intro e y hy
    have hold : ∃ z, fs.dentries y.parent = some z := by
      rw [Fs.dAdd_dentries] at hy
      split at hy
      · cases hy
        exact ⟨x, hx⟩
      · exact h.parent e y hy
    rw [Fs.dAdd_dentries]
    split
    · exact ⟨_, rfl⟩
    · exact hold

/-- A dentry without children is released. -/
theorem release (h : fs.CachesAre l) (hd : ∀ e y, fs.dentries e = some y → y.parent ≠ d) :
    Fs.CachesAre { fs with dentries := Function.update fs.dentries d none }
      (l.filter (· ≠ d)) := by
  obtain ⟨fs', hfs'⟩ : ∃ u, u = { fs with dentries := Function.update fs.dentries d none } :=
    ⟨_, rfl⟩
  have hupd : ∀ e, fs'.dentries e = if e = d then none else fs.dentries e := fun e => by
    rw [hfs']
    exact Function.update_apply _ _ _ _
  rw [← hfs']
  constructor
  case built =>
    intro e
    rw [List.mem_filter, ← h.built e, Fs.CacheBuilt, Fs.CacheBuilt, hupd]
    by_cases he : e = d
    · simp [he]
    · simp [he]
  case fresh =>
    intro e hle
    rw [hupd]
    split
    · rfl
    · rw [hfs'] at hle
      exact h.fresh e hle
  case parent =>
    intro e y hy
    rw [hupd] at hy
    split at hy
    · cases hy
    · rw [hupd, if_neg (hd e y hy)]
      exact h.parent e y hy

end Fs.CachesAre

/-! ## 3. What the calls do to them -/

section Calls

variable {fs fs' : Fs} {intr : Site → Bool} {l : List Nat}

/-- The faults of a cache that is not there. -/
def Fault.NoCache (err : Fault) : Prop := err = .nullCache ∨ err = .bugOn

/-- The faults that a call which consults the cache of dentry `d` is to be spared: those of a
missing cache, if it is not missing. -/
def Spared (l : List Nat) (d : Nat) (err : Fault) : Prop := err.NoCache ∧ d ∈ l

theorem not_noCache_of_saveInode {d : Nat} {err : Fault} (hr : saveInode d fs = .error err) :
    ¬ err.NoCache := by
  simp only [saveInode, Fs.dentry, bind, Except.bind, pure, Except.pure] at hr
  split at hr
  · rename_i heq
    split at heq <;> cases heq
    cases hr
    rintro (h | h) <;> cases h
  · split at hr
    · split at hr <;> cases hr
      rintro (h | h) <;> cases h
    · cases hr

theorem not_noCache_of_addInode {v : SfsInode} {err : Fault} (hr : addInode v fs = .error err) :
    ¬ err.NoCache := by
  unfold addInode at hr
  split at hr
  · split at hr <;> cases hr
    rintro (h | h) <;> cases h
  · cases hr
    rintro (h | h) <;> cases h

theorem not_noCache_of_delInode {ino : BitVec 64} {err : Fault}
    (hr : delInode ino fs = .error err) : ¬ err.NoCache := by
  unfold delInode at hr
  split at hr
  · split at hr <;> cases hr
    rintro (h | h) <;> cases h
  · cases hr
    rintro (h | h) <;> cases h

/-- Adding a record misses the cache only if there is none. -/
theorem not_noCache_of_addRecord {p : Nat} {name : Name} {ino : BitVec 64} {err : Fault}
    (hr : addRecord p name ino fs = .error err) (hb : fs.CacheBuilt p) : ¬ err.NoCache := by
  obtain ⟨x, c, hx, hc⟩ := hb
  simp only [addRecord, Fs.dentry_of_eq hx, bind, Except.bind, hc] at hr
  split at hr
  · cases hr
    rintro (h | h) <;> cases h
  · split at hr <;> cases hr
    rintro (h | h) <;> cases h

/-- So does removing one. -/
theorem not_noCache_of_removeRecord {e : Nat} {y : Dentry} {err : Fault}
    (hy : fs.dentries e = some y) (hr : removeRecord e fs = .error err)
    (hb : fs.CacheBuilt y.parent) : ¬ err.NoCache := by
  obtain ⟨x, c, hx, hc⟩ := hb
  simp only [removeRecord, Fs.dentry_of_eq hy, Fs.dentry_of_eq hx, bind, Except.bind, hc] at hr
  split at hr
  · cases hr
    rintro (h | h) <;> cases h
  · split at hr <;> cases hr
    rintro (h | h) <;> cases h

/-- `simplefs_inode_save` writes to the device alone. -/
theorem same_inodeSave (d : Nat) :
    wlpf intr Fault.NoCache (simplefsInodeSave d) (fun _ fs' => SameDentries fs fs') fs := by
  refine wlpf_lock fun i _ => ?_
  cases i with
  | true => exact ⟨rfl, rfl⟩
  | false =>
    refine wlpf_step (fun _ hr => not_noCache_of_saveInode hr) fun found fs1 hr => ?_
    obtain ⟨x, -, ⟨rfl, rfl⟩ | ⟨rfl, i, -, -, rfl⟩⟩ := saveInode_ok hr
    · exact ⟨rfl, rfl⟩
    · exact ⟨rfl, rfl⟩

/-- So does `simplefs_inode_add`, and to the inode bitmap. -/
theorem same_inodeAdd (v : SfsInode) :
    wlpf intr Fault.NoCache (simplefsInodeAdd v) (fun _ fs' => SameDentries fs fs') fs := by
  refine wlpf_lock fun i _ => ?_
  cases i with
  | true => exact ⟨rfl, rfl⟩
  | false =>
    refine wlpf_lock fun i _ => ?_
    cases i with
    | true => exact ⟨rfl, rfl⟩
    | false =>
      refine wlpf_stepObs (fun _ hr => not_noCache_of_addInode hr) fun u fs1 hr => ?_
      obtain ⟨i, -, -, rfl⟩ := addInode_ok hr
      exact ⟨rfl, rfl⟩

/-- And `simplefs_inode_del`. -/
theorem same_inodeDel (ino : BitVec 64) :
    wlpf intr Fault.NoCache (simplefsInodeDel ino) (fun _ fs' => SameDentries fs fs') fs := by
  refine wlpf_lock fun i _ => ?_
  cases i with
  | true => exact ⟨rfl, rfl⟩
  | false =>
    refine wlpf_lock fun i _ => ?_
    cases i with
    | true => exact ⟨rfl, rfl⟩
    | false =>
      refine wlpf_step (fun _ hr => not_noCache_of_delInode hr) fun u fs1 hr => ?_
      obtain ⟨i, -, -, rfl⟩ := delInode_ok hr
      exact ⟨rfl, rfl⟩

/-- `simplefs_get_inode` writes nothing. -/
theorem same_getInode (ino : BitVec 64) :
    wlpf intr Fault.NoCache (simplefsGetInode ino) (fun _ fs' => fs = fs') fs := by
  refine wlpf_lock fun i _ => ?_
  cases i with
  | true => rfl
  | false =>
    refine wlpf_step (fun err hr => ?_) fun v fs1 hr => ?_ <;> unfold readInode at hr
    · split at hr <;> cases hr
      rintro (h | h) <;> cases h
    · split at hr <;> cases hr
      rfl

/-- `simplefs_sb_get_a_freeblock` writes to the superblock. -/
theorem same_getAFreeblock :
    wlpf intr Fault.NoCache simplefsSbGetAFreeblock (fun _ fs' => SameDentries fs fs') fs := by
  refine wlpf_lock fun i _ => ?_
  cases i with
  | true => exact ⟨rfl, rfl⟩
  | false =>
    refine wlpf_stepObs (fun err hr => ?_) fun r fs1 hr => ?_ <;> unfold takeFreeBlock at hr
    · split at hr <;> cases hr
    · have hsame : SameDentries fs fs1 := by
        split at hr <;> cases hr <;> exact ⟨rfl, rfl⟩
      cases r <;> exact hsame

/-- `simplefs_sb_get_objects_count` writes nothing. -/
theorem same_getObjectsCount :
    wlpf intr Fault.NoCache simplefsSbGetObjectsCount (fun _ fs' => fs = fs') fs := by
  refine wlpf_lock fun i _ => ?_
  cases i with
  | true => rfl
  | false => exact wlpf_read fun _ _ => rfl

/-- The record of a new entry: the directory had a cache, and has one. -/
theorem caches_addRecord (h : fs.CachesAre l) {p : Nat} {name : Name} {ino : BitVec 64} {u : Unit}
    (hr : addRecord p name ino fs = .ok (u, fs')) : fs'.CachesAre l := by
  obtain ⟨x, c, e, hx, hc, -, -, rfl⟩ := addRecord_ok hr
  refine Fs.CachesAre.setDentry_keep (h.of_same ⟨rfl, rfl⟩) hx rfl ?_
  rw [hc]
  rfl

theorem caches_removeRecord (h : fs.CachesAre l) {e : Nat} {r : Nat × BitVec 64}
    (hr : removeRecord e fs = .ok (r, fs')) : fs'.CachesAre l := by
  obtain ⟨y, x, c, entry, ⟨-, hx, hc, -, -⟩, -, rfl⟩ := removeRecord_ok hr
  refine Fs.CachesAre.setDentry_keep (h.of_same ⟨rfl, rfl⟩) hx rfl ?_
  rw [hc]
  rfl

/-- **A listing.** -/
theorem caches_iterate (h : fs.CachesAre l) {d : Nat} {x : Dentry} (hx : fs.dentries d = some x)
    (pos : Nat) : wlp intr (simplefsIterate d pos) (fun _ fs' => fs'.CachesAre (d :: l)) fs := by
  intro r fs1 hr
  rw [iterate_eq hx pos] at hr
  cases hr
  refine h.setDentry hx rfl ⟨fun _ => List.mem_cons_self, fun _ => ⟨_, rfl⟩⟩ fun e he => ?_
  rw [List.mem_cons]
  exact or_iff_right he

/-- **A lookup.** -/
theorem caches_lookup (h : fs.CachesAre l) {p : Nat} {x : Dentry} (hx : fs.dentries p = some x)
    (name : Name) :
    wlpf intr (Spared l p) (simplefsLookup p name) (fun _ fs' => fs'.CachesAre l) fs := by
  refine wlpf_step (fun err hr => ?_) fun r fs1 hr => ?_
  · rintro ⟨herr, hp⟩
    obtain ⟨x', c, hx', hc⟩ := (h.built p).mpr hp
    simp only [lookupEntry, Fs.dentry_of_eq hx', bind, Except.bind, hc, pure, Except.pure] at hr
    cases hr
  obtain ⟨rfl, -⟩ := lookupEntry_ok hr
  cases r with
  | none => exact h
  | some ino =>
    refine wlpf_bind (wlpf_fault (same_getInode ino) fun _ he => he.1) ?_
    rintro v _ rfl
    cases v with
    | none => exact h
    | some v =>
      refine wlpf_step (fun err hr => by cases hr) fun u fs2 hr2 => ?_
      cases hr2
      exact h.dAdd hx name v

/-- **A create.** -/
theorem caches_create (h : fs.CachesAre l) (p : Nat) (name : Name) (mode : BitVec 16) :
    wlpf intr (Spared l p) (simplefsCreateFsObject p name mode)
      (fun _ fs' => fs'.CachesAre l) fs := by
  refine wlpf_step (fun err hr => ?_) fun _ fs1 hr => ?_
  · rintro ⟨herr, hp⟩
    obtain ⟨x', c, hx', hc⟩ := (h.built p).mpr hp
    rw [bugOnNoCache_eq hx' hc] at hr
    cases hr
  obtain rfl := bugOnNoCache_state hr
  refine wlpf_lock fun i _ => ?_
  cases i with
  | true => exact h
  | false =>
  refine wlpf_bind (wlpf_fault same_getObjectsCount fun _ he => he.1) ?_
  rintro count _ rfl
  cases count with
  | error ret => exact h
  | ok count =>
  simp only
  split
  · exact h
  split
  · exact h
  refine wlpf_stepObs (fun err hr => ?_) fun ino fs1 hr => ?_
  · unfold pickInodeNumber at hr
    split at hr <;> cases hr
    rintro ⟨he | he, -⟩ <;> cases he
  obtain ⟨-, rfl⟩ := pickInodeNumber_ok hr
  refine wlpf_bind (wlpf_fault same_getAFreeblock fun _ he => he.1) fun blk fs2 hsame => ?_
  have h2 := h.of_same hsame
  cases blk with
  | error ret => exact h2
  | ok blk =>
  refine wlpf_bind (wlpf_fault (same_inodeAdd _) fun _ he => he.1) fun _ fs3 hsame => ?_
  have h3 := h2.of_same hsame
  refine wlpf_step (fun err hr he => not_noCache_of_addRecord hr ((h3.built p).mpr he.2) he.1)
    fun _ fs4 hr => ?_
  have h4 := caches_addRecord h3 hr
  refine wlpf_lock fun i _ => ?_
  cases i with
  | true => exact h4
  | false =>
  simp only [Bool.false_eq_true, if_false]
  obtain ⟨x, c, e, -, -, -, -, hfs4⟩ := addRecord_ok hr
  have hx4 : ∃ x4, fs4.dentries p = some x4 := by
    rw [hfs4, Fs.recorded, Fs.setDentry_dentries, if_pos rfl]
    exact ⟨_, rfl⟩
  obtain ⟨x4, hx4⟩ := hx4
  refine wlpf_step (fun err hr => ?_) fun _ fs5 hr => ?_ <;> rw [countChild_eq hx4] at hr
  · cases hr
  cases hr
  have h5 : (fs4.setDentry p { x4 with inode := { x4.inode with
      fileSize := x4.inode.fileSize + 1 } }).CachesAre l := h4.setDentry_keep hx4 rfl rfl
  refine wlpf_bind (wlpf_fault (same_inodeSave p) fun _ he => he.1) fun ret fs6 hsame => ?_
  have h6 := h5.of_same hsame
  split
  · exact h6
  · refine wlpf_unlock (wlpf_unlock (wlpf_step (fun err hr => by cases hr) fun _ fs7 hr => ?_))
    cases hr
    have hx6 : ∃ x, fs6.dentries p = some x := by
      rw [hsame.1, Fs.setDentry_dentries, if_pos rfl]
      exact ⟨_, rfl⟩
    obtain ⟨x6, hx6⟩ := hx6
    exact h6.dAdd hx6 name _

/-- **An unlink.** -/
theorem caches_unlink (h : fs.CachesAre l) {e : Nat} {y : Dentry} (hy : fs.dentries e = some y) :
    wlpf intr (Spared l y.parent) (vfsUnlink e) (fun _ fs' => fs'.CachesAre l) fs := by
  have hun : wlpf intr (Spared l y.parent) (simplefsUnlink e)
      (fun _ fs' => fs'.CachesAre l ∧ ∃ y', fs'.dentries e = some y') fs := by
    refine wlpf_step
      (fun err hr he => not_noCache_of_removeRecord hy hr ((h.built y.parent).mpr he.2) he.1)
      fun r fs1 hr => ?_
    have h1 := caches_removeRecord h hr
    have hy1 : ∃ y', fs1.dentries e = some y' := by
      obtain ⟨y', x, c, entry, -, -, rfl⟩ := removeRecord_ok hr
      rw [Fs.unrecorded, Fs.setDentry_dentries]
      split
      · exact ⟨_, rfl⟩
      · exact ⟨y, hy⟩
    refine wlpf_bind (wlpf_fault (same_inodeSave r.1) fun _ he => he.1) fun _ fs2 h2 => ?_
    refine wlpf_bind (wlpf_fault (same_inodeDel r.2) fun _ he => he.1) fun _ fs3 h3 => ?_
    refine ⟨(h1.of_same h2).of_same h3, ?_⟩
    rw [h3.1, h2.1]
    exact hy1
  refine wlpf_bind hun ?_
  rintro ret fs1 ⟨h1, y1, hy1⟩
  split
  · refine ⟨fun err hr => ?_, fun u fs2 hr => ?_⟩ <;> rw [dDelete_eq hy1] at hr
    · cases hr
    · cases hr
      exact h1.setDentry_keep hy1 rfl rfl
  · exact h1

theorem caches_write (h : fs.CachesAre l) {d : Nat} {x : Dentry} (hx : fs.dentries d = some x)
    (ppos : Nat) (data : List UInt8) (copied : Nat) :
    wlp intr (simplefsWrite d ppos data copied) (fun _ fs' => fs'.CachesAre l) fs := by
  have h1 : (fs.copiedIn x ppos data copied).CachesAre l := h.of_same ⟨rfl, rfl⟩
  refine wlp_writeFile hx (fun _ => h1) fun _ _ => ?_
  have hx1 : (fs.copiedIn x ppos data copied).dentries d = some x := hx
  have h2 : ((fs.copiedIn x ppos data copied).setDentry d
      (x.resized (ppos + data.length))).CachesAre l := h1.setDentry_keep hx1 rfl rfl
  exact Prog.wlp_mono (wlpf_wlp (same_inodeSave d)) fun _ _ h3 => h2.of_same h3

/-- What a call returns is dropped. -/
theorem wlpf_discard {α : Type} {q : Code α} {F : Fault → Prop} {Q : Fs → Prop}
    (h : wlpf intr F q (fun _ fs' => Q fs') fs) :
    wlpf intr F (discard q) (fun _ fs' => Q fs') fs :=
  wlpf_bind h fun _ _ h' => h'

/-- **A call that consults a cache.** -/
theorem Op.caches_consults {op : Op} {d : Nat} (h : fs.CachesAre l) (ha : op.Allowed fs)
    (hd : op.Consults fs d) :
    wlpf intr (Spared l d) op.code (fun _ fs' => fs'.CachesAre l) fs := by
  cases op with
  | lookup p name =>
    cases hd
    obtain ⟨x, hx, -⟩ := ha
    exact wlpf_discard (caches_lookup h hx.1 name)
  | create p name mode =>
    cases hd
    exact wlpf_discard (caches_create h d name mode)
  | mkdir p name mode =>
    cases hd
    exact wlpf_discard (caches_create h d name (0x4000 ||| mode))
  | unlink e =>
    obtain ⟨y, hy, rfl⟩ := hd
    exact caches_unlink h hy
  | iterate d' pos => exact hd.elim
  | read d' ppos len userOk => exact hd.elim
  | write d' ppos data copied => exact hd.elim
  | release d' => exact hd.elim

/-- **Every call.** -/
theorem Op.caches {op : Op} (h : fs.CachesAre l) (ha : op.Allowed fs) :
    wlp intr op.code (fun _ fs' => fs'.CachesAre (Event.listed l (.call op intr))) fs := by
  cases op with
  | iterate d pos =>
    obtain ⟨x, hx, -⟩ := ha
    exact wlp_bind (caches_iterate h hx pos) fun _ _ h' => h'
  | lookup p name => exact wlpf_wlp (Op.caches_consults h ha (rfl : p = p))
  | create p name mode => exact wlpf_wlp (Op.caches_consults h ha (rfl : p = p))
  | mkdir p name mode => exact wlpf_wlp (Op.caches_consults h ha (rfl : p = p))
  | unlink e =>
    obtain ⟨-, y, hy, -⟩ := ha
    exact wlpf_wlp (caches_unlink h hy)
  | read d ppos len userOk =>
    refine wlp_bind (R := fun _ fs' => fs'.CachesAre l) (fun r fs1 hr => ?_) fun _ _ h' => h'
    rw [readFile_state hr]
    exact h
  | write d ppos data copied =>
    obtain ⟨x, hx, -⟩ := ha
    exact wlp_bind (caches_write h hx ppos data copied) fun _ _ h' => h'
  | release d =>
    intro u fs1 hr
    cases hr
    exact h.release ha.2.2

/-- A mount starts with no cache. -/
theorem mountedFs_caches (dev : Device) (imap past : BitVec 64) :
    (mountedFs dev imap past).CachesAre [] := by
  refine ⟨fun d => ⟨?_, fun hd => absurd hd List.not_mem_nil⟩, fun d hle => ?_, fun e y hy => ?_⟩
  · rintro ⟨y, c, hy, hc⟩
    obtain ⟨-, rfl⟩ := mountedFs_dentries hy
    cases hc
  · have hle : 1 ≤ d := hle
    cases hy : (mountedFs dev imap past).dentries d with
    | none => rfl
    | some y =>
      have := (mountedFs_dentries hy).1
      omega
  · obtain ⟨-, rfl⟩ := mountedFs_dentries hy
    exact ⟨_, rfl⟩

end Calls

/-! ## 4. Histories decide -/

/-- **One event.** -/
theorem Event.caches {ev : Event} {s s' : Sys} {l : List Nat} (ha : ev.Allowed s)
    (happ : ev.apply s = some s') (h : ∀ fs, s.mnt = .mounted fs → fs.CachesAre l) (fs' : Fs)
    (hm : s'.mnt = .mounted fs') : fs'.CachesAre (Event.listed l ev) := by
  cases Event.leadsTo happ with
  | refused => cases hm
  | mount hmap =>
    cases hm
    exact mountedFs_caches _ _ _
  | umount => cases hm
  | @call lk lk' op intr fs fs1 hrun =>
    cases hm
    have hcaches := Prog.wlp_run (Op.caches (h fs rfl) (ha op intr fs rfl rfl)) hrun
    exact hcaches

/-- **A dentry has a cache exactly if it has been listed.** -/
theorem History.caches {dev : Device} {lk : LockState Lock} {evs : List Event} {s : Sys}
    (hr : History ⟨lk, .offline dev⟩ evs s) (fs : Fs) (hm : s.mnt = .mounted fs) :
    fs.CachesAre (listed evs) := by
  induction hr generalizing fs with
  | nil => cases hm
  | snoc _ ha happ ih =>
    rw [listed, List.foldl_append]
    exact Event.caches ha happ ih fs hm

/-- **The call finds the cache of dentry `d`**: it is there, and neither a walk of a missing cache
nor `BUG_ON(!dir_cache)` ends the call. -/
def FindsCache (fs : Fs) (lk : LockState Lock) (op : Op) (d : Nat) (intr : Site → Bool) : Prop :=
  fs.CacheBuilt d ∧ ∀ err lk', run intr op.code lk fs = (.faulted err, lk') → ¬ err.NoCache

/-- **A call finds the cache that it consults exactly if that dentry has been listed** since the
mount, after any history. -/
theorem History.findsCache_iff {dev : Device} {lk lk' : LockState Lock} {evs : List Event}
    {fs : Fs} {op : Op} {d : Nat} (hr : History ⟨lk, .offline dev⟩ evs ⟨lk', .mounted fs⟩)
    (ha : op.Allowed fs) (hd : op.Consults fs d) (intr : Site → Bool) :
    FindsCache fs lk' op d intr ↔ d ∈ listed evs := by
  have h := hr.caches fs rfl
  rw [← h.built d]
  refine ⟨fun hfinds => hfinds.1, fun hbuilt => ⟨hbuilt, fun err lk'' hrun herr => ?_⟩⟩
  exact Prog.wlpf_run (Op.caches_consults h ha hd) hrun ⟨herr, (h.built d).mp hbuilt⟩

/-- The fresh image, mounted, ... -/
theorem History.mounted :
    History ⟨LockState.free, .offline freshDevice⟩ [.mount 0#64]
      ⟨LockState.free, .mounted freshFs⟩ := by
  refine .snoc .nil (fun op intr fs hev => ?_) Event.apply_mount_fresh
  cases hev

/-- ... and its root listed: a lookup finds the cache. -/
theorem History.findsCache_iff_listed :
    FindsCache listedFs LockState.free (.lookup 0 newName) 0 quiet := by
  have ha : (Op.iterate 0 0).Allowed freshFs := ⟨_, freshFs_root⟩
  have hrun : run quiet (Op.iterate 0 0).code LockState.free freshFs =
      (.returned () listedFs, LockState.free) := run_iterate freshFs_root.1 0
  have hr : History ⟨LockState.free, .offline freshDevice⟩
      [.mount 0#64, .call (.iterate 0 0) quiet] ⟨LockState.free, .mounted listedFs⟩ := by
    refine .snoc History.mounted (fun op intr fs hev hm => ?_) (Event.apply_call hrun)
    cases hev
    cases hm
    exact ha
  have hlook : (Op.lookup 0 newName).Allowed listedFs :=
    ⟨_, listedFs_root, listedFs_noChild newName⟩
  exact (History.findsCache_iff hr hlook (rfl : 0 = 0) quiet).mpr List.mem_cons_self

/-- **A file of the root, opened right after the mount**: the lookup walks a cache that is not
there. -/
theorem freshFs_not_findsCache :
    (Op.lookup 0 welcomeName).Allowed freshFs ∧
      ¬ FindsCache freshFs LockState.free (.lookup 0 welcomeName) 0 quiet ∧
      run quiet (Op.lookup 0 welcomeName).code LockState.free freshFs =
        (.faulted .nullCache, LockState.free) := by
  have hno : freshFs.NoChild 0 welcomeName := fun e y he hy =>
    absurd (mountedFs_dentries hy).1 he
  have ha : (Op.lookup 0 welcomeName).Allowed freshFs := ⟨_, freshFs_root, hno⟩
  have h := History.mounted.caches freshFs rfl
  have hnot : ¬ freshFs.CacheBuilt 0 := fun hb => List.not_mem_nil ((h.built 0).mp hb)
  refine ⟨ha, fun hf => hnot hf.1, ?_⟩
  have hent : lookupEntry 0 welcomeName freshFs = .error .nullCache := by
    simp only [lookupEntry, Fs.dentry_of_eq freshFs_root.1, bind, Except.bind, freshRoot]
  change run quiet (discard (simplefsLookup 0 welcomeName)) LockState.free freshFs = _
  rw [discard_eq, simplefsLookup]
  simp only [bind_assoc, Prog.run_step_bind, hent]

end Simplefs
