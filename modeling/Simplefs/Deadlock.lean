/-
# No circular wait

The operations take the three mutexes in the order `simplefs_directory_children_update_lock`,
`simplefs_inodes_mgmt_lock`, `simplefs_sb_lock`, each helper on top of whatever its caller holds:
`simplefs_inode_save` with and without `simplefs_inodes_mgmt_lock`, `simplefs_sb_get_a_freeblock`
and `simplefs_inode_add` under the first lock.  Nothing about the filesystem is needed for that,
so the threads here call what they like on whatever state there is.
-/
import Mathlib.Data.Fintype.EquivFin
import Mathlib.Order.Fin.Basic
import Simplefs.Frame
import Simplefs.Lib.LockOrder

namespace Simplefs

open Prog (Ordered CircularWait InOrder Config Reach WaitsFor update_release)

/-! ## 1. The order -/

/-- The order in which the mutexes are acquired. -/
def Lock.rank : Lock → Fin 3
  | .childrenUpdate => ⟨0, by decide⟩
  | .inodesMgmt => ⟨1, by decide⟩
  | .sb => ⟨2, by decide⟩

/-- A call of a thread that does as it likes. -/
def anyCall (T : Type) : Prog.Admit Fs Progress Lock Site Fault Unit T :=
  fun _ _ p _ => ∃ op : Op, p = op.code

/-- What the VFS admits is a call. -/
theorem vfsAdmit_anyCall {T : Type} (s : Fs) (obs : T → Option Progress) (p : Code Unit)
    (w : Progress) (ha : vfsAdmit T s obs p w) : anyCall T s obs p w := by
  obtain ⟨op, d, rfl, -⟩ := ha
  exact ⟨op, rfl⟩

variable {h : Lock → Bool}

/-- `simplefs_sb_lock` may be acquired whenever it is not held, ... -/
theorem below_sb (hs : h .sb = false) (l : Lock) (hl : h l = true) :
    Lock.rank l < Lock.rank .sb := by
  cases l with
  | childrenUpdate => decide
  | inodesMgmt => decide
  | sb =>
    rw [hs] at hl
    cases hl

/-- ... `simplefs_inodes_mgmt_lock` if neither of the two is, ... -/
theorem below_mgmt (hm : h .inodesMgmt = false) (hs : h .sb = false) (l : Lock)
    (hl : h l = true) : Lock.rank l < Lock.rank .inodesMgmt := by
  cases l with
  | childrenUpdate => decide
  | inodesMgmt =>
    rw [hm] at hl
    cases hl
  | sb =>
    rw [hs] at hl
    cases hl

/-! ## 2. The helpers -/

theorem ordered_getObjectsCount (hm : h .inodesMgmt = false) (hs : h .sb = false) :
    Ordered Lock.rank simplefsSbGetObjectsCount h fun _ h' => h' = h := by
  unfold simplefsSbGetObjectsCount
  refine Ordered.lock (below_mgmt hm hs) ?_
  simp only [Bool.false_eq_true, if_false]
  refine Ordered.read fun out => ?_
  refine Ordered.unlock (Function.update_self ..) ?_
  exact update_release hm

theorem ordered_getAFreeblock (hs : h .sb = false) :
    Ordered Lock.rank simplefsSbGetAFreeblock h fun _ h' => h' = h := by
  unfold simplefsSbGetAFreeblock
  refine Ordered.lock (below_sb hs) ?_
  simp only [Bool.false_eq_true, if_false]
  refine Ordered.stepObs fun r => ?_
  cases r with
  | none => exact Ordered.unlock (Function.update_self ..) (update_release hs)
  | some i => exact Ordered.unlock (Function.update_self ..) (update_release hs)

/-- Two nested sections around a piece of code. -/
theorem ordered_nested {site site' : Site} {f : Fs → Except Fault (Unit × Fs)}
    {obs : Unit → Progress → Progress} (hm : h .inodesMgmt = false) (hs : h .sb = false) :
    Ordered Lock.rank (do
      if ← Prog.lock site .inodesMgmt then
        return
      if ← Prog.lock site' .sb then
        return
      Prog.stepObs f obs
      Prog.unlock .sb
      Prog.unlock .inodesMgmt : Code Unit) h fun _ h' => h' = h := by
  refine Ordered.lock (below_mgmt hm hs) ?_
  simp only [Bool.false_eq_true, if_false]
  refine Ordered.lock (below_sb (update_mgmt_sb hs)) ?_
  simp only [Bool.false_eq_true, if_false]
  refine Ordered.stepObs fun _ => ?_
  refine Ordered.unlock (Function.update_self ..) ?_
  rw [update_release (update_mgmt_sb hs)]
  exact ⟨Function.update_self .., update_release hm⟩

theorem ordered_inodeAdd (v : SfsInode) (hm : h .inodesMgmt = false) (hs : h .sb = false) :
    Ordered Lock.rank (simplefsInodeAdd v) h fun _ h' => h' = h := ordered_nested hm hs

theorem ordered_inodeDel (ino : BitVec 64) (hm : h .inodesMgmt = false) (hs : h .sb = false) :
    Ordered Lock.rank (simplefsInodeDel ino) h fun _ h' => h' = h := ordered_nested hm hs

theorem ordered_getInode (ino : BitVec 64) (hm : h .inodesMgmt = false) (hs : h .sb = false) :
    Ordered Lock.rank (simplefsGetInode ino) h fun _ h' => h' = h := by
  unfold simplefsGetInode
  refine Ordered.lock (below_mgmt hm hs) ?_
  simp only [Bool.false_eq_true, if_false]
  refine Ordered.step fun inode => ?_
  exact Ordered.unlock (Function.update_self ..) (update_release hm)

/-- `simplefs_inode_save`, with or without `simplefs_inodes_mgmt_lock`. -/
theorem ordered_inodeSave (d : Nat) (hs : h .sb = false) :
    Ordered Lock.rank (simplefsInodeSave d) h fun _ h' => h' = h := by
  unfold simplefsInodeSave
  refine Ordered.lock (below_sb hs) ?_
  simp only [Bool.false_eq_true, if_false]
  refine Ordered.step fun found => ?_
  cases found with
  | true => exact Ordered.unlock (Function.update_self ..) (update_release hs)
  | false => exact Ordered.unlock (Function.update_self ..) (update_release hs)

/-! ## 3. The operations -/

/-- Started and ended without a lock. -/
abbrev InOrderAlone {α : Type} (p : Code α) : Prop :=
  Ordered Lock.rank p (fun _ => false) fun _ h => ∀ l, h l = false

/-- What an operation returns does not matter. -/
theorem InOrderAlone.discard {α : Type} {p : Code α} (hp : InOrderAlone p) :
    InOrderAlone (discard p) := by
  rw [discard_eq]
  exact hp.bind fun _ _ hh => hh

theorem inOrder_lookup (p : Nat) (name : Name) : InOrderAlone (simplefsLookup p name) := by
  unfold simplefsLookup
  refine Ordered.step fun r => ?_
  cases r with
  | none => exact fun _ => rfl
  | some ino =>
    refine (ordered_getInode ino rfl rfl).bind_keeps fun inode => ?_
    cases inode with
    | none => exact fun _ => rfl
    | some inode => exact fun _ _ => rfl

theorem inOrder_write (d ppos : Nat) (data : List UInt8) (copied : Nat) :
    InOrderAlone (simplefsWrite d ppos data copied) := by
  unfold simplefsWrite
  refine Ordered.step fun ok => ?_
  cases ok with
  | false => exact fun _ => rfl
  | true =>
    simp only [if_true]
    refine Ordered.lock (below_mgmt rfl rfl) ?_
    simp only [Bool.false_eq_true, if_false]
    refine Ordered.step fun _ => ?_
    refine (ordered_inodeSave d (update_mgmt_sb rfl)).bind_keeps fun retval => ?_
    refine Ordered.unlock (Function.update_self ..) ?_
    rw [update_release rfl]
    exact fun _ => rfl

theorem inOrder_unlink (e : Nat) : InOrderAlone (simplefsUnlink e) := by
  unfold simplefsUnlink
  refine Ordered.step fun r => ?_
  refine (ordered_inodeSave r.1 rfl).bind_keeps fun _ => ?_
  refine (ordered_inodeDel r.2 rfl rfl).bind_keeps fun _ => ?_
  exact fun _ => rfl

/-- The tail of a create releases the first lock, which it holds from the start. -/
theorem ordered_createTail (p : Nat) (name : Name) (v : SfsInode)
    (hc : h = Function.update (fun _ => false) .childrenUpdate true) :
    Ordered Lock.rank (createTail p name v) h fun _ h' => ∀ l, h' l = false := by
  have hm : h .inodesMgmt = false := by rw [hc]; rfl
  have hs : h .sb = false := by rw [hc]; rfl
  have hfree : Function.update h .childrenUpdate false = fun _ => false := by
    rw [hc, update_release rfl]
  have hheld : h .childrenUpdate = true := by rw [hc]; rfl
  unfold createTail
  refine Ordered.step fun _ => ?_
  refine Ordered.lock (below_mgmt hm hs) ?_
  simp only [Bool.false_eq_true, if_false]
  refine Ordered.step fun _ => ?_
  refine (ordered_inodeSave p (update_mgmt_sb hs)).bind_keeps fun ret => ?_
  split
  · refine Ordered.unlock (Function.update_self ..) ?_
    rw [update_release hm]
    refine Ordered.unlock hheld ?_
    rw [hfree]
    exact fun _ => rfl
  · refine Ordered.unlock (Function.update_self ..) ?_
    rw [update_release hm]
    refine Ordered.unlock hheld ?_
    rw [hfree]
    exact fun _ _ => rfl

theorem inOrder_create (p : Nat) (name : Name) (mode : BitVec 16) :
    InOrderAlone (simplefsCreateFsObject p name mode) := by
  obtain ⟨h1, hh1⟩ : ∃ h1, h1 = Function.update (fun _ => false) Lock.childrenUpdate true :=
    ⟨_, rfl⟩
  have hm : h1 .inodesMgmt = false := by rw [hh1]; rfl
  have hs : h1 .sb = false := by rw [hh1]; rfl
  have hend : ∀ ret : Int, Ordered Lock.rank
      (do Prog.unlock .childrenUpdate; return ret : Code Int) h1 fun _ h => ∀ l, h l = false := by
    intro ret
    refine Ordered.unlock (by rw [hh1]; rfl) ?_
    rw [hh1, update_release rfl]
    exact fun _ => rfl
  unfold simplefsCreateFsObject
  refine Ordered.step fun _ => ?_
  refine Ordered.lock (fun l hl => by cases hl) ?_
  simp only [Bool.false_eq_true, if_false, ← hh1]
  refine (ordered_getObjectsCount hm hs).bind_keeps fun r => ?_
  cases r with
  | error ret => exact hend ret
  | ok count =>
    simp only
    split
    · exact hend _
    split
    · exact hend _
    refine Ordered.stepObs fun ino => ?_
    refine (ordered_getAFreeblock hs).bind_keeps fun r => ?_
    cases r with
    | error ret => exact hend ret
    | ok blk =>
      refine (ordered_inodeAdd _ hm hs).bind_keeps fun _ => ?_
      exact ordered_createTail p name (newInode mode ino blk) hh1

/-- **Every operation takes the locks in order.** -/
theorem Op.inOrder (op : Op) : InOrderAlone op.code := by
  cases op with
  | iterate d pos => exact fun _ _ => rfl
  | lookup p name => exact (inOrder_lookup p name).discard
  | create p name mode => exact (inOrder_create p name mode).discard
  | mkdir p name mode => exact (inOrder_create p name (0x4000 ||| mode)).discard
  | unlink e =>
    refine (inOrder_unlink e).bind fun ret h hh => ?_
    split
    · exact fun _ => hh
    · exact hh
  | read d ppos len userOk => exact fun _ _ => rfl
  | write d ppos data copied => exact (inOrder_write d ppos data copied).discard
  | release d => exact fun _ _ => rfl

variable {T : Type} [DecidableEq T]

/-! ## 4. Calls that wait -/

section Waits

variable {adm : Prog.Admit Fs Progress Lock Site Fault Unit T}
  {c : Config Fs Progress Lock Site Fault Unit T} {t : T} {w : Progress}

/-- A create takes its first lock, and is then about to count the objects. -/
theorem Reach.create_locks {p : Nat} {name : Name} {mode : BitVec 16}
    (ht : c.threads t = none) (ha : adm c.s c.published (Op.create p name mode).code w)
    (hb : c.s.CacheBuilt p) (hl : c.owner .childrenUpdate = none) :
    ∃ c' k, Reach adm c c' ∧ c'.s = c.s ∧
      c'.owner = Function.update c.owner .childrenUpdate (some t) ∧
      c'.threads =
        Function.update c.threads t (some ⟨.acquire .getObjectsCount .inodesMgmt k, w⟩) := by
  obtain ⟨x, d, hx, hc⟩ := hb
  have hbug : bugOnNoCache p c.s = .ok ((), c.s) := bugOnNoCache_eq hx hc
  exact ⟨_, _, Reach.first_lock ht ha hbug rfl hl, rfl, rfl, rfl⟩

/-- A write takes its lock once its bytes are copied. -/
theorem Reach.write_locks {d ppos copied : Nat} {data : List UInt8} {x : Dentry}
    (ht : c.threads t = none) (ha : adm c.s c.published (Op.write d ppos data copied).code w)
    (hx : c.s.dentries d = some x) (hfit : Fits ppos data) (hall : data.length ≤ copied)
    (hl : c.owner .inodesMgmt = none) :
    ∃ c' th, Reach adm c c' ∧ c'.owner = Function.update c.owner .inodesMgmt (some t) ∧
      c'.threads = Function.update c.threads t (some th) := by
  have hcopy : copyFromUser d ppos data copied c.s = _ := copyFromUser_eq hx
  rw [if_pos hfit, decide_eq_true hall] at hcopy
  exact ⟨_, _, Reach.first_lock ht ha hcopy rfl hl, rfl, rfl⟩

/-- A lookup that finds a name takes the lock of the inode store. -/
theorem Reach.lookup_locks {p : Nat} {name : Name} {x : Dentry} {d : DirCache} {e : CacheEntry}
    (ht : c.threads t = none) (ha : adm c.s c.published (Op.lookup p name).code w)
    (hx : c.s.dentries p = some x) (hd : x.fsdata = some d)
    (he : usedCacheEntryGet d name = some e) (hl : c.owner .inodesMgmt = none) :
    ∃ c' th, Reach adm c c' ∧ c'.owner = Function.update c.owner .inodesMgmt (some t) ∧
      c'.threads = Function.update c.threads t (some th) := by
  have hfind : lookupEntry p name c.s = .ok (some e.record.inodeNo, c.s) := by
    simp only [lookupEntry, Fs.dentry_of_eq hx, bind, Except.bind, hd, he, Option.map_some, pure,
      Except.pure]
  exact ⟨_, _, Reach.first_lock ht ha hfind rfl hl, rfl, rfl⟩

end Waits

/-- A create that holds one lock waits for a write that holds the next. -/
theorem Reach.create_waits_for_write : ∃ c : Config Fs Progress Lock Site Fault Unit Bool,
    Reach (anyCall Bool) (Config.quiescent foundFs) c ∧ WaitsFor c true false := by
  have hcreate : anyCall Bool foundFs (fun _ => none) (Op.create 0 newName 0x81a4).code
    (.start 0) := ⟨_, rfl⟩
  obtain ⟨c1, k, h1, hs1, ho1, ht1⟩ := Reach.create_locks (c := Config.quiescent foundFs)
    (t := true) rfl hcreate ⟨listedRoot, _, foundFs_root.1, rfl⟩ rfl
  have hwelcome : c1.s.dentries 1 = some welcomeDentry := hs1 ▸ foundFs_welcome
  have hwrite : anyCall Bool c1.s c1.published (Op.write 1 0 [72] 1).code (.start 0) := ⟨_, rfl⟩
  obtain ⟨c2, th, h2, ho2, ht2⟩ := Reach.write_locks (t := false) (by rw [ht1]; rfl) hwrite
    hwelcome (by decide) (by decide) (by rw [ho1]; rfl)
  refine ⟨c2, h1.trans h2, .getObjectsCount, .inodesMgmt, k, .start 0, ?_, ?_⟩
  · rw [ht2, ht1]
    rfl
  · rw [ho2]
    rfl

/-- A create in one directory, holding a lock, waits for a lookup in another. -/
theorem TwoDirs.create_waits_for_lookup {fs : Fs} (h : TwoDirs fs) :
    ∃ c : Config Fs Progress Lock Site Fault Unit Bool,
      Reach (vfsAdmit Bool) (Config.quiescent fs) c ∧ WaitsFor c true false := by
  obtain ⟨x, d, e, hx, hd, he⟩ := h.root
  have hcreate : vfsAdmit Bool fs (fun _ => none) (Op.create 1 newName 0x81a4).code (.start 1) :=
    ⟨_, 1, rfl, rfl, h.absent newName, ⟨h.free, by decide⟩, rfl, fun t o ho => by cases ho⟩
  have hcache : fs.CacheBuilt 1 := h.free.imp fun _ => Exists.imp fun _ h => ⟨h.1, h.2.1⟩
  obtain ⟨c1, k, h1, hs1, ho1, ht1⟩ := Reach.create_locks (c := Config.quiescent fs)
    (t := true) rfl hcreate hcache rfl
  have hlookup : vfsAdmit Bool c1.s c1.published (Op.lookup 0 welcomeName).code (.start 0) := by
    rw [hs1]
    refine ⟨_, 0, rfl, rfl, ⟨x, hx, h.noChild⟩, ⟨x, d, hx.1, hd⟩, rfl, fun t o ho => ?_⟩
    rw [Config.published, ht1] at ho
    cases t with
    | true =>
      cases ho
      exact Nat.one_ne_zero
    | false => cases ho
  have hx1 : c1.s.dentries 0 = some x := hs1 ▸ hx.1
  obtain ⟨c2, th, h2, ho2, ht2⟩ := Reach.lookup_locks (t := false) (by rw [ht1]; rfl) hlookup
    hx1 hd he (by rw [ho1]; rfl)
  refine ⟨c2, h1.trans h2, .getObjectsCount, .inodesMgmt, k, .start 1, ?_, ?_⟩
  · rw [ht2, ht1]
    rfl
  · rw [ho2]
    rfl

/-! ## 5. Every schedule -/

/-- Every thread has an ordered program left. -/
theorem Reach.inOrder {fs : Fs} {c : Config Fs Progress Lock Site Fault Unit T}
    (hreach : Reach (anyCall T) (Config.quiescent fs) c) : InOrder Lock.rank c := by
  have hadm : ∀ s obs p w, anyCall T s obs p w →
      Ordered Lock.rank p (fun _ => false) fun _ h => ∀ l, h l = false := by
    rintro s obs p w ⟨op, rfl⟩
    exact op.inOrder
  exact Prog.Reach.inOrder hadm hreach Prog.quiescent_inOrder

/-- **No circular wait**: whatever calls any number of threads make, in whatever order, on
whatever filesystem. -/
theorem Reach.no_circular_wait {fs : Fs} {c : Config Fs Progress Lock Site Fault Unit T}
    (hreach : Reach (anyCall T) (Config.quiescent fs) c) : ¬ CircularWait c :=
  (Reach.inOrder hreach).not_circularWait

/-- A create that waits for a write. -/
theorem Reach.no_circular_wait_waiting : ∃ c : Config Fs Progress Lock Site Fault Unit Bool,
    WaitsFor c true false ∧ ¬ CircularWait c := by
  obtain ⟨c, hr, hw⟩ := Reach.create_waits_for_write
  exact ⟨c, hw, Reach.no_circular_wait hr⟩

end Simplefs
