/-
# The invariant of a mounted filesystem

`FsInv` puts the store invariant and the tree of names together with what is kept in memory:
every linked dentry stands for a live inode that its parent's block names, its private inode is
a copy of the slot, and a directory cache agrees with its block.

An operation in progress is allowed four kinds of exception, its `Shadow`: a block that is
pending, an inode that is an orphan, a directory whose child count has been changed in memory
and not been saved (`dirty`), and a file whose record is gone while its dentry is still there
(`going`).  Between operations there is none.

There is one lemma for each piece of straight-line code that writes.
-/
import Simplefs.Tree

namespace Simplefs

/-! ## 1. The invariant -/

/-- Two inodes that differ at most in the size. -/
structure SfsInode.Same (v w : SfsInode) : Prop where
  mode : v.mode = w.mode
  inodeNo : v.inodeNo = w.inodeNo
  dataBlockNumber : v.dataBlockNumber = w.dataBlockNumber

namespace SfsInode.Same

variable {u v w : SfsInode}

theorem refl (v : SfsInode) : v.Same v := ⟨rfl, rfl, rfl⟩

theorem symm (h : v.Same w) : w.Same v :=
  ⟨h.mode.symm, h.inodeNo.symm, h.dataBlockNumber.symm⟩

theorem trans (h : u.Same v) (h' : v.Same w) : u.Same w :=
  ⟨h.mode.trans h'.mode, h.inodeNo.trans h'.inodeNo, h.dataBlockNumber.trans h'.dataBlockNumber⟩

theorem block (h : v.Same w) : v.block = w.block := congrArg BitVec.toNat h.dataBlockNumber

end SfsInode.Same

/-- The slot that a dentry's inode belongs to. -/
def Dentry.slot (y : Dentry) : Nat := slotIndex y.inode.inodeNo

/-- The exceptions that the operations in progress may make. -/
structure Shadow where
  pend : Nat → Prop
  orphan : Nat → Prop
  dirty : Nat → Prop
  going : Nat → Prop

/-- No operation is in progress. -/
def Shadow.none : Shadow := ⟨fun _ => False, fun _ => False, fun _ => False, fun _ => False⟩

/-- Block `b` is a file's, or was: no directory has it, and it is not handed out again. -/
structure Device.OfFile (dev : Device) (pend : Nat → Prop) (b : Nat) : Prop where
  two_le : 2 ≤ b
  avail : 3 ≤ b → ¬ Avail dev.freeBlocks b
  pend : ¬ pend b
  dir : ∀ i, dev.graph.dir i → (dev.slot i).block ≠ b

theorem Device.OfFile.congr {dev dev' : Device} {pend pend' : Nat → Prop} {b : Nat}
    (h : dev.OfFile pend b) (hfree : Avail dev'.freeBlocks b → Avail dev.freeBlocks b)
    (hp : pend' b → pend b)
    (hdir : ∀ i, dev'.graph.dir i → dev.graph.dir i ∧ (dev'.slot i).block = (dev.slot i).block) :
    dev'.OfFile pend' b := by
  refine ⟨h.two_le, fun h3 ha => h.avail h3 (hfree ha), fun hb => h.pend (hp hb), fun i hi => ?_⟩
  obtain ⟨hd, hb⟩ := hdir i hi
  rw [hb]
  exact h.dir i hd

theorem Device.OfFile.congr_slots {dev dev' : Device} {pend : Nat → Prop} {b : Nat}
    (h : dev.OfFile pend b) (hfree : dev'.freeBlocks = dev.freeBlocks)
    (hslot : ∀ k, k < 128 → dev'.slot k = dev.slot k) : dev'.OfFile pend b := by
  refine h.congr (fun ha => by rwa [hfree] at ha) id fun i hi => ?_
  have hs := hslot i hi.1.lt
  exact ⟨⟨(Device.live_congr hs).mp hi.1, hs ▸ hi.2⟩, by rw [hs]⟩

/-- Dentry `e` is linked, and its file is not being unlinked. -/
def Fs.Current (fs : Fs) (S : Shadow) (e : Nat) (y : Dentry) : Prop :=
  fs.dentries e = some y ∧ y.linked = true ∧ ¬ S.going e

/-- **The invariant of a mounted filesystem**, up to the exceptions `S`. -/
structure FsInv (fs : Fs) (S : Shadow) : Prop where
  store : StoreInv fs.dev fs.imap S.pend
  tree : TreeInv fs.dev S.orphan
  fresh : ∀ e, fs.next ≤ e → fs.dentries e = none
  root : ∃ x, fs.Current S 0 x ∧ x.slot = 0
  live : ∀ e y, fs.Current S e y →
    fs.dev.Live y.slot ∧ ¬ S.orphan y.slot ∧ y.inode.Same (fs.dev.slot y.slot)
  clean : ∀ e y, fs.Current S e y → ¬ S.dirty e → fs.dev.slot y.slot = y.inode
  parent : ∀ e y, fs.Current S e y → e ≠ 0 →
    ∃ x j, fs.DirAt y.parent x ∧ fs.dev.entry x.slot j = some (y.name.bytes, y.slot)
  inj : ∀ e e' y y', fs.Current S e y → fs.Current S e' y' → y.slot = y'.slot → e = e'
  cache : ∀ e y c, fs.dentries e = some y → y.fsdata = some c →
    fs.DirAt e y ∧ c.Agrees (fs.dev.record y.inode.block)
  file : ∀ e y, fs.dentries e = some y → ¬ (y.linked = true ∧ ¬ S.going e) →
    isDir y.inode.mode = false
  torn : ∀ b, fs.torn b ≠ none → fs.dev.OfFile S.pend b

namespace FsInv

variable {fs fs' : Fs} {S S' : Shadow} {p e : Nat} {x y : Dentry}

/-! ## 2. What it says about directories -/

/-- A linked directory is not being unlinked. -/
theorem current_of_dirAt (h : FsInv fs S) (hx : fs.DirAt p x) : fs.Current S p x := by
  by_contra hno
  have := h.file p x hx.1 fun hl => hno ⟨hx.1, hl⟩
  rw [hx.2.2] at this
  cases this

theorem inodeNo_eq (h : FsInv fs S) (hy : fs.Current S e y) : y.inode.inodeNo = inoOf y.slot := by
  obtain ⟨hl, -, hs⟩ := h.live e y hy
  rw [hs.inodeNo, (h.store.slots y.slot hl).1]

/-- A linked directory is a directory of the device, and its data block is the one there. -/
theorem dir (h : FsInv fs S) (hx : fs.DirAt p x) :
    fs.dev.graph.dir x.slot ∧ (fs.dev.slot x.slot).block = x.inode.block := by
  obtain ⟨hl, -, hs⟩ := h.live p x (h.current_of_dirAt hx)
  refine ⟨⟨hl, ?_⟩, hs.block.symm⟩
  rw [← hs.mode]
  exact hx.2.2

/-- Different directories have different blocks. -/
theorem block_ne (h : FsInv fs S) {p' : Nat} {x' : Dentry} (hx : fs.DirAt p x)
    (hx' : fs.DirAt p' x') (hne : p' ≠ p) : x'.inode.block ≠ x.inode.block := by
  intro heq
  obtain ⟨⟨hl, -⟩, hb⟩ := h.dir hx
  obtain ⟨⟨hl', -⟩, hb'⟩ := h.dir hx'
  have hslot := h.store.block_inj x'.slot x.slot hl' hl (by rw [hb, hb', heq])
  exact hne (h.inj _ _ _ _ (h.current_of_dirAt hx') (h.current_of_dirAt hx) hslot)

/-- **A name leads to one dentry**: the dentry of an inode that directory `p` names is a child
of `p` under that name. -/
theorem child_of_entry (h : FsInv fs S) (hx : fs.DirAt p x) {j k : Nat} {l : List UInt8}
    (hent : fs.dev.entry x.slot j = some (l, k)) (hy : fs.Current S e y) (hk : y.slot = k) :
    e ≠ 0 ∧ y.parent = p ∧ y.name.bytes = l := by
  have hd := (h.dir hx).1
  have hn : fs.dev.graph.Names x.slot j k := ⟨hd, l, hent⟩
  have he : e ≠ 0 := by
    rintro rfl
    obtain ⟨r, hr, hr0⟩ := h.root
    have hyr : y = r := Option.some.inj (hy.1.symm.trans hr.1)
    rw [hyr, hr0] at hk
    exact (h.tree.wf.target _ _ _ hn).2.1 hk.symm
  obtain ⟨x', j', hx', hent'⟩ := h.parent e y hy he
  rw [hk] at hent'
  obtain ⟨hslot, hj⟩ := h.tree.wf.inj _ _ _ _ _ hn ⟨(h.dir hx').1, _, hent'⟩
  rw [← hslot, ← hj, hent] at hent'
  cases hent'
  exact ⟨he, (h.inj _ _ _ _ (h.current_of_dirAt hx) (h.current_of_dirAt hx') hslot).symm, rfl⟩

/-! ## 3. The general update

Dentries may change their private inode's size and their cache; files may start to go. -/

/-- The same dentries, up to sizes and caches. -/
def Alike (fs fs' : Fs) : Prop := ∀ e, Option.Rel (fun y y' : Dentry =>
  y'.parent = y.parent ∧ y'.name = y.name ∧ y'.linked = y.linked ∧ y'.inode.Same y.inode)
    (fs.dentries e) (fs'.dentries e)

theorem alike_of_eq (h : fs'.dentries = fs.dentries) : Alike fs fs' := by
  intro e
  rw [h]
  cases fs.dentries e with
  | none => exact .none
  | some y => exact .some ⟨rfl, rfl, rfl, .refl _⟩

/-- One dentry got another size or another cache. -/
theorem alike_setDentry {x' : Dentry} (hx : fs.dentries p = some x)
    (hp : x'.parent = x.parent) (hn : x'.name = x.name) (hl : x'.linked = x.linked)
    (hi : x'.inode.Same x.inode) (hd : fs'.dentries = (fs.setDentry p x').dentries) :
    Alike fs fs' := by
  intro e
  rw [hd, Fs.setDentry_dentries]
  split
  · rename_i h
    rw [h, hx]
    exact .some ⟨hp, hn, hl, hi⟩
  · exact alike_of_eq rfl e

theorem Alike.some' (h : Alike fs fs') {y' : Dentry} (hy : fs'.dentries e = some y') :
    ∃ y, fs.dentries e = some y ∧ y'.parent = y.parent ∧ y'.name = y.name ∧
      y'.linked = y.linked ∧ y'.inode.Same y.inode ∧ y'.slot = y.slot := by
  have hr := h e
  rw [hy] at hr
  cases hr' : fs.dentries e with
  | none => rw [hr'] at hr; cases hr
  | some y =>
    rw [hr'] at hr
    cases hr with
    | some hyy =>
      obtain ⟨h1, h2, h3, h4⟩ := hyy
      exact ⟨y, rfl, h1, h2, h3, h4, by rw [Dentry.slot, h4.inodeNo, Dentry.slot]⟩

theorem Alike.some (h : Alike fs fs') (hy : fs.dentries e = some y) :
    ∃ y', fs'.dentries e = some y' ∧ y'.parent = y.parent ∧ y'.name = y.name ∧
      y'.linked = y.linked ∧ y'.inode.Same y.inode ∧ y'.slot = y.slot := by
  cases hr' : fs'.dentries e with
  | none =>
    have hr := h e
    rw [hy, hr'] at hr
    cases hr
  | some y' =>
    obtain ⟨y0, hy0, hrest⟩ := h.some' hr'
    cases hy.symm.trans hy0
    exact ⟨y', rfl, hrest⟩

theorem Alike.dirAt (h : Alike fs fs') (hx : fs.DirAt p x) :
    ∃ x', fs'.DirAt p x' ∧ x'.slot = x.slot ∧ x'.inode.block = x.inode.block := by
  obtain ⟨x', hx', -, -, hl, hs, hslot⟩ := h.some hx.1
  exact ⟨x', ⟨hx', hl.trans hx.2.1, hs.mode ▸ hx.2.2⟩, hslot, hs.block⟩

/-- **The general update.**  What each dentry that stays current needs of the new device. -/
theorem update (h : FsInv fs S) (hal : Alike fs fs') (hnext : fs'.next = fs.next)
    (hstore : StoreInv fs'.dev fs'.imap S'.pend) (htree : TreeInv fs'.dev S'.orphan)
    (hmono : ∀ e, S.going e → S'.going e)
    (hgoing : ∀ e, S'.going e → S.going e ∨
      e ≠ 0 ∧ ∀ y, fs.dentries e = some y → isDir y.inode.mode = false)
    (hlive : ∀ e y, fs.Current S' e y → fs'.dev.Live y.slot ∧ ¬ S'.orphan y.slot ∧
      (fs.dev.slot y.slot).Same (fs'.dev.slot y.slot))
    (hclean : ∀ e y y', fs.Current S' e y → fs'.dentries e = some y' → ¬ S'.dirty e →
      fs'.dev.slot y.slot = y'.inode)
    (hparent : ∀ e y x j, fs.Current S' e y → e ≠ 0 → fs.DirAt y.parent x →
      fs.dev.entry x.slot j = some (y.name.bytes, y.slot) →
      fs'.dev.entry x.slot j = some (y.name.bytes, y.slot))
    (hcache : ∀ e y c, fs'.dentries e = some y → y.fsdata = some c →
      fs'.DirAt e y ∧ c.Agrees (fs'.dev.record y.inode.block))
    (htorn : ∀ b, fs'.torn b ≠ none → fs'.dev.OfFile S'.pend b) : FsInv fs' S' := by
  have hcur : ∀ e y', fs'.Current S' e y' → ∃ y, fs.Current S' e y ∧ fs.Current S e y ∧
      y'.parent = y.parent ∧ y'.name = y.name ∧ y'.inode.Same y.inode ∧ y'.slot = y.slot := by
    rintro e y' ⟨hy', hl', hg'⟩
    obtain ⟨y, hy, h1, h2, h3, h4, h5⟩ := hal.some' hy'
    have hl := h3.symm.trans hl'
    exact ⟨y, ⟨hy, hl, hg'⟩, ⟨hy, hl, fun hg => hg' (hmono e hg)⟩, h1, h2, h4, h5⟩
  refine ⟨hstore, htree, ?_, ?_, ?_, ?_, ?_, ?_, hcache, ?_, htorn⟩
  · intro e he
    rw [hnext] at he
    cases hr : fs'.dentries e with
    | none => rfl
    | some y' =>
      obtain ⟨y, hy, -⟩ := hal.some' hr
      rw [h.fresh e he] at hy
      cases hy
  · obtain ⟨x, ⟨hx, hl, hg⟩, hx0⟩ := h.root
    obtain ⟨x', hx', -, -, hl', -, hslot⟩ := hal.some hx
    refine ⟨x', ⟨hx', hl'.trans hl, fun hg' => ?_⟩, hslot.trans hx0⟩
    rcases hgoing 0 hg' with hg' | ⟨hne, -⟩
    · exact hg hg'
    · exact hne rfl
  · intro e y' hy'
    obtain ⟨y, hy, hyS, -, -, hs, hslot⟩ := hcur e y' hy'
    obtain ⟨hl, ho, hsame⟩ := hlive e y hy
    rw [hslot]
    exact ⟨hl, ho, hs.trans ((h.live e y hyS).2.2.trans hsame)⟩
  · intro e y' hy' hd
    obtain ⟨y, hy, -, -, -, -, hslot⟩ := hcur e y' hy'
    rw [hslot]
    exact hclean e y y' hy hy'.1 hd
  · intro e y' hy' he
    obtain ⟨y, hy, hyS, hp, hn, -, hslot⟩ := hcur e y' hy'
    obtain ⟨x, j, hx, hent⟩ := h.parent e y hyS he
    obtain ⟨x', hx', hxs, -⟩ := hal.dirAt hx
    refine ⟨x', j, hp ▸ hx', ?_⟩
    rw [hxs, hn, hslot]
    exact hparent e y x j hy he hx hent
  · intro e e' y y' hy hy' heq
    obtain ⟨z, -, hz, -, -, -, hs⟩ := hcur e y hy
    obtain ⟨z', -, hz', -, -, -, hs'⟩ := hcur e' y' hy'
    exact h.inj e e' z z' hz hz' (by rw [← hs, ← hs', heq])
  · intro e y' hy' hno
    obtain ⟨y, hy, -, -, hl, hs, -⟩ := hal.some' hy'
    rw [hs.mode]
    by_cases hold : y.linked = true ∧ ¬ S.going e
    · rw [hl] at hno
      have hg' : S'.going e := by
        by_contra hg
        exact hno ⟨hold.1, hg⟩
      rcases hgoing e hg' with hg | ⟨-, hf⟩
      · exact absurd hg hold.2
      · exact hf y hy
    · exact h.file e y hy hold

/-! ## 4. Changing a dentry -/

/-- A dentry gets another size or another cache. -/
theorem setDentry (h : FsInv fs S) {x' : Dentry} {dirty' : Nat → Prop}
    (hx : fs.dentries p = some x) (hp : x'.parent = x.parent) (hn : x'.name = x.name)
    (hl : x'.linked = x.linked) (hi : x'.inode.Same x.inode)
    (hdirty : ∀ e, e ≠ p → S.dirty e → dirty' e)
    (hclean : ¬ dirty' p → fs.Current S p x → fs.dev.slot x.slot = x'.inode)
    (hcache : ∀ c, x'.fsdata = some c → fs.DirAt p x ∧ c.Agrees (fs.dev.record x.inode.block)) :
    FsInv (fs.setDentry p x') { S with dirty := dirty' } := by
  have hal : Alike fs (fs.setDentry p x') := alike_setDentry hx hp hn hl hi rfl
  refine h.update hal rfl h.store h.tree (fun _ => id) (fun _ => Or.inl) ?_ ?_ ?_ ?_ h.torn
  · intro e y hy
    obtain ⟨hl, ho, -⟩ := h.live e y hy
    exact ⟨hl, ho, .refl _⟩
  · intro e y y' hy hy' hd
    rw [Fs.setDentry_dentries] at hy'
    split at hy'
    · rename_i he
      cases hy'
      subst he
      cases hx.symm.trans hy.1
      exact hclean hd hy
    · rename_i he
      cases hy.1.symm.trans hy'
      exact h.clean e y hy fun hd' => hd (hdirty e he hd')
  · intro e y x j _ _ _ hent
    exact hent
  · intro e y c hy hc
    rw [Fs.setDentry_dentries] at hy
    split at hy
    · rename_i he
      cases hy
      subst he
      obtain ⟨hd, ha⟩ := hcache c hc
      obtain ⟨x'', hx'', -, -⟩ := hal.dirAt hd
      have heq : x'' = x' := by
        have := hx''.1
        rw [Fs.setDentry_dentries, if_pos rfl] at this
        exact (Option.some.inj this).symm
      rw [heq] at hx''
      refine ⟨hx'', ?_⟩
      rw [hi.block]
      exact ha
    · rename_i he
      obtain ⟨hd, ha⟩ := h.cache e y c hy hc
      refine ⟨⟨?_, hd.2⟩, ha⟩
      rw [Fs.setDentry_dentries, if_neg he]
      exact hd.1

/-- `d_delete`: the file has gone. -/
theorem unhash (h : FsInv fs S) {going' : Nat → Prop} (hy : fs.dentries e = some y)
    (he : S.going e) (hg : ∀ d, going' d ↔ S.going d ∧ d ≠ e) :
    FsInv (fs.setDentry e { y with linked := false }) { S with going := going' } := by
  -- the current dentries are the same as before
  have hcur : ∀ d z, (fs.setDentry e { y with linked := false }).Current
      { S with going := going' } d z → fs.Current S d z ∧ d ≠ e := by
    rintro d z ⟨hz, hl, hng⟩
    rw [Fs.setDentry_dentries] at hz
    split at hz
    · cases hz
      cases hl
    · rename_i hde
      exact ⟨⟨hz, hl, fun hgd => hng ((hg d).mpr ⟨hgd, hde⟩)⟩, hde⟩
  have hold : ∀ d z, fs.Current S d z → (fs.setDentry e { y with linked := false }).Current
      { S with going := going' } d z := by
    rintro d z ⟨hz, hl, hng⟩
    have hde : d ≠ e := by rintro rfl; exact hng he
    refine ⟨?_, hl, fun hgd => hng ((hg d).mp hgd).1⟩
    rw [Fs.setDentry_dentries, if_neg hde]
    exact hz
  have hdir : ∀ d z, fs.DirAt d z → (fs.setDentry e { y with linked := false }).DirAt d z := by
    intro d z hz
    exact ⟨(hold d z (h.current_of_dirAt hz)).1, hz.2⟩
  refine ⟨h.store, h.tree, ?_, ?_, ?_, ?_, ?_, ?_, ?_, ?_, h.torn⟩
  · intro d hd
    rw [Fs.setDentry_dentries, if_neg]
    · exact h.fresh d hd
    · rintro rfl
      rw [h.fresh d hd] at hy
      cases hy
  · obtain ⟨x, hx, hx0⟩ := h.root
    exact ⟨x, hold 0 x hx, hx0⟩
  · intro d z hz
    exact h.live d z (hcur d z hz).1
  · intro d z hz
    exact h.clean d z (hcur d z hz).1
  · intro d z hz hd0
    obtain ⟨x, j, hx, hent⟩ := h.parent d z (hcur d z hz).1 hd0
    exact ⟨x, j, hdir _ _ hx, hent⟩
  · intro d d' z z' hz hz'
    exact h.inj d d' z z' (hcur d z hz).1 (hcur d' z' hz').1
  · intro d z c hz hc
    rw [Fs.setDentry_dentries] at hz
    split at hz
    · cases hz
      have := (h.cache e y c hy hc).1
      exact absurd he (h.current_of_dirAt this).2.2
    · obtain ⟨hdz, ha⟩ := h.cache d z c hz hc
      exact ⟨hdir d z hdz, ha⟩
  · intro d z hz hno
    rw [Fs.setDentry_dentries] at hz
    split at hz
    · cases hz
      exact h.file e y hy fun hl => hl.2 he
    · rename_i hde
      refine h.file d z hz fun hl => hno ⟨hl.1, fun hgd => hl.2 ((hg d).mp hgd).1⟩

/-! ## 5. Changing the device -/

/-- The slots of the current dentries and the records of the directories stay. -/
theorem setDev (h : FsInv fs S) {dev' : Device} {imap' : BitVec 64}
    {pend' orphan' : Nat → Prop} (hstore : StoreInv dev' imap' pend') (htree : TreeInv dev' orphan')
    (hslot : ∀ k, fs.dev.Live k → ¬ S.orphan k → dev'.slot k = fs.dev.slot k ∧ ¬ orphan' k)
    (hrec : ∀ i j, fs.dev.graph.dir i → j < 15 →
      dev'.record (fs.dev.slot i).block j = fs.dev.record (fs.dev.slot i).block j)
    (htorn : ∀ b, fs.torn b ≠ none → dev'.OfFile pend' b) :
    FsInv { fs with dev := dev', imap := imap' } { S with pend := pend', orphan := orphan' } := by
  refine h.update (alike_of_eq rfl) rfl hstore htree (fun _ => id) (fun _ => Or.inl) ?_ ?_ ?_ ?_
    htorn
  · intro e y hy
    obtain ⟨hl, ho, -⟩ := h.live e y hy
    obtain ⟨hs, ho'⟩ := hslot y.slot hl ho
    refine ⟨(Device.live_congr hs).mpr hl, ho', ?_⟩
    rw [hs]
    exact .refl _
  · intro e y y' hy hy' hd
    cases hy.1.symm.trans hy'
    obtain ⟨hl, ho, -⟩ := h.live e y hy
    rw [(hslot y.slot hl ho).1]
    exact h.clean e y hy hd
  · intro e y x j _ _ hx hent
    obtain ⟨hl, ho, -⟩ := h.live _ x (h.current_of_dirAt hx)
    rw [Device.entry_congr (by rw [(hslot x.slot hl ho).1]) (hrec x.slot j (h.dir hx).1), hent]
  · intro e y c hy hc
    obtain ⟨hd, ha⟩ := h.cache e y c hy hc
    refine ⟨hd, ha.congr fun j hj => ?_⟩
    rw [← (h.dir hd).2]
    exact hrec y.slot j (h.dir hd).1 hj

/-- `simplefs_sb_get_a_freeblock`. -/
theorem takeFreeBlock (h : FsInv fs S) {b : Nat} {pend' : Nat → Prop}
    (hb : freeBlockScan fs.dev.freeBlocks = some b) (hp : ∀ c, pend' c → S.pend c ∨ c = b) :
    FsInv { fs with dev := fs.dev.setFreeBlocks (takeBlock fs.dev.freeBlocks b) }
      { S with pend := pend' } := by
  refine h.setDev (h.store.takeFreeBlock hb hp) (h.tree.setFreeBlocks h.store _) ?_ ?_ ?_
  · intro k _ ho
    exact ⟨Device.slot_setFreeBlocks _ _ _, ho⟩
  · intro i j hi _
    have := (h.store.block i hi.1).1
    exact Device.record_setFreeBlocks _ _ j (by omega)
  · intro c hc
    have hfile := h.torn c hc
    obtain ⟨h3, -, hav⟩ := h.store.high.scan_some hb
    refine hfile.congr (fun ha => ?_) (fun hpc => ?_) fun i hi => ⟨?_, ?_⟩
    · rw [Device.freeBlocks_setFreeBlocks] at ha
      exact Avail.of_takeBlock ha
    · refine (hp c hpc).resolve_right ?_
      rintro rfl
      exact hfile.avail h3 hav
    · simpa only [Device.graph, Device.Live, Device.slot_setFreeBlocks] using hi
    · rw [Device.slot_setFreeBlocks]

/-- `simplefs_inode_add`. -/
theorem add (h : FsInv fs S) {i : Nat} {v : SfsInode} {pend' orphan' : Nat → Prop} (hi : i < 63)
    (hdead : ¬ fs.dev.Live i) (hno : v.inodeNo = inoOf i)
    (hm : isDir v.mode = true ∨ isReg v.mode = true) (hb : S.pend v.block)
    (hp : ∀ b, pend' b → S.pend b ∧ b ≠ v.block) (ho : ∀ k, orphan' k ↔ k = i ∨ S.orphan k) :
    FsInv { fs with dev := fs.dev.addAt i v, imap := setBit fs.imap (i + 1) }
      { S with pend := pend', orphan := orphan' } := by
  refine h.setDev (h.store.add hi hdead hno hb hp) (h.tree.add h.store hi hdead hno hb hm ho)
    ?_ ?_ ?_
  · intro k hk hok
    have hki : k ≠ i := by rintro rfl; exact hdead hk
    rw [Device.slot_addAt, if_neg hki, ho]
    exact ⟨rfl, fun hor => hor.elim hki hok⟩
  · intro k j hk _
    exact Device.record_addAt _ _ j (by omega) (h.store.block k hk.1).1
  · intro c hc
    have hfile := h.torn c hc
    refine ⟨hfile.two_le, fun h3 ha => ?_, fun hpc => hfile.pend (hp c hpc).1, fun k hk => ?_⟩
    · rw [Device.freeBlocks_addAt] at ha
      exact hfile.avail h3 ha
    · have hk' := hk
      simp only [Device.graph, Device.slot_addAt] at hk'
      rw [Device.slot_addAt]
      split
      · rintro rfl
        exact hfile.pend hb
      · rename_i hki
        rw [if_neg hki] at hk'
        refine hfile.dir k ⟨?_, hk'.2⟩
        have hlive := (Device.live_addAt fs.dev (show i < 128 by omega)
          (by rw [hno]; exact inoOf_ne_zero (by omega)) k).mp hk'.1
        exact hlive.resolve_left hki

/-- `simplefs_inode_del`. -/
theorem del (h : FsInv fs S) {i : Nat} {orphan' : Nat → Prop} (hi : S.orphan i)
    (hf : isDir (fs.dev.slot i).mode = false) (ho : ∀ k, orphan' k ↔ S.orphan k ∧ k ≠ i) :
    FsInv { fs with dev := fs.dev.delAt i, imap := clearBit fs.imap (i + 1) }
      { S with orphan := orphan' } := by
  have hl : fs.dev.Live i := (h.tree.wf.orphan_live i hi).1
  refine h.setDev (h.store.del hl) (h.tree.del h.store hi hf ho) ?_ ?_ ?_
  · intro k _ hok
    have hki : k ≠ i := by rintro rfl; exact hok hi
    rw [Device.slot_delAt, if_neg hki]
    exact ⟨rfl, fun hok' => hok ((ho k).mp hok').1⟩
  · intro k j hk _
    exact Device.record_delAt _ j hl.lt (h.store.block k hk.1).1
  · intro c hc
    refine (h.torn c hc).congr (fun ha => ?_) id fun k hk => ?_
    · rwa [Device.freeBlocks_delAt] at ha
    · obtain ⟨hki, hlk⟩ := (Device.live_delAt fs.dev i k).mp hk.1
      have hslot : (fs.dev.delAt i).slot k = fs.dev.slot k := by rw [Device.slot_delAt, if_neg hki]
      have hdir : isDir ((fs.dev.delAt i).slot k).mode = true := hk.2
      rw [hslot] at hdir ⊢
      exact ⟨⟨hlk, hdir⟩, rfl⟩

/-- A write inside the block of a regular file. -/
theorem write_block (h : FsInv fs S) {dev' : Device} {lo hi : Nat} (hy : fs.Current S e y)
    (hf : isDir y.inode.mode = false) (hagree : AgreeOff lo hi fs.dev dev')
    (hlo : 4096 * y.inode.block ≤ lo) (hhi : hi ≤ 4096 * y.inode.block + 4096) :
    FsInv { fs with dev := dev' } S := by
  obtain ⟨hl, -, hs⟩ := h.live e y hy
  rw [hs.block] at hlo hhi
  rw [hs.mode] at hf
  have h2 := (h.store.block y.slot hl).1
  have hslot : ∀ k, k < 128 → dev'.slot k = fs.dev.slot k := fun k hk =>
    Device.slot_congr hagree (by omega)
  refine h.setDev (h.store.write_block hl hagree hlo hhi)
    (h.tree.write_block h.store hl hf hagree hlo hhi) ?_ ?_ fun b hb =>
      (h.torn b hb).congr_slots (Device.freeBlocks_congr hagree (by omega)) hslot
  · intro k hk ho
    exact ⟨hslot k hk.lt, ho⟩
  · intro i j hi _
    have hne : (fs.dev.slot i).block ≠ (fs.dev.slot y.slot).block := by
      intro heq
      have hm := hi.2
      rw [h.store.block_inj i _ hi.1 hl heq, hf] at hm
      cases hm
    refine Device.record_congr hagree ?_
    rcases Nat.lt_or_gt_of_ne hne with hlt | hgt
    · right; omega
    · left; omega

/-- `simplefs_inode_save` of dentry `e`'s inode. -/
theorem save (h : FsInv fs S) {dirty' : Nat → Prop} (hy : fs.Current S e y)
    (hd : ∀ d, d ≠ e → S.dirty d → dirty' d) :
    FsInv { fs with dev := fs.dev.setSlot y.slot y.inode } { S with dirty := dirty' } := by
  obtain ⟨hl, ho, hs⟩ := h.live e y hy
  have hlt := hl.lt
  have hslot : ∀ k, ((fs.dev.setSlot y.slot y.inode).slot k).Same (fs.dev.slot k) := by
    intro k
    rw [Device.slot_setSlot]
    split
    · rename_i hk
      rw [hk]
      exact hs
    · exact .refl _
  have hrec : ∀ i j, fs.dev.graph.dir i →
      (fs.dev.setSlot y.slot y.inode).record (fs.dev.slot i).block j
        = fs.dev.record (fs.dev.slot i).block j := fun i j hi =>
    Device.record_setSlot _ _ j hlt (h.store.block i hi.1).1
  refine h.update (alike_of_eq rfl) rfl (h.store.save hl hs.inodeNo hs.block)
    (h.tree.save h.store hlt hs.inodeNo hs.mode hs.block) (fun _ => id) (fun _ => Or.inl)
    ?_ ?_ ?_ ?_ fun b hb => (h.torn b hb).congr (fun ha => ?_) id fun k hk => ?_
  · intro d z hz
    obtain ⟨hzl, hzo, -⟩ := h.live d z hz
    exact ⟨(Device.live_setSlot _ hs.inodeNo _).mpr hzl, hzo, (hslot z.slot).symm⟩
  · intro d z z' hz hz' hnd
    cases hz.1.symm.trans hz'
    simp only [Device.slot_setSlot]
    split
    · rename_i heq
      have hde := h.inj d e z y hz hy heq
      subst hde
      cases hz.1.symm.trans hy.1
      rfl
    · rename_i hne
      refine h.clean d z hz fun hdd => hnd (hd d ?_ hdd)
      rintro rfl
      cases hz.1.symm.trans hy.1
      exact hne rfl
  · intro d z x j _ _ hx hent
    rw [Device.entry_congr (hslot x.slot).block fun _ => hrec x.slot j (h.dir hx).1, hent]
  · intro d z c hz hc
    obtain ⟨hdz, ha⟩ := h.cache d z c hz hc
    refine ⟨hdz, ha.congr fun j _ => ?_⟩
    rw [← (h.dir hdz).2]
    exact hrec z.slot j (h.dir hdz).1
  · rwa [Device.freeBlocks_setSlot] at ha
  · have hsame := hslot k
    exact ⟨⟨(Device.live_setSlot _ hs.inodeNo k).mp hk.1, by rw [← hsame.mode]; exact hk.2⟩,
      hsame.block⟩

/-! ## 6. Adding and removing a record -/

/-- A change of record `j` of directory `p`'s block, and of `p`'s cache and size: what the other
dentries need does not change. -/
theorem setRecord (h : FsInv fs S) {x' : Dentry} {dev' : Device} {j : Nat}
    {orphan' dirty' going' : Nat → Prop} (hx : fs.DirAt p x)
    (hp : x'.parent = x.parent) (hn : x'.name = x.name) (hl : x'.linked = x.linked)
    (hi : x'.inode.Same x.inode) (hstore : StoreInv dev' fs.imap S.pend)
    (htree : TreeInv dev' orphan') (hslot : ∀ k, k < 128 → dev'.slot k = fs.dev.slot k)
    (hrec : ∀ b i, 2 ≤ b → i < 15 → ¬ (b = x.inode.block ∧ i = j) →
      dev'.record b i = fs.dev.record b i)
    (hmono : ∀ e, S.going e → going' e)
    (hgoing : ∀ e, going' e → S.going e ∨
      e ≠ 0 ∧ ∀ y, fs.dentries e = some y → isDir y.inode.mode = false)
    (horphan : ∀ e y, fs.Current S e y → ¬ going' e → ¬ orphan' y.slot)
    (hdirty : ∀ e, S.dirty e → dirty' e) (hclean : ¬ dirty' p → x'.inode = x.inode)
    (hparent : ∀ e y, fs.Current S e y → ¬ going' e →
      fs.dev.entry x.slot j ≠ some (y.name.bytes, y.slot))
    (hcache : ∀ c, x'.fsdata = some c → c.Agrees (dev'.record x.inode.block))
    (hfree : dev'.freeBlocks = fs.dev.freeBlocks) :
    FsInv ({ fs with dev := dev' }.setDentry p x')
      { S with orphan := orphan', dirty := dirty', going := going' } := by
  have hal : Alike fs ({ fs with dev := dev' }.setDentry p x') :=
    alike_setDentry hx.1 hp hn hl hi rfl
  have hcur : ∀ e y, fs.Current { S with orphan := orphan', dirty := dirty', going := going' } e y →
      fs.Current S e y ∧ ¬ going' e :=
    fun e y hy => ⟨⟨hy.1, hy.2.1, fun hg => hy.2.2 (hmono e hg)⟩, hy.2.2⟩
  refine h.update hal rfl hstore htree hmono hgoing ?_ ?_ ?_ ?_ fun b hb =>
    (h.torn b hb).congr_slots hfree hslot
  · intro e y hy
    obtain ⟨hyS, hng⟩ := hcur e y hy
    obtain ⟨hyl, -, -⟩ := h.live e y hyS
    refine ⟨(Device.live_congr (hslot _ hyl.lt)).mpr hyl, horphan e y hyS hng, ?_⟩
    simp only [Fs.setDentry_dev, hslot _ hyl.lt]
    exact .refl _
  · intro e y y' hy hy' hnd
    obtain ⟨hyS, -⟩ := hcur e y hy
    have hclean' := h.clean e y hyS fun hd => hnd (hdirty e hd)
    simp only [Fs.setDentry_dev, hslot _ (h.live e y hyS).1.lt, hclean']
    rw [Fs.setDentry_dentries] at hy'
    split at hy'
    · rename_i he
      cases hy'
      subst he
      cases hx.1.symm.trans hyS.1
      exact (hclean hnd).symm
    · cases hyS.1.symm.trans hy'
      rfl
  · intro e y z i hy he hz hent
    obtain ⟨hyS, hng⟩ := hcur e y hy
    obtain ⟨hzd, hzb⟩ := h.dir hz
    rw [← hent]
    refine Device.entry_congr (by rw [Fs.setDentry_dev, hslot _ hzd.1.lt]) fun hi15 => ?_
    rw [Fs.setDentry_dev, hzb]
    refine hrec _ i ?_ hi15 ?_
    · rw [← hzb]
      exact (h.store.block _ hzd.1).1
    · rintro ⟨hb, rfl⟩
      have hpar : y.parent = p := by
        by_contra hne
        exact h.block_ne hx hz hne hb
      rw [hpar] at hz
      cases hx.1.symm.trans hz.1
      exact hparent e y hyS hng hent
  · intro e y c hy hc
    rw [Fs.setDentry_dentries] at hy
    split at hy
    · rename_i he
      cases hy
      subst he
      refine ⟨⟨?_, hl.trans hx.2.1, ?_⟩, ?_⟩
      · rw [Fs.setDentry_dentries, if_pos rfl]
      · rw [hi.mode]
        exact hx.2.2
      · rw [hi.block]
        exact hcache c hc
    · rename_i he
      obtain ⟨hd, ha⟩ := h.cache e y c hy hc
      refine ⟨⟨?_, hd.2⟩, ha.congr fun i hi15 => ?_⟩
      · rw [Fs.setDentry_dentries, if_neg he]
        exact hd.1
      · have hdb := h.dir hd
        refine hrec _ i ?_ hi15 fun hb => h.block_ne hx hd he hb.1
        rw [← hdb.2]
        exact (h.store.block _ hdb.1.1).1

/-- `list_del` of the first entry. -/
theorem listDel_head (e : CacheEntry) (l : List CacheEntry) : listDel e (e :: l) = l := by
  simp [listDel]

/-- **`create`'s record.** -/
theorem addRecord (h : FsInv fs S) {name : Name} {k : Nat} {orphan' : Nat → Prop}
    (hx : fs.DirAt p x) {c : DirCache} (hc : x.fsdata = some c) (hfree : c.free ≠ [])
    (hn : name.bytes.length ≤ 255) (hk : S.orphan k)
    (hnew : ∀ j m, fs.dev.entry x.slot j ≠ some (name.bytes, m))
    (ho : ∀ n, orphan' n ↔ S.orphan n ∧ n ≠ k) :
    ∃ j dev' c', j < 15 ∧ Simplefs.addRecord p name (inoOf k) fs =
        .ok ((), { fs with dev := dev' }.setDentry p { x with fsdata := some c' }) ∧
      (∀ i, i < 128 → dev'.slot i = fs.dev.slot i) ∧
      dev'.entry x.slot j = some (name.bytes, k) ∧
      (∀ b i, i < 15 → ¬ (b = x.inode.block ∧ i = j) → dev'.record b i = fs.dev.record b i) ∧
      FsInv ({ fs with dev := dev' }.setDentry p { x with fsdata := some c' })
        { S with orphan := orphan' } := by
  obtain ⟨e, l, hel⟩ := List.exists_cons_of_ne_nil hfree
  obtain ⟨-, ha⟩ := h.cache p x c hx.1 hc
  obtain ⟨he15, hzero⟩ := ha.free_entry (e := e) (by rw [hel]; exact List.mem_cons_self)
  obtain ⟨hd, hb⟩ := h.dir hx
  have hk128 : k < 128 := (h.tree.wf.orphan_live k hk).1.lt
  have hb2 : 2 ≤ x.inode.block := hb ▸ (h.store.block _ hd.1).1
  have hagree := Device.agreeOff_putRecord fs.dev x.inode.block e.entryNo (inoOf k)
    (show name.bytes.length ≤ 263 by omega)
  obtain ⟨dev', hdev⟩ : ∃ d, d = fs.dev.putRecord x.inode.block e.entryNo (inoOf k) name.bytes :=
    ⟨_, rfl⟩
  rw [← hdev] at hagree
  have hslot : ∀ i, i < 128 → dev'.slot i = fs.dev.slot i := fun i hi =>
    Device.slot_congr hagree (by omega)
  have hrec : ∀ b i, i < 15 → ¬ (b = x.inode.block ∧ i = e.entryNo) →
      dev'.record b i = fs.dev.record b i := fun b i hi hne => by
    rw [hdev]
    exact Device.record_putRecord_ne _ _ (by omega) he15 hi hne
  have hino : (dev'.record x.inode.block e.entryNo).inodeNo = inoOf k := by
    rw [hdev]
    exact Device.inodeNo_putRecord _ _ _ _ hn
  have hname : (dev'.record x.inode.block e.entryNo).filename = name.bytes := by
    rw [hdev]
    exact Device.filename_putRecord _ _ _ _ (by omega) name.noNul
  have hentry : dev'.entry x.slot e.entryNo = some (name.bytes, k) := by
    have hrb : dev'.record (dev'.slot x.slot).block e.entryNo
        = dev'.record x.inode.block e.entryNo := by rw [hslot _ hd.1.lt, hb]
    rw [Device.entry_eq_some he15 hrb (by rw [hino]; exact inoOf_ne_zero hk128), hino, hname,
      slotIndex_inoOf hk128]
  have hnone : fs.dev.entry x.slot e.entryNo = none :=
    Device.entry_eq_none (by rw [hb]; exact hzero)
  have htree : TreeInv dev' orphan' := by
    rw [hdev, ← hb]
    refine h.tree.putRecord h.store hd he15 (by rw [hb]; exact hzero) hk hn name.noNul ?_ ho
    intro i hi hne heq
    exact hnew i _ (by rw [Device.entry_eq_some hi rfl hne, heq])
  refine ⟨e.entryNo, dev', ⟨c.dirChildrenCount,
    cacheEntryInsert c.used ⟨dev'.record x.inode.block e.entryNo, e.entryNo⟩, l⟩,
    he15, ?_, hslot, hentry, hrec, ?_⟩
  · unfold Simplefs.addRecord
    simp only [Fs.dentry_of_eq hx.1, hc, freeCacheEntryGet, hel, List.head?_cons, bind,
      Except.bind, pure, Except.pure]
    rw [if_pos ⟨he15, by have : e.entryNo < 15 := he15; omega⟩, ← hdev, listDel_head]
  · refine h.setRecord hx rfl rfl rfl (.refl _) ?_ htree hslot (fun b i _ => hrec b i)
      (fun _ => id) (fun _ => Or.inl) ?_ (fun _ => id) (fun _ => rfl) ?_ ?_
      (Device.freeBlocks_congr hagree (by omega))
    · refine h.store.write_block hd.1 hagree ?_ ?_
      · rw [hb]; omega
      · rw [hb]
        have : e.entryNo < 15 := he15
        omega
    · intro d y hy _ hor
      exact (h.live d y hy).2.1 ((ho _).mp hor).1
    · intro d y _ _ hent
      rw [hnone] at hent
      cases hent
    · intro c' hc'
      cases hc'
      refine ha.take hel rfl ?_ rfl ?_
      · rw [hino]
        exact inoOf_ne_zero hk128
      · intro i hi hne
        exact hrec _ i hi fun hbi => hne hbi.2

/-- **The cache finds the record that names a file.** -/
theorem used_entry (h : FsInv fs S) (hy : fs.Current S e y) (he : e ≠ 0)
    (hx : fs.DirAt y.parent x) {c : DirCache} (hc : x.fsdata = some c) :
    ∃ entry, usedCacheEntryGet c y.name = some entry ∧ entry ∈ c.used ∧ entry.entryNo < 15 ∧
      fs.dev.entry x.slot entry.entryNo = some (y.name.bytes, y.slot) := by
  obtain ⟨x0, j, hx0, hent⟩ := h.parent e y hy he
  cases hx.1.symm.trans hx0.1
  obtain ⟨-, ha⟩ := h.cache _ x c hx.1 hc
  obtain ⟨hxd, hb⟩ := h.dir hx
  obtain ⟨hj, hne, hname, -⟩ := Device.of_entry_eq_some hent
  rw [hb] at hne hname
  cases hget : usedCacheEntryGet c y.name with
  | none => exact absurd hname (ha.usedCacheEntryGet_none hget hj hne)
  | some entry =>
    obtain ⟨hmem, h15, hl, -, hfn⟩ := ha.usedCacheEntryGet_some hget
    have hent' : fs.dev.entry x.slot entry.entryNo = some (y.name.bytes,
        slotIndex (fs.dev.record x.inode.block entry.entryNo).inodeNo) := by
      rw [← hfn]
      exact Device.entry_eq_some h15 (by rw [hb]) hl
    have hno : entry.entryNo = j := h.tree.wf.label _ _ _ _ _ _ hxd hent' hent
    exact ⟨entry, rfl, hmem, h15, by rw [hno]; exact hent⟩

/-- **`unlink`'s record**: the file's name is gone, its inode and its dentry are still there. -/
theorem removeRecord (h : FsInv fs S) {orphan' dirty' going' : Nat → Prop}
    (hy : fs.Current S e y) (he : e ≠ 0) (hf : isDir y.inode.mode = false)
    (hx : fs.DirAt y.parent x) {c : DirCache} (hc : x.fsdata = some c)
    (ho : ∀ n, orphan' n ↔ n = y.slot ∨ S.orphan n) (hdp : dirty' y.parent)
    (hd : ∀ d, S.dirty d → dirty' d) (hg : ∀ d, going' d ↔ d = e ∨ S.going d) :
    ∃ j dev' x', j < 15 ∧ Simplefs.removeRecord e fs =
        .ok ((y.parent, y.inode.inodeNo), { fs with dev := dev' }.setDentry y.parent x') ∧
      x'.parent = x.parent ∧ x'.name = x.name ∧ x'.linked = x.linked ∧ x'.inode.Same x.inode ∧
      x'.inode.fileSize = x.inode.fileSize - 1 ∧
      (∀ i, i < 128 → dev'.slot i = fs.dev.slot i) ∧
      (∀ b i, i < 15 → ¬ (b = x.inode.block ∧ i = j) → dev'.record b i = fs.dev.record b i) ∧
      FsInv ({ fs with dev := dev' }.setDentry y.parent x')
        { S with orphan := orphan', dirty := dirty', going := going' } := by
  obtain ⟨entry, hget, hused, he15, hent⟩ := h.used_entry hy he hx hc
  obtain ⟨-, ha⟩ := h.cache _ x c hx.1 hc
  obtain ⟨hxd, hb⟩ := h.dir hx
  have hb2 : 2 ≤ x.inode.block := hb ▸ (h.store.block _ hxd.1).1
  obtain ⟨dev', hdev⟩ : ∃ d, d = fs.dev.clearRecord x.inode.block entry.entryNo := ⟨_, rfl⟩
  have hagree := Device.agreeOff_clearRecord fs.dev x.inode.block entry.entryNo
  rw [← hdev] at hagree
  have hslot : ∀ i, i < 128 → dev'.slot i = fs.dev.slot i := fun i hi =>
    Device.slot_congr hagree (by omega)
  have hrec : ∀ b i, i < 15 → ¬ (b = x.inode.block ∧ i = entry.entryNo) →
      dev'.record b i = fs.dev.record b i := fun b i hi hbi => by
    rw [hdev, Device.record_clearRecord _ he15 hi, if_neg hbi]
  have hzero : (dev'.record x.inode.block entry.entryNo).inodeNo = 0#64 := by
    rw [hdev, Device.record_clearRecord _ he15 he15, if_pos ⟨rfl, rfl⟩, DirRecord.inodeNo_zero]
  have htree : TreeInv dev' orphan' := by
    rw [hdev, ← hb]
    exact h.tree.clearRecord h.store ⟨hxd, _, hent⟩ ho
  refine ⟨entry.entryNo, dev', { x with
    fsdata := some ⟨c.dirChildrenCount - 1, listDel entry c.used, entry :: c.free⟩
    inode := { x.inode with fileSize := x.inode.fileSize - 1 } }, he15, ?_, rfl, rfl, rfl,
    ⟨rfl, rfl, rfl⟩, rfl, hslot, hrec, ?_⟩
  · unfold Simplefs.removeRecord
    simp only [Fs.dentry_of_eq hy.1, Fs.dentry_of_eq hx.1, hc, hget, bind, Except.bind, pure,
      Except.pure]
    rw [if_pos he15, hdev]
  · refine h.setRecord hx rfl rfl rfl ⟨rfl, rfl, rfl⟩ ?_ htree hslot (fun b i _ => hrec b i)
      (fun d hgd => (hg d).mpr (Or.inr hgd)) ?_ ?_ hd (fun hnd => absurd hdp hnd) ?_ ?_
      (Device.freeBlocks_congr hagree (by omega))
    · refine h.store.write_block hxd.1 hagree ?_ ?_
      · rw [hb]; omega
      · rw [hb]; omega
    · intro d hgd
      rcases (hg d).mp hgd with rfl | hgd
      · refine Or.inr ⟨he, fun z hz => ?_⟩
        cases hy.1.symm.trans hz
        exact hf
      · exact Or.inl hgd
    · intro d z hz hng hor
      rcases (ho _).mp hor with heq | hor
      · exact hng ((hg d).mpr (Or.inl (h.inj d e z y hz hy heq)))
      · exact (h.live d z hz).2.1 hor
    · intro d z hz hng hent'
      rw [hent] at hent'
      have heq : y.slot = z.slot := congrArg Prod.snd (Option.some.inj hent')
      exact hng ((hg d).mpr (Or.inl (h.inj d e z y hz hy heq.symm)))
    · intro c' hc'
      cases hc'
      exact ha.give hused hzero (fun i hi hni => hrec _ i hi fun hbi => hni hbi.2) _

/-! ## 7. Attaching and releasing a dentry -/

/-- **`d_add`** of a name that directory `p` has and that no dentry stands for yet. -/
theorem attach (h : FsInv fs S) {name : Name} {v : SfsInode} {j i : Nat} (hx : fs.DirAt p x)
    (hno : fs.NoChild p name) (hent : fs.dev.entry x.slot j = some (name.bytes, i))
    (hv : fs.dev.slot i = v) (hg : ∀ e, S.going e → e < fs.next) : FsInv (fs.dAdd p name v) S := by
  have hn : fs.dev.graph.Names x.slot j i := ⟨(h.dir hx).1, _, hent⟩
  obtain ⟨hil, hi0, hio⟩ := h.tree.wf.target _ _ _ hn
  have hvi : v.inodeNo = inoOf i := by rw [← hv]; exact (h.store.slots i hil).1
  have hvs : slotIndex v.inodeNo = i := by rw [hvi, slotIndex_inoOf hil.lt]
  have hlt : ∀ e y, fs.dentries e = some y → e ≠ fs.next := by
    rintro e y hy rfl
    rw [h.fresh _ (Nat.le_refl _)] at hy
    cases hy
  have hold : ∀ e y, fs.dentries e = some y → (fs.dAdd p name v).dentries e = some y := by
    intro e y hy
    rw [Fs.dAdd_dentries, if_neg (hlt e y hy)]
    exact hy
  have hcur : ∀ e y, (fs.dAdd p name v).Current S e y →
      e = fs.next ∧ y = ⟨p, name, v, none, true⟩ ∨ fs.Current S e y := by
    rintro e y ⟨hy, hl, hge⟩
    rw [Fs.dAdd_dentries] at hy
    split at hy
    · rename_i he
      exact Or.inl ⟨he, (Option.some.inj hy).symm⟩
    · exact Or.inr ⟨hy, hl, hge⟩
  -- no dentry stands for the inode yet
  have hnew : ∀ e y, fs.Current S e y → y.slot ≠ i := by
    intro e y hy heq
    obtain ⟨he, hpar, hname⟩ := h.child_of_entry hx hent hy heq
    exact hno e y he hy.1 hy.2.1 hpar (Name.ext hname)
  have hdir : ∀ d z, fs.DirAt d z → (fs.dAdd p name v).DirAt d z := fun d z hz =>
    ⟨hold d z hz.1, hz.2⟩
  refine ⟨h.store, h.tree, ?_, ?_, ?_, ?_, ?_, ?_, ?_, ?_, h.torn⟩
  · intro e he
    have he' : fs.next + 1 ≤ e := he
    rw [Fs.dAdd_dentries, if_neg (by omega)]
    exact h.fresh e (by omega)
  · obtain ⟨r, hr, hr0⟩ := h.root
    exact ⟨r, ⟨hold 0 r hr.1, hr.2⟩, hr0⟩
  · intro e y hy
    rcases hcur e y hy with ⟨-, rfl⟩ | hy
    · simp only [Dentry.slot, hvs]
      exact ⟨hil, hio, hv ▸ .refl _⟩
    · exact h.live e y hy
  · intro e y hy hd
    rcases hcur e y hy with ⟨-, rfl⟩ | hy
    · simp only [Dentry.slot, hvs]
      exact hv
    · exact h.clean e y hy hd
  · intro e y hy he
    rcases hcur e y hy with ⟨-, rfl⟩ | hy
    · refine ⟨x, j, hdir p x hx, ?_⟩
      simp only [Dentry.slot, hvs]
      exact hent
    · obtain ⟨z, j', hz, hent'⟩ := h.parent e y hy he
      exact ⟨z, j', hdir _ z hz, hent'⟩
  · intro e e' y y' hy hy' heq
    rcases hcur e y hy with ⟨he, hye⟩ | hyS <;> rcases hcur e' y' hy' with ⟨he', hye'⟩ | hyS'
    · rw [he, he']
    · rw [hye] at heq
      exact absurd (heq.symm.trans hvs) (hnew e' y' hyS')
    · rw [hye'] at heq
      exact absurd (heq.trans hvs) (hnew e y hyS)
    · exact h.inj e e' y y' hyS hyS' heq
  · intro e y c hy hc
    rw [Fs.dAdd_dentries] at hy
    split at hy
    · cases hy
      cases hc
    · obtain ⟨hd, ha⟩ := h.cache e y c hy hc
      exact ⟨hdir e y hd, ha⟩
  · intro e y hy hno'
    rw [Fs.dAdd_dentries] at hy
    split at hy
    · rename_i he
      cases hy
      refine absurd ⟨rfl, fun hge => ?_⟩ hno'
      have := hg e hge
      omega
    · exact h.file e y hy hno'

/-- `simplefs_dentry_release`, of a dentry without children. -/
theorem release (h : FsInv fs S) {d : Nat} (hd0 : d ≠ 0)
    (hd : ∀ e y, fs.dentries e = some y → y.parent ≠ d) :
    FsInv { fs with dentries := Function.update fs.dentries d none } S := by
  have hold : ∀ e y, Function.update fs.dentries d none e = some y →
      e ≠ d ∧ fs.dentries e = some y := fun _ _ => Fs.of_update_none
  have hkeep : ∀ e, e ≠ d → Function.update fs.dentries d none e = fs.dentries e := fun e he =>
    Function.update_of_ne he _ _
  refine ⟨h.store, h.tree, ?_, ?_, ?_, ?_, ?_, ?_, ?_, ?_, h.torn⟩
  · intro e he
    cases hr : Function.update fs.dentries d none e with
    | none => exact hr
    | some y =>
      have := (hold e y hr).2
      rw [h.fresh e he] at this
      cases this
  · obtain ⟨x, hx, hx0⟩ := h.root
    refine ⟨x, ⟨?_, hx.2⟩, hx0⟩
    exact (hkeep 0 (Ne.symm hd0)).trans hx.1
  · intro e y hy
    exact h.live e y ⟨(hold e y hy.1).2, hy.2⟩
  · intro e y hy hnd
    exact h.clean e y ⟨(hold e y hy.1).2, hy.2⟩ hnd
  · intro e y hy he
    have hye := (hold e y hy.1).2
    obtain ⟨x, j, hx, hent⟩ := h.parent e y ⟨hye, hy.2⟩ he
    refine ⟨x, j, ⟨?_, hx.2⟩, hent⟩
    exact (hkeep _ (hd e y hye)).trans hx.1
  · intro e e' y y' hy hy' heq
    exact h.inj e e' y y' ⟨(hold e y hy.1).2, hy.2⟩ ⟨(hold e' y' hy'.1).2, hy'.2⟩ heq
  · intro e y c hy hc
    obtain ⟨hne, hye⟩ := hold e y hy
    obtain ⟨hdz, ha⟩ := h.cache e y c hye hc
    refine ⟨⟨?_, hdz.2⟩, ha⟩
    exact (hkeep e hne).trans hye
  · intro e y hy hno
    exact h.file e y (hold e y hy).2 hno

/-! ## 8. Dropping the buffers that the device does not have -/

/-- Other blocks are torn, or none. -/
theorem setTorn (h : FsInv fs S) {torn' : Nat → Option Block}
    (ht : ∀ b, torn' b ≠ none → fs.dev.OfFile S.pend b) : FsInv { fs with torn := torn' } S :=
  { h with torn := ht }

/-- A copy into a file's block. -/
theorem setTorn_tear (h : FsInv fs S) {b : Nat} (hb : fs.dev.OfFile S.pend b)
    {torn' : Nat → Option Block} (hto : ∀ b', b' ≠ b → torn' b' = fs.torn b') :
    FsInv { fs with torn := torn' } S := by
  refine h.setTorn fun b' hno => ?_
  by_cases hbb : b' = b
  · exact hbb ▸ hb
  · rw [hto b' hbb] at hno
    exact h.torn b' hno

/-- The block of a linked file. -/
theorem ofFile (h : FsInv fs S) (hy : fs.Current S e y) (hf : isDir y.inode.mode = false) :
    fs.dev.OfFile S.pend y.inode.block := by
  obtain ⟨hl, -, hs⟩ := h.live e y hy
  have hblock := h.store.block y.slot hl
  rw [hs.block]
  refine ⟨hblock.1, fun h3 ha => (h.store.avail _ h3 hblock.2 ha).2.1 y.slot hl rfl,
    fun hp => (h.store.pend _ hp).2.2.1 y.slot hl rfl, fun i hi heq => ?_⟩
  have hdir : isDir (fs.dev.slot i).mode = true := hi.2
  rw [h.store.block_inj i y.slot hi.1 hl heq, ← hs.mode, hf] at hdir
  cases hdir

theorem dataTorn (h : FsInv fs S) : fs.DataTorn := fun b hb => (h.torn b hb).two_le

/-- The records of the directories are on the device as they are in memory. -/
theorem record_flushed (h : FsInv fs S) {i j : Nat} (hd : fs.dev.graph.dir i)
    (hj : j < recordsPerBlock) :
    fs.flushed.record (fs.dev.slot i).block j = fs.dev.record (fs.dev.slot i).block j := by
  refine Device.record_of_bytes (Device.bytes_of_blocks (Fs.blocks_flushed ?_)) hj
  by_contra hno
  exact (h.torn _ hno).dir i hd rfl

/-- **The device as it is after an unmount** is in order, and what is mounted on it is what was
mounted, but for the contents of files whose copies failed. -/
theorem restored (h : FsInv fs S) : FsInv fs.restored S := by
  have hslot : ∀ i, i < slotsPerBlock → fs.flushed.slot i = fs.dev.slot i :=
    fun i => h.dataTorn.slot
  have hstore : StoreInv fs.flushed fs.imap S.pend :=
    h.store.flushed fun b hb => ⟨(h.torn b hb).two_le, (h.torn b hb).avail, (h.torn b hb).pend⟩
  have htree : TreeInv fs.flushed S.orphan := by
    refine h.tree.congr (fun k hk => by rw [hslot k hk]; exact ⟨rfl, rfl, rfl⟩) ?_ fun _ => .rfl
    intro i j hl hd hj
    exact h.record_flushed ⟨hl, hd⟩ hj
  have hdev := h.setDev hstore htree (fun k hk ho => ⟨hslot k hk.lt, ho⟩)
    (fun i j hd hj => h.record_flushed hd hj)
    fun b hb => (h.torn b hb).congr_slots h.dataTorn.super.free hslot
  exact hdev.setTorn fun _ hno => absurd rfl hno

end FsInv

end Simplefs
