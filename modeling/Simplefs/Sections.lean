/-
# The pieces of straight-line code, one by one

For each piece of code between two lock operations: from the phase the operation is in, it
succeeds, keeps the invariant of all threads and ends in the next phase (`Sect`).  The proofs
all have one shape.  The filesystem's part is a lemma of `Inv.lean`; what is left is what the
piece leaves alone (`Keeps`) and the thread's own next point.
-/
import Simplefs.Calls
import Simplefs.Phases

namespace Simplefs

open Prog (Sect Discipline)

/-- What the proofs about threads carry.  An operation that has picked an inode number relies
on `simplefs_directory_children_update_lock`. -/
def discipline (T : Type) [DecidableEq T] : Discipline Fs Progress Lock T Phase where
  inv := Inv
  relies g l := l = .childrenUpdate ∧ g.pick ≠ none
  view := Phase.view
  idle := .idle
  idle_relies := by
    rintro l ⟨-, h⟩
    exact h rfl

variable {T : Type} [DecidableEq T] {t : T} {h : Lock → Bool}

/-- A phase that has picked nothing relies on nothing. -/
theorem not_relies {g : Phase} (hg : g.pick = none) (l : Lock) : ¬ (discipline T).relies g l :=
  fun hr => hr.2 hg

/-! ## 1. Shadows and frames -/

section Shadows

variable {G : T → Phase} {g : Phase}

theorem shadow_same (hp : g.pend = (G t).pend) (ho : g.orphan = (G t).orphan)
    (hd : g.dirty = (G t).dirty) (hg : g.going = (G t).going) :
    shadow (Function.update G t g) = shadow G := by
  rw [shadow, holds_same hp, holds_same ho, holds_same hd, holds_same hg, shadow]

theorem shadow_pend (ho : g.orphan = (G t).orphan) (hd : g.dirty = (G t).dirty)
    (hg : g.going = (G t).going) : shadow (Function.update G t g) =
      { shadow G with pend := holds Phase.pend (Function.update G t g) } := by
  simp only [shadow, holds_same ho, holds_same hd, holds_same hg]

theorem shadow_dirty (hp : g.pend = (G t).pend) (ho : g.orphan = (G t).orphan)
    (hg : g.going = (G t).going) : shadow (Function.update G t g) =
      { shadow G with dirty := holds Phase.dirty (Function.update G t g) } := by
  simp only [shadow, holds_same hp, holds_same ho, holds_same hg]

theorem shadow_orphan (hp : g.pend = (G t).pend) (hd : g.dirty = (G t).dirty)
    (hg : g.going = (G t).going) : shadow (Function.update G t g) =
      { shadow G with orphan := holds Phase.orphan (Function.update G t g) } := by
  simp only [shadow, holds_same hp, holds_same hd, holds_same hg]

theorem shadow_going (hp : g.pend = (G t).pend) (ho : g.orphan = (G t).orphan)
    (hd : g.dirty = (G t).dirty) : shadow (Function.update G t g) =
      { shadow G with going := holds Phase.going (Function.update G t g) } := by
  simp only [shadow, holds_same hp, holds_same ho, holds_same hd]

theorem shadow_pend_orphan (hd : g.dirty = (G t).dirty) (hg : g.going = (G t).going) :
    shadow (Function.update G t g) = { shadow G with
      pend := holds Phase.pend (Function.update G t g)
      orphan := holds Phase.orphan (Function.update G t g) } := by
  simp only [shadow, holds_same hd, holds_same hg]

end Shadows

namespace Keeps

variable {fs fs' : Fs} {q : Nat} {own : Nat → Prop} {x : Dentry}

theorem refl (fs : Fs) (q : Nat) : Keeps fs fs q fun _ => False :=
  ⟨fun _ _ hy _ _ => hy, fun _ y hy _ => ⟨y, hy, rfl, rfl, rfl⟩, fun _ _ _ _ _ => rfl,
    fun _ _ _ => Or.inl rfl⟩

/-- Only the device changed. -/
theorem of_dev (hd : fs'.dentries = fs.dentries)
    (hentry : ∀ p x, fs.DirAt p x → ∀ j, fs'.dev.entry x.slot j = fs.dev.entry x.slot j)
    (hslot : ∀ k, k < 128 → ¬ own k → fs'.dev.slot k = fs.dev.slot k) : Keeps fs fs' q own where
  old e y hy _ _ := by rw [hd]; exact hy
  new e y hy _ := by rw [hd] at hy; exact ⟨y, hy, rfl, rfl, rfl⟩
  entry p x hx _ := hentry p x hx
  slot k hk ho := Or.inl (hslot k hk ho)

/-- The directory's own dentry changed, and perhaps its block. -/
theorem of_dentry (x' : Dentry) (hx : fs.dentries q = some x) (hp : x'.parent = x.parent)
    (hn : x'.name = x.name) (hl : x'.linked = x.linked)
    (hd : ∀ e, fs'.dentries e = if e = q then some x' else fs.dentries e)
    (hentry : ∀ p x, fs.DirAt p x → p ≠ q → ∀ j, fs'.dev.entry x.slot j = fs.dev.entry x.slot j)
    (hslot : ∀ k, k < 128 → fs'.dev.slot k = fs.dev.slot k) : Keeps fs fs' q own where
  old e y hy he _ := by rw [hd, if_neg he]; exact hy
  new e y hy _ := by
    rw [hd] at hy
    split at hy
    · rename_i he
      cases hy
      exact ⟨x, by rw [he]; exact hx, hp.symm, hn.symm, hl.symm⟩
    · exact ⟨y, hy, rfl, rfl, rfl⟩
  entry := hentry
  slot k hk _ := Or.inl (hslot k hk)

end Keeps

/-- A thread moves to another phase without a change of the state. -/
theorem Inv.stay {fs : Fs} {G : T → Phase} {g : Phase} {q : Nat} (hi : Inv fs G)
    (hq : (G t).dir = some q) (hdir : g.dir = some q) (hp : g.pend = (G t).pend)
    (ho : g.orphan = (G t).orphan) (hd : g.dirty = (G t).dirty) (hg : g.going = (G t).going)
    (hloc : Local fs g) : Inv fs (Function.update G t g) := by
  refine hi.advance hq hdir ?_ hloc (Keeps.refl fs q) ?_ ?_
  · rw [shadow_same hp ho hd hg]
    exact hi.inv
  · intro i hgi
    exact Or.inl (ho.symm.trans hgi)
  · intro i hf
    exact hf.elim

/-- An operation with nothing under way may end. -/
theorem Inv.finish {fs : Fs} {G : T → Phase} (hi : Inv fs G) (hp : (G t).pend = none)
    (ho : (G t).orphan = none) (hd : (G t).dirty = none) (hg : (G t).going = none) :
    Inv fs (Function.update G t .idle) := by
  have hne : ∀ u d, (Function.update G t .idle u).dir = some d →
      u ≠ t ∧ (G u).dir = some d := by
    intro u d hu
    by_cases hut : u = t
    · subst hut
      rw [Function.update_self] at hu
      cases hu
    · rw [Function.update_of_ne hut] at hu
      exact ⟨hut, hu⟩
  have hne' : ∀ u i, (Function.update G t .idle u).orphan = some i → (G u).orphan = some i := by
    intro u i hu
    by_cases hut : u = t
    · subst hut
      rw [Function.update_self] at hu
      cases hu
    · rw [Function.update_of_ne hut] at hu
      exact hu
  refine ⟨?_, ?_, ?_, ?_⟩
  · have hsame : shadow (Function.update G t .idle) = shadow G :=
      shadow_same (g := .idle) hp.symm ho.symm hd.symm hg.symm
    rw [hsame]
    exact hi.inv
  · intro u
    by_cases hut : u = t
    · subst hut
      rw [Function.update_self]
      exact trivial
    · rw [Function.update_of_ne hut]
      exact hi.loc u
  · intro u v d hu hv
    exact hi.dirs u v d (hne u d hu).2 (hne v d hv).2
  · intro u v i hu hv
    exact hi.orphans u v i (hne' u i hu) (hne' v i hv)

/-! ## 2. Pieces that only read -/

/-- A piece that succeeds without a change of the state or of the phase. -/
theorem sect_same {β : Type} {f : Fs → Except Fault (β × Fs)} {g : Phase} {post : β → Phase → Prop}
    (hrel : ∀ l, (discipline T).relies g l → h l = true)
    (hf : ∀ fs (G : T → Phase), Inv fs G → G t = g → ∃ b, f fs = .ok (b, fs) ∧ post b g) :
    Sect (discipline T) t f (fun _ w => w) h g post := by
  intro fs G hi _ hg
  obtain ⟨b, hb, hpost⟩ := hf fs G hi hg
  refine ⟨b, fs, g, hb, rfl, hrel, ?_, hpost⟩
  rw [← hg, Function.update_eq_self]
  exact hi

theorem sect_bugOnNoCache {d : Nat} {name : Name} :
    Sect (discipline T) t (bugOnNoCache d) (fun _ w => w) h (.ready d name)
      fun _ g' => g' = .ready d name := by
  refine sect_same (fun l hr => absurd hr (not_relies rfl l)) ?_
  intro fs G hi hg
  have hl := hi.loc t
  rw [hg] at hl
  obtain ⟨-, x, c, hx, hc, -⟩ := hl
  refine ⟨(), ?_, rfl⟩
  simp only [bugOnNoCache, Fs.dentry_of_eq hx.1, hc, bind, Except.bind, pure, Except.pure,
    Option.isSome_some, if_true]

theorem sect_readInode {d i : Nat} {name : Name} {v : SfsInode} {mine dirty : Bool} :
    Sect (discipline T) t (readInode (inoOf i)) (fun _ w => w) h (.found d name i v mine dirty)
      fun r g' => r = v ∧ g' = .found d name i v mine dirty := by
  refine sect_same (fun l hr => absurd hr (not_relies rfl l)) ?_
  intro fs G hi hg
  have hl := hi.loc t
  rw [hg] at hl
  obtain ⟨-, ⟨x, j, hx, hent⟩, hv⟩ := hl
  obtain ⟨hil, -, -⟩ := hi.inv.tree.wf.target _ _ _ ⟨(hi.inv.dir hx).1, _, hent⟩
  refine ⟨fs.dev.slot i, ?_, hv, rfl⟩
  rw [readInode, slotAt_inoOf hil.lt, if_pos hil.lt]

/-! ## 3. Listing and looking up -/

/-- The cache `simplefs_iterate` goes through: the one that is there, or a new one. -/
def dirCacheOf (fs : Fs) (x : Dentry) : DirCache :=
  x.fsdata.getD (dirCacheBuild simplefsCacheAlloc (fs.dev.record x.inode.block))

theorem iterate_eq {fs : Fs} {d : Nat} {x : Dentry} (hx : fs.dentries d = some x) (pos : Nat) :
    iterate d pos fs = .ok (if pos ≠ 0 then (pos, []) else
      (pos + 264 * (dirCacheOf fs x).used.length, (dirCacheOf fs x).used.map CacheEntry.record),
      fs.setDentry d { x with fsdata := some (dirCacheOf fs x) }) := by
  unfold iterate dirCacheOf
  cases hfd : x.fsdata <;>
    simp only [Fs.dentry_of_eq hx, bind, Except.bind, pure, Except.pure, hfd, Option.getD_none,
      Option.getD_some] <;>
    split <;> rfl

theorem sect_iterate {d pos : Nat} :
    Sect (discipline T) t (iterate d pos) (fun _ w => w) h (.busy d)
      fun _ g' => g' = .busy d := by
  intro fs G hi _ hg
  have hl := hi.loc t
  rw [hg] at hl
  obtain ⟨x, hx⟩ := hl
  obtain ⟨c, hc⟩ : ∃ c, c = dirCacheOf fs x := ⟨_, rfl⟩
  have ha : c.Agrees (fs.dev.record x.inode.block) := by
    rw [hc, dirCacheOf]
    cases hfd : x.fsdata with
    | none => rw [Option.getD_none]; exact dirCacheBuild_agrees _
    | some c' => rw [Option.getD_some]; exact (hi.inv.cache d x c' hx.1 hfd).2
  have hr := iterate_eq hx.1 pos
  rw [← hc] at hr
  refine ⟨_, _, .busy d, hr, rfl, fun l hr => absurd hr (not_relies rfl l), ?_, rfl⟩
  have hkeep : Keeps fs (fs.setDentry d { x with fsdata := some c }) d fun _ => False :=
    Keeps.of_dentry { x with fsdata := some c } hx.1 rfl rfl rfl (Fs.setDentry_dentries fs d _)
      (fun _ _ _ _ _ => rfl) fun _ _ => rfl
  refine hi.advance (by rw [hg]; rfl) rfl ?_ ?_ hkeep ?_ ?_
  · rw [shadow_same (by rw [hg]) (by rw [hg]) (by rw [hg]) (by rw [hg])]
    refine hi.inv.setDentry hx.1 rfl rfl rfl (.refl _) (fun _ _ => id) ?_ ?_
    · intro hd hcur
      exact hi.inv.clean d x hcur hd
    · intro c' hc'
      cases hc'
      exact ⟨hx, ha⟩
  · refine ⟨{ x with fsdata := some c }, ?_, hx.2⟩
    rw [Fs.setDentry_dentries, if_pos rfl]
  · intro i hgi
    cases hgi
  · intro i hf
    exact hf.elim

/-- The cache gives a name's inode number, or says that there is no such name. -/
theorem sect_lookupEntry {d : Nat} {name : Name} :
    Sect (discipline T) t (lookupEntry d name) (fun _ w => w) h (.looking d name)
      fun r g' => r = none ∧ g' = .busy d ∨
        ∃ i v, r = some (inoOf i) ∧ g' = .found d name i v false false := by
  intro fs G hi _ hg
  have hl := hi.loc t
  rw [hg] at hl
  obtain ⟨hno, x, c, hx, hc⟩ := hl
  obtain ⟨-, ha⟩ := hi.inv.cache d x c hx.1 hc
  have hrun : lookupEntry d name fs =
      .ok ((usedCacheEntryGet c name).map fun e => e.record.inodeNo, fs) := by
    simp only [lookupEntry, Fs.dentry_of_eq hx.1, hc, bind, Except.bind, pure, Except.pure]
  cases hget : usedCacheEntryGet c name with
  | none =>
    rw [hget] at hrun
    refine ⟨_, fs, .busy d, hrun, rfl, fun l hr => absurd hr (not_relies rfl l), ?_,
      Or.inl ⟨rfl, rfl⟩⟩
    exact hi.stay (by rw [hg]; rfl) rfl (by rw [hg]; rfl) (by rw [hg]; rfl) (by rw [hg]; rfl)
      (by rw [hg]; rfl) ⟨x, hx⟩
  | some e =>
    rw [hget] at hrun
    obtain ⟨-, h15, hlive, hrec, hname⟩ := ha.usedCacheEntryGet_some hget
    obtain ⟨hdir, hb⟩ := hi.inv.dir hx
    rw [← hrec] at hlive hname
    have hent : fs.dev.entry x.slot e.entryNo =
        some (name.bytes, slotIndex e.record.inodeNo) := by
      rw [← hname]
      exact Device.entry_eq_some h15 (by rw [hb, hrec]) hlive
    obtain ⟨hil, -, -⟩ := hi.inv.tree.wf.target _ _ _ ⟨hdir, _, hent⟩
    refine ⟨_, fs, .found d name (slotIndex e.record.inodeNo)
      (fs.dev.slot (slotIndex e.record.inodeNo)) false false, hrun, rfl,
      fun l hr => absurd hr (not_relies rfl l), ?_, Or.inr ⟨_, _, ?_, rfl⟩⟩
    · exact hi.stay (by rw [hg]; rfl) rfl (by rw [hg]; rfl) (by rw [hg]; rfl) (by rw [hg]; rfl)
        (by rw [hg]; rfl) ⟨hno, ⟨x, _, hx, hent⟩, rfl⟩
    · rw [Option.map_some, inoOf_slotIndex hil.lt]

/-- `d_add` of an inode that a record names. -/
theorem sect_attach {d i : Nat} {name : Name} {v : SfsInode} {mine : Bool} :
    Sect (discipline T) t (attach d name v) (fun _ w => w) h (.found d name i v mine false)
      fun _ g' => g' = if mine = true then .made d i v.block else .busy d := by
  intro fs G hi _ hg
  have hl := hi.loc t
  rw [hg] at hl
  obtain ⟨hno, ⟨x, j, hx, hent⟩, hv⟩ := hl
  have hfresh := hi.inv.fresh fs.next (Nat.le_refl _)
  have hlt : ∀ e y, fs.dentries e = some y → e ≠ fs.next := by
    rintro e y hy rfl
    rw [hfresh] at hy
    cases hy
  have hgoing : ∀ e, (shadow G).going e → e < fs.next := by
    rintro e ⟨u, hu⟩
    have hlu := hi.loc u
    cases hGu : G u with
    | unlinking d' e' o dirty =>
      rw [hGu] at hu hlu
      cases hu
      obtain ⟨-, ⟨y, hy⟩, -⟩ := hlu
      by_contra hge
      have := hi.inv.fresh e (by omega)
      rw [hy.1] at this
      cases this
    | _ => rw [hGu] at hu; cases hu
  have hx' : (fs.dAdd d name v).DirAt d x := by
    refine ⟨?_, hx.2⟩
    rw [Fs.dAdd_dentries, if_neg (hlt d x hx.1)]
    exact hx.1
  have hkeep : Keeps fs (fs.dAdd d name v) d fun _ => False := by
    refine ⟨?_, ?_, fun _ _ _ _ _ => rfl, fun _ _ _ => Or.inl rfl⟩
    · intro e y hy _ _
      rw [Fs.dAdd_dentries, if_neg (hlt e y hy)]
      exact hy
    · intro e y hy hpar
      rw [Fs.dAdd_dentries] at hy
      split at hy
      · cases hy
        exact absurd rfl hpar
      · exact ⟨y, hy, rfl, rfl, rfl⟩
  refine ⟨(), _, _, rfl, ?_, ?_, ?_, rfl⟩
  · cases mine <;> rfl
  · intro l hr
    cases mine <;> exact absurd hr (not_relies rfl l)
  · refine hi.advance (by rw [hg]; rfl) (by cases mine <;> rfl) ?_ ?_ hkeep ?_ ?_
    · rw [shadow_same (by rw [hg]; cases mine <;> rfl) (by rw [hg]; cases mine <;> rfl)
        (by rw [hg]; cases mine <;> rfl) (by rw [hg]; cases mine <;> rfl)]
      exact hi.inv.attach hx hno hent hv hgoing
    · cases mine with
      | false => exact ⟨x, hx'⟩
      | true => exact ⟨⟨_, x, j, hx', hent⟩, congrArg SfsInode.block hv⟩
    · intro k hk
      cases mine <;> cases hk
    · intro k hf
      exact hf.elim

/-! ## 4. Creating -/

/-- Blocks 2 to 34 are all there are, so the bitmap always has a zero bit. -/
theorem StoreInv.exists_dead {dev : Device} {imap : BitVec 64} {pend : Nat → Prop}
    (hs : StoreInv dev imap pend) : ∃ i, i < 63 ∧ ¬ dev.Live i := by
  by_contra hall
  have hlive : ∀ i, i < 63 → dev.Live i := by
    intro i hi
    by_contra hl
    exact hall ⟨i, hi, hl⟩
  have hmaps : ∀ i ∈ Finset.range 63, (dev.slot i).block ∈ Finset.range 35 := by
    intro i hi
    have := (hs.block i (hlive i (Finset.mem_range.mp hi))).2
    exact Finset.mem_range.mpr (by omega)
  have hinj : Set.InjOn (fun i => (dev.slot i).block) (Finset.range 63) := by
    intro i hi j hj heq
    exact hs.block_inj i j (hlive i (by simpa using hi)) (hlive j (by simpa using hj)) heq
  have hcard := Finset.card_le_card_of_injOn _ hmaps hinj
  simp at hcard

theorem sect_pickInodeNumber {d : Nat} {name : Name} (hlock : h .childrenUpdate = true) :
    Sect (discipline T) t pickInodeNumber (fun k w => { w with ino := some k }) h (.ready d name)
      fun k g' => ∃ i, k = i + 1 ∧ g' = .chosen d name i := by
  intro fs G hi _ hg
  have hl := hi.loc t
  rw [hg] at hl
  obtain ⟨j, hj, hjl⟩ := hi.inv.store.exists_dead
  obtain ⟨k, hk⟩ := hi.inv.store.ffz_ne_none hj hjl
  obtain ⟨i, rfl, hi63, hil⟩ := hi.inv.store.ffz_some hk
  refine ⟨i + 1, fs, .chosen d name i, ?_, rfl, ?_, ?_, i, rfl, rfl⟩
  · simp only [pickInodeNumber, hk]
  · rintro l ⟨rfl, -⟩
    exact hlock
  · exact hi.stay (by rw [hg]; rfl) rfl (by rw [hg]; rfl) (by rw [hg]; rfl) (by rw [hg]; rfl)
      (by rw [hg]; rfl) ⟨hl, hi63, hil⟩

theorem takeFreeBlock_some {fs : Fs} {b : Nat} (hb : freeBlockScan fs.dev.freeBlocks = some b) :
    takeFreeBlock fs = .ok (some b,
      { fs with dev := fs.dev.setFreeBlocks (takeBlock fs.dev.freeBlocks b) }) := by
  simp only [takeFreeBlock, hb]

theorem takeFreeBlock_none {fs : Fs} (hb : freeBlockScan fs.dev.freeBlocks = none) :
    takeFreeBlock fs = .ok (none, fs) := by
  simp only [takeFreeBlock, hb]

/-- A block, or none: a create that gets none has nothing under way any more. -/
theorem sect_takeFreeBlock {d i : Nat} {name : Name} (hlock : h .childrenUpdate = true) :
    Sect (discipline T) t takeFreeBlock
      (fun r w => { w with ino := r.bind fun _ => w.ino, blk := r }) h (.chosen d name i)
      fun r g' => r = none ∧ g' = .busy d ∨
        ∃ b, r = some b ∧ b < 64 ∧ g' = .alloc d name i b := by
  intro fs G hi hexcl hg
  have hl := hi.loc t
  rw [hg] at hl
  obtain ⟨hr, hi63, hil⟩ := hl
  cases hscan : freeBlockScan fs.dev.freeBlocks with
  | none =>
    refine ⟨none, fs, .busy d, takeFreeBlock_none hscan, rfl,
      fun l hr => absurd hr (not_relies rfl l), ?_, Or.inl ⟨rfl, rfl⟩⟩
    obtain ⟨-, x, c, hx, -⟩ := hr
    exact hi.stay (by rw [hg]; rfl) rfl (by rw [hg]; rfl) (by rw [hg]; rfl) (by rw [hg]; rfl)
      (by rw [hg]; rfl) ⟨x, hx⟩
  | some b =>
    have hentry : ∀ j x, fs.dev.graph.dir x → (fs.dev.setFreeBlocks
        (takeBlock fs.dev.freeBlocks b)).entry x j = fs.dev.entry x j := by
      intro j x hx
      refine Device.entry_congr (by rw [Device.slot_setFreeBlocks]) fun _ => ?_
      have := (hi.inv.store.block x hx.1).1
      exact Device.record_setFreeBlocks _ _ j (by omega)
    have hkeep : Keeps fs { fs with dev := fs.dev.setFreeBlocks (takeBlock fs.dev.freeBlocks b) }
        d fun _ => False :=
      Keeps.of_dev rfl (fun p x hx j => hentry j x.slot (hi.inv.dir hx).1)
        fun _ _ _ => Device.slot_setFreeBlocks _ _ _
    refine ⟨some b, _, .alloc d name i b, takeFreeBlock_some hscan, rfl, ?_, ?_,
      Or.inr ⟨b, rfl, (freeBlockScan_some hscan).2.1, rfl⟩⟩
    · rintro l ⟨rfl, -⟩
      exact hlock
    · refine hi.advance (by rw [hg]; rfl) rfl ?_ ?_ hkeep ?_ ?_
      · rw [shadow_pend (by rw [hg]; rfl) (by rw [hg]; rfl) (by rw [hg]; rfl)]
        refine hi.inv.takeFreeBlock hscan fun c hc => ?_
        rw [holds_gain (y := b) (by rw [hg]; rfl) rfl] at hc
        exact hc.symm
      · obtain ⟨hno, x, c, hx, hc, hfree, hnew⟩ := hr
        refine ⟨⟨hno, x, c, hx, hc, hfree, fun j k => ?_⟩, hi63, fun hl => hil ?_⟩
        · rw [hentry j x.slot (hi.inv.dir hx).1]
          exact hnew j k
        · exact (Device.live_congr (Device.slot_setFreeBlocks _ _ _)).mp hl
      · intro k hk
        cases hk
      · intro k hf
        exact hf.elim

theorem addInode_eq {fs : Fs} {i : Nat} {v : SfsInode} (hi : i < 63) (hno : v.inodeNo = inoOf i) :
    addInode v fs =
      .ok ((), { fs with dev := fs.dev.addAt i v, imap := setBit fs.imap (i + 1) }) := by
  have h1 : slotAt v.inodeNo = i := by rw [hno, slotAt_inoOf (by omega)]
  have h2 : v.inodeNo.toNat = i + 1 := by rw [hno, toNat_inoOf (by omega)]
  unfold addInode
  rw [h1, h2, if_pos (show i < 128 by omega), if_pos (by omega), Device.addAt]
  simp only [Device.inodesCount_setSlot]

/-- The inode goes into the store.  No other create has picked the slot: picking relies on the
lock. -/
theorem sect_addInode {d i b : Nat} {name : Name} {v : SfsInode}
    (hno : v.inodeNo = inoOf i) (hb : v.block = b)
    (hm : isDir v.mode = true ∨ isReg v.mode = true) :
    Sect (discipline T) t (addInode v) (fun _ w => { w with added := true }) h (.alloc d name i b)
      fun _ g' => g' = .added d name i v := by
  intro fs G hi hexcl hg
  have hl := hi.loc t
  rw [hg] at hl
  obtain ⟨⟨hnc, x, c, hx, hc, hfree, hnew⟩, hi63, hil⟩ := hl
  have hv0 : v.inodeNo ≠ 0#64 := by rw [hno]; exact inoOf_ne_zero (by omega)
  have honly : ∀ u, u ≠ t → (G u).pick = none := by
    intro u hut
    by_contra hp
    exact hut (hexcl u t .childrenUpdate ⟨rfl, hp⟩ ⟨rfl, by rw [hg]; exact Option.some_ne_none i⟩)
  have hentry : ∀ k j, fs.dev.graph.dir k → (fs.dev.addAt i v).entry k j = fs.dev.entry k j := by
    intro k j hk
    have hki : k ≠ i := by rintro rfl; exact hil hk.1
    refine Device.entry_congr (by rw [Device.slot_addAt, if_neg hki]) fun _ => ?_
    exact Device.record_addAt _ _ j (by omega) (hi.inv.store.block k hk.1).1
  have hkeep : Keeps fs { fs with dev := fs.dev.addAt i v, imap := setBit fs.imap (i + 1) } d
      fun k => k = i :=
    Keeps.of_dev rfl (fun p z hz j => hentry z.slot j (hi.inv.dir hz).1) fun k _ hki => by
      rw [Device.slot_addAt, if_neg hki]
  have hpend : ∀ u c, (G u).pend = some c → u = t := by
    intro u c hu
    by_contra hut
    exact Phase.pick_of_pend hu (honly u hut)
  refine ⟨(), _, .added d name i v, addInode_eq hi63 hno, ?_,
    fun l hr => absurd hr (not_relies rfl l), ?_, rfl⟩
  · subst hb
    rfl
  · refine hi.advance (by rw [hg]; rfl) rfl ?_ ?_ hkeep ?_ ?_
    · have hsh : shadow (Function.update G t (.added d name i v)) = { shadow G with
          pend := holds Phase.pend (Function.update G t (.added d name i v))
          orphan := holds Phase.orphan (Function.update G t (.added d name i v)) } := by
        rw [shadow_pend_orphan (by rw [hg]; rfl) (by rw [hg]; rfl)]
      rw [hsh]
      refine hi.inv.add hi63 hil hno hm ⟨t, by rw [hg, hb]; rfl⟩ ?_ ?_
      · intro c hc
        rwa [holds_lose (y := v.block) (by rw [hg, hb]; rfl) rfl fun u hu => hpend u _ hu] at hc
      · intro k
        exact holds_gain (by rw [hg]; rfl) rfl
    · refine ⟨⟨hnc, x, c, hx, hc, hfree, fun j k => ?_⟩, ?_, ?_⟩
      · rw [hentry x.slot j (hi.inv.dir hx).1]
        exact hnew j k
      · exact (Device.live_addAt _ (by omega) hv0 i).mpr (Or.inl rfl)
      · rw [Device.slot_addAt, if_pos rfl]
    · intro k hk
      cases hk
      exact Or.inr fun hor => hil (hi.inv.tree.wf.orphan_live _ hor).1
    · rintro k rfl
      refine ⟨Or.inr hil, fun u hut => ⟨fun hor => ?_, ?_⟩⟩
      · exact hil (hi.inv.tree.wf.orphan_live _ ⟨u, hor⟩).1
      · rw [honly u hut]
        exact fun h => by cases h

/-- The record: the inode has its name. -/
theorem sect_addRecord {d i : Nat} {name : Name} {v : SfsInode}
    (hn : name.bytes.length ≤ 255) :
    Sect (discipline T) t (addRecord d name (inoOf i)) (fun _ w => w) h (.added d name i v)
      fun _ g' => g' = .found d name i v true false := by
  intro fs G hi _ hg
  have hl := hi.loc t
  rw [hg] at hl
  obtain ⟨⟨hnc, x, c, hx, hc, hfree, hnew⟩, hil, hv⟩ := hl
  have hor : ∀ n, holds Phase.orphan (Function.update G t (.found d name i v true false)) n ↔
      holds Phase.orphan G n ∧ n ≠ i := fun n =>
    holds_lose (by rw [hg]; rfl) rfl fun u hu => hi.orphans u t i hu (by rw [hg]; rfl)
  obtain ⟨j, dev', c', hj, hrun, hslot, hent, hrec, hinv⟩ :=
    hi.inv.addRecord hx hc hfree hn ⟨t, by rw [hg]; rfl⟩ hnew hor
  have hx' : ({ fs with dev := dev' }.setDentry d { x with fsdata := some c' }).DirAt d
      { x with fsdata := some c' } := by
    refine ⟨?_, hx.2⟩
    rw [Fs.setDentry_dentries, if_pos rfl]
  have hkeep : Keeps fs ({ fs with dev := dev' }.setDentry d { x with fsdata := some c' }) d
      fun _ => False := by
    refine Keeps.of_dentry { x with fsdata := some c' } hx.1 rfl rfl rfl
      (Fs.setDentry_dentries _ d _) ?_ hslot
    intro p z hz hp k
    obtain ⟨hzd, hzb⟩ := hi.inv.dir hz
    refine Device.entry_congr (by rw [Fs.setDentry_dev, hslot _ hzd.1.lt]) fun hk => ?_
    rw [hzb]
    exact hrec _ k hk fun hbk => hi.inv.block_ne hx hz hp hbk.1
  refine ⟨(), _, .found d name i v true false, hrun, rfl,
    fun l hr => absurd hr (not_relies rfl l), ?_, rfl⟩
  refine hi.advance (by rw [hg]; rfl) rfl ?_ ?_ hkeep ?_ ?_
  · rw [shadow_orphan (by rw [hg]; rfl) (by rw [hg]; rfl) (by rw [hg]; rfl)]
    exact hinv
  · exact ⟨hnc.setDentry hx.1 rfl rfl rfl, ⟨_, j, hx', hent⟩, (hslot i hil.lt).trans hv⟩
  · intro k hk
    cases hk
  · intro k hf
    exact hf.elim

theorem countChild_eq {fs : Fs} {d : Nat} {x : Dentry} (hx : fs.dentries d = some x) :
    countChild d fs = .ok ((), fs.setDentry d
      { x with inode := { x.inode with fileSize := x.inode.fileSize + 1 } }) := by
  simp only [countChild, Fs.dentry_of_eq hx, bind, Except.bind, pure, Except.pure]

/-- The child is counted, in memory. -/
theorem sect_countChild {d i : Nat} {name : Name} {v : SfsInode} :
    Sect (discipline T) t (countChild d) (fun _ w => w) h (.found d name i v true false)
      fun _ g' => g' = .found d name i v true true := by
  intro fs G hi _ hg
  have hl := hi.loc t
  rw [hg] at hl
  obtain ⟨hnc, ⟨x, j, hx, hent⟩, hv⟩ := hl
  obtain ⟨x', hx'⟩ : ∃ x', x' =
      { x with inode := { x.inode with fileSize := x.inode.fileSize + 1 } } := ⟨_, rfl⟩
  have hrun := countChild_eq hx.1
  rw [← hx'] at hrun
  have hsame : x'.inode.Same x.inode := by rw [hx']; exact ⟨rfl, rfl, rfl⟩
  have hdir : (fs.setDentry d x').DirAt d x' := by
    refine ⟨?_, ?_, ?_⟩
    · rw [Fs.setDentry_dentries, if_pos rfl]
    · rw [hx']; exact hx.2.1
    · rw [hsame.mode]; exact hx.2.2
  have hkeep : Keeps fs (fs.setDentry d x') d fun _ => False :=
    Keeps.of_dentry x' hx.1 (by rw [hx']) (by rw [hx']) (by rw [hx'])
      (Fs.setDentry_dentries fs d _) (fun _ _ _ _ _ => rfl) fun _ _ => rfl
  have hslot : x'.slot = x.slot := by rw [Dentry.slot, hsame.inodeNo, Dentry.slot]
  refine ⟨(), _, .found d name i v true true, hrun, rfl,
    fun l hr => absurd hr (not_relies rfl l), ?_, rfl⟩
  refine hi.advance (by rw [hg]; rfl) rfl ?_ ?_ hkeep ?_ ?_
  · rw [shadow_dirty (by rw [hg]; rfl) (by rw [hg]; rfl) (by rw [hg]; rfl)]
    have hgain : ∀ e, holds Phase.dirty (Function.update G t (.found d name i v true true)) e ↔
        e = d ∨ holds Phase.dirty G e := fun e => holds_gain (by rw [hg]; rfl) rfl
    refine hi.inv.setDentry hx.1 (by rw [hx']) (by rw [hx']) (by rw [hx']) hsame ?_ ?_ ?_
    · intro e _ he
      exact (hgain e).mpr (Or.inr he)
    · intro hnd
      exact absurd ((hgain d).mpr (Or.inl rfl)) hnd
    · intro c hc
      rw [hx'] at hc
      exact hi.inv.cache d x c hx.1 hc
  · exact ⟨hnc.setDentry hx.1 (by rw [hx']) (by rw [hx']) (by rw [hx']),
      ⟨x', j, hdir, by rw [hslot]; exact hent⟩, hv⟩
  · intro k hk
    cases hk
  · intro k hf
    exact hf.elim

/-! ## 5. Saving the directory's inode -/

/-- Where every live slot holds its own number, that of a live inode is found in its slot. -/
theorem firstSlot_live {dev : Device} (hno : ∀ k, dev.Live k → (dev.slot k).inodeNo = inoOf k)
    {i : Nat} (hi : dev.Live i) : FirstSlot dev.slot (inoOf i) i := by
  refine ⟨hi.lt, hno i hi, fun k hk hn => ?_⟩
  have hlt : k < slotsPerBlock := Nat.lt_trans hk hi.lt
  have hkl : dev.Live k := ⟨hlt, by rw [hn]; exact inoOf_ne_zero hi.lt⟩
  have hki : k = i := inoOf_inj hlt hi.lt ((hno k hkl).symm.trans hn)
  exact absurd hki (Nat.ne_of_lt hk)

/-- And that of a dead one nowhere. -/
theorem absent_of_dead {dev : Device} (hno : ∀ k, dev.Live k → (dev.slot k).inodeNo = inoOf k)
    {i : Nat} (hi : i < slotsPerBlock) (hdead : ¬ dev.Live i) :
    ∀ k, k < slotsPerBlock → (dev.slot k).inodeNo ≠ inoOf i := by
  intro k hk hn
  have hkl : dev.Live k := ⟨hk, by rw [hn]; exact inoOf_ne_zero hi⟩
  have hki : k = i := inoOf_inj hk hi ((hno k hkl).symm.trans hn)
  exact hdead (hki ▸ hkl)

/-- `simplefs_inode_save` of a current dentry's inode finds its slot. -/
theorem FsInv.saveInode_eq {fs : Fs} {S : Shadow} {d : Nat} {x : Dentry} (hi : FsInv fs S)
    (hx : fs.Current S d x) :
    saveInode d fs = .ok (true, { fs with dev := fs.dev.setSlot x.slot x.inode }) := by
  obtain ⟨hl, -, -⟩ := hi.live d x hx
  have hfirst := firstSlot_live (fun k hk => (hi.store.slots k hk).1) hl
  rw [← hi.inodeNo_eq hx] at hfirst
  exact saveInode_found hx.1 hfirst

/-- The directory's count is saved; the next phase must not depend on the directory's slot. -/
theorem sect_saveInode {d : Nat} {g g' : Phase} (hgd : g.dir = some d) (hgd' : g'.dir = some d)
    (hpend : g'.pend = g.pend) (horph : g'.orphan = g.orphan) (hgoing : g'.going = g.going)
    (hpick : g'.pick = none) (hview : g'.view = g.view) (hdirty : g.dirty = some d)
    (hclean : g'.dirty = none)
    (hloc : ∀ fs S x, FsInv fs S → fs.DirAt d x → (∀ i, g.orphan = some i → S.orphan i) →
      Local fs g → Local { fs with dev := fs.dev.setSlot x.slot x.inode } g') :
    Sect (discipline T) t (saveInode d) (fun _ w => w) h g fun r u => r = true ∧ u = g' := by
  intro fs G hi _ hg
  have hl := hi.loc t
  rw [hg] at hl
  obtain ⟨x, hx⟩ := hl.dirAt hgd
  have hcur := hi.inv.current_of_dirAt hx
  obtain ⟨hxl, -, hs⟩ := hi.inv.live d x hcur
  have hsame : ∀ k, ((fs.dev.setSlot x.slot x.inode).slot k).Same (fs.dev.slot k) := by
    intro k
    rw [Device.slot_setSlot]
    split
    · rename_i hk
      rw [hk]
      exact hs
    · exact .refl _
  have hkeep : Keeps fs { fs with dev := fs.dev.setSlot x.slot x.inode } d fun _ => False := by
    refine ⟨fun _ _ hy _ _ => hy, fun _ y hy _ => ⟨y, hy, rfl, rfl, rfl⟩, ?_, ?_⟩
    · intro p z hz _ j
      refine Device.entry_congr (hsame z.slot).block fun _ => ?_
      exact Device.record_setSlot _ _ j hxl.lt (hi.inv.store.block _ (hi.inv.dir hz).1.1).1
    · intro k _ _
      by_cases hk : x.slot = k
      · exact Or.inr ⟨⟨x, hx.1, hk⟩, hsame k⟩
      · refine Or.inl ?_
        rw [Device.slot_setSlot, if_neg (Ne.symm hk)]
  refine ⟨true, _, g', hi.inv.saveInode_eq hcur, hview,
    fun l hr => absurd hr (not_relies hpick l), ?_, rfl, rfl⟩
  refine hi.advance (by rw [hg]; exact hgd) hgd' ?_ ?_ hkeep ?_ ?_
  · rw [shadow_dirty (by rw [hg]; exact hpend) (by rw [hg]; exact horph) (by rw [hg]; exact hgoing)]
    refine hi.inv.save hcur fun e hed he => ?_
    have huniq : ∀ u, (G u).dirty = some d → u = t := fun u hu =>
      hi.dirs u t d (Phase.dirty_dir hu) (by rw [hg]; exact hgd)
    exact (holds_lose (by rw [hg]; exact hdirty) hclean huniq).mpr ⟨he, hed⟩
  · exact hloc fs _ x hi.inv hx (fun i hio => ⟨t, by rw [hg]; exact hio⟩) hl
  · intro k hk
    exact Or.inl (by rw [hg, ← horph]; exact hk)
  · intro k hf
    exact hf.elim

/-- Saving directory `d` changes no other slot, and no name. -/
theorem Fs.Named.save {fs : Fs} {S : Shadow} (hi : FsInv fs S) {d i : Nat} {x : Dentry}
    {l : List UInt8} (hx : fs.DirAt d x) (hn : fs.Named d l i) :
    Fs.Named { fs with dev := fs.dev.setSlot x.slot x.inode } d l i := by
  obtain ⟨z, j, hz, hent⟩ := hn
  cases hx.1.symm.trans hz.1
  obtain ⟨hxl, -, hs⟩ := hi.live d x (hi.current_of_dirAt hx)
  refine ⟨x, j, hx, ?_⟩
  rw [← hent]
  refine Device.entry_congr ?_ fun _ => ?_
  · rw [Device.slot_setSlot, if_pos rfl, hs.block]
  · exact Device.record_setSlot _ _ j hxl.lt (hi.store.block _ hxl).1

theorem sect_saveInode_found {d i : Nat} {name : Name} {v : SfsInode} :
    Sect (discipline T) t (saveInode d) (fun _ w => w) h (.found d name i v true true)
      fun r u => r = true ∧ u = .found d name i v true false := by
  refine sect_saveInode rfl rfl rfl rfl rfl rfl rfl rfl rfl ?_
  rintro fs S x hi hx - ⟨hnc, hn, hv⟩
  refine ⟨hnc, hn.save hi hx, ?_⟩
  have hne : i ≠ x.slot := by
    rintro rfl
    obtain ⟨z, j, hz, hent⟩ := hn
    obtain ⟨hd0, hpar, hname⟩ := hi.child_of_entry hz hent (hi.current_of_dirAt hx) rfl
    exact hnc d x hd0 hx.1 hx.2.1 hpar (Name.ext hname)
  rw [Device.slot_setSlot, if_neg hne]
  exact hv

theorem sect_saveInode_unlinking {d e i : Nat} :
    Sect (discipline T) t (saveInode d) (fun _ w => w) h (.unlinking d e (some i) true)
      fun r u => r = true ∧ u = .unlinking d e (some i) false := by
  refine sect_saveInode rfl rfl rfl rfl rfl rfl rfl rfl rfl ?_
  rintro fs S x hi hx ho ⟨-, hy, hil⟩
  have hcur := hi.current_of_dirAt hx
  obtain ⟨hxl, hxo, hs⟩ := hi.live d x hcur
  refine ⟨⟨x, hx⟩, hy, fun k hk => ?_⟩
  obtain ⟨hkl, hkf⟩ := hil k hk
  have hne : k ≠ x.slot := by
    rintro rfl
    exact hxo (ho _ hk)
  simp only [Device.slot_setSlot, if_neg hne]
  exact ⟨(Device.live_setSlot _ hs.inodeNo k).mpr hkl, hkf⟩

/-! ## 6. Unlinking -/

/-- The record is gone. -/
theorem sect_removeRecord {d e : Nat} :
    Sect (discipline T) t (removeRecord e) (fun _ w => w) h (.leaving d e)
      fun r g' => ∃ i, r = (d, inoOf i) ∧ i < 63 ∧ g' = .unlinking d e (some i) true := by
  intro fs G hi _ hg
  have hl := hi.loc t
  rw [hg] at hl
  obtain ⟨he, ⟨x, c, hx, hc⟩, y, hy, hyl, rfl, hf⟩ := hl
  -- no other thread is unlinking the file: it would work in the same directory
  have hng : ¬ (shadow G).going e := by
    rintro ⟨u, hu⟩
    have hlu := hi.loc u
    cases hGu : G u with
    | unlinking d' e' o dirty =>
      rw [hGu] at hu hlu
      cases hu
      obtain ⟨-, ⟨z, hz, -, hzp, -⟩, -⟩ := hlu
      cases hy.symm.trans hz
      have hut := hi.dirs u t y.parent (by rw [hGu, hzp]; rfl) (by rw [hg]; rfl)
      rw [hut, hg] at hGu
      cases hGu
    | _ => rw [hGu] at hu; cases hu
  have hcur : fs.Current (shadow G) e y := ⟨hy, hyl, hng⟩
  obtain ⟨hyl', hyo, hys⟩ := hi.inv.live e y hcur
  obtain ⟨g', hg'⟩ : ∃ g', g' = Phase.unlinking y.parent e (some y.slot) true := ⟨_, rfl⟩
  have ho : ∀ n, holds Phase.orphan (Function.update G t g') n ↔
      n = y.slot ∨ holds Phase.orphan G n := fun n =>
    holds_gain (by rw [hg]; rfl) (by rw [hg']; rfl)
  have hd : ∀ n, holds Phase.dirty (Function.update G t g') n ↔
      n = y.parent ∨ holds Phase.dirty G n := fun n =>
    holds_gain (by rw [hg]; rfl) (by rw [hg']; rfl)
  have hgo : ∀ n, holds Phase.going (Function.update G t g') n ↔
      n = e ∨ holds Phase.going G n := fun n =>
    holds_gain (by rw [hg]; rfl) (by rw [hg']; rfl)
  obtain ⟨j, dev', x', hj, hrun, hp, hn, hli, hsame, -, hslot, hrec, hinv⟩ :=
    hi.inv.removeRecord hcur he hf hx hc ho ((hd _).mpr (Or.inl rfl))
      (fun n hn => (hd n).mpr (Or.inr hn)) hgo
  rw [hi.inv.inodeNo_eq hcur] at hrun
  have hkeep : Keeps fs ({ fs with dev := dev' }.setDentry y.parent x') y.parent
      fun _ => False := by
    refine Keeps.of_dentry x' hx.1 hp hn hli (Fs.setDentry_dentries _ _ _) ?_ hslot
    intro p z hz hpne k
    obtain ⟨hzd, hzb⟩ := hi.inv.dir hz
    refine Device.entry_congr (by rw [Fs.setDentry_dev, hslot _ hzd.1.lt]) fun hk => ?_
    rw [hzb]
    exact hrec _ k hk fun hbk => hi.inv.block_ne hx hz hpne hbk.1
  refine ⟨_, _, g', hrun, by rw [hg']; rfl, fun l hr => absurd hr (not_relies (by rw [hg']; rfl) l),
    ?_, y.slot, rfl, (hi.inv.store.slots _ hyl').2, hg'⟩
  refine hi.advance (by rw [hg]; rfl) (by rw [hg']; rfl) ?_ ?_ hkeep ?_ ?_
  · have hsh : shadow (Function.update G t g') = { shadow G with
        orphan := holds Phase.orphan (Function.update G t g')
        dirty := holds Phase.dirty (Function.update G t g')
        going := holds Phase.going (Function.update G t g') } := by
      simp only [shadow, holds_same (show g'.pend = (G t).pend by rw [hg', hg]; rfl)]
    rw [hsh]
    exact hinv
  · rw [hg']
    have hep : e ≠ y.parent := by
      intro heq
      rw [heq] at hy
      have hm := hx.2.2
      rw [Option.some.inj (hx.1.symm.trans hy), hf] at hm
      cases hm
    refine ⟨⟨x', ?_, ?_, ?_⟩, ⟨y, ?_, hyl, rfl, hf⟩, ?_⟩
    · rw [Fs.setDentry_dentries, if_pos rfl]
    · exact hli.trans hx.2.1
    · rw [hsame.mode]; exact hx.2.2
    · rw [Fs.setDentry_dentries, if_neg hep]
      exact hy
    · intro k hk
      cases hk
      rw [Fs.setDentry_dev, hslot _ hyl'.lt, ← hys.mode]
      exact ⟨(Device.live_congr (hslot _ hyl'.lt)).mpr hyl', hf⟩
  · intro k hk
    rw [hg'] at hk
    cases hk
    exact Or.inr hyo
  · intro k hfa
    exact hfa.elim

theorem delInode_eq {fs : Fs} {i : Nat} (hi : i < 63) : delInode (inoOf i) fs =
    .ok ((), { fs with dev := fs.dev.delAt i, imap := clearBit fs.imap (i + 1) }) := by
  unfold delInode
  rw [slotAt_inoOf (by omega), toNat_inoOf (by omega), if_pos (show i < 128 by omega),
    if_pos (by omega), Device.delAt]
  simp only [Device.inodesCount_clearSlot]

/-- The inode is gone. -/
theorem sect_delInode {d e i : Nat} (hi63 : i < 63) :
    Sect (discipline T) t (delInode (inoOf i)) (fun _ w => w) h (.unlinking d e (some i) false)
      fun _ g' => g' = .unlinking d e none false := by
  intro fs G hi _ hg
  have hl := hi.loc t
  rw [hg] at hl
  obtain ⟨⟨x, hx⟩, hy, hil⟩ := hl
  obtain ⟨hl, hf⟩ := hil i rfl
  have hor : (shadow G).orphan i := ⟨t, by rw [hg]; rfl⟩
  have hentry : ∀ k j, fs.dev.graph.dir k → (fs.dev.delAt i).entry k j = fs.dev.entry k j := by
    intro k j hk
    have hki : k ≠ i := by
      rintro rfl
      have hm := hk.2
      rw [hf] at hm
      cases hm
    refine Device.entry_congr (by rw [Device.slot_delAt, if_neg hki]) fun _ => ?_
    exact Device.record_delAt _ j hl.lt (hi.inv.store.block k hk.1).1
  have hkeep : Keeps fs { fs with dev := fs.dev.delAt i, imap := clearBit fs.imap (i + 1) } d
      fun k => k = i :=
    Keeps.of_dev rfl (fun p z hz j => hentry z.slot j (hi.inv.dir hz).1) fun k _ hki => by
      rw [Device.slot_delAt, if_neg hki]
  refine ⟨(), _, .unlinking d e none false, delInode_eq hi63, rfl,
    fun l hr => absurd hr (not_relies rfl l), ?_, rfl⟩
  refine hi.advance (by rw [hg]; rfl) rfl ?_ ?_ hkeep ?_ ?_
  · rw [shadow_orphan (by rw [hg]; rfl) (by rw [hg]; rfl) (by rw [hg]; rfl)]
    refine hi.inv.del hor hf fun k => ?_
    exact holds_lose (by rw [hg]; rfl) rfl fun u hu => hi.orphans u t i hu (by rw [hg]; rfl)
  · refine ⟨⟨x, hx⟩, hy, fun k hk => ?_⟩
    cases hk
  · intro k hk
    cases hk
  · rintro k rfl
    refine ⟨Or.inl hor, fun u hut => ⟨fun hu => ?_, fun hu => ?_⟩⟩
    · exact hut (hi.orphans u t k hu (by rw [hg]; rfl))
    · -- a slot that another create has picked is empty
      have hlu := hi.loc u
      cases hGu : G u with
      | chosen d' name k' =>
        rw [hGu] at hu hlu
        cases hu
        exact hlu.2.2 hl
      | alloc d' name k' b =>
        rw [hGu] at hu hlu
        cases hu
        exact hlu.2.2 hl
      | _ => rw [hGu] at hu; cases hu

theorem dDelete_eq {fs : Fs} {e : Nat} {y : Dentry} (hy : fs.dentries e = some y) :
    dDelete e fs = .ok ((), fs.setDentry e { y with linked := false }) := by
  simp only [dDelete, Fs.dentry_of_eq hy, bind, Except.bind, pure, Except.pure]

/-- The dentry is unhashed. -/
theorem sect_dDelete {d e : Nat} :
    Sect (discipline T) t (dDelete e) (fun _ w => w) h (.unlinking d e none false)
      fun _ g' => g' = .busy d := by
  intro fs G hi _ hg
  have hl := hi.loc t
  rw [hg] at hl
  obtain ⟨⟨x, hx⟩, ⟨y, hy, hyl, hpar, hf⟩, -⟩ := hl
  have hed : e ≠ d := by
    rintro rfl
    have hm := hx.2.2
    rw [Option.some.inj (hx.1.symm.trans hy), hf] at hm
    cases hm
  have huniq : ∀ u, (G u).going = some e → u = t := by
    intro u hu
    have hlu := hi.loc u
    cases hGu : G u with
    | unlinking d' e' o dirty =>
      rw [hGu] at hu hlu
      cases hu
      obtain ⟨-, ⟨z, hz, -, hzp, -⟩, -⟩ := hlu
      cases hy.symm.trans hz
      exact hi.dirs u t d (by rw [hGu, ← hpar, hzp]; rfl) (by rw [hg]; rfl)
    | _ => rw [hGu] at hu; cases hu
  have hkeep : Keeps fs (fs.setDentry e { y with linked := false }) d fun _ => False := by
    refine ⟨?_, ?_, fun _ _ _ _ _ => rfl, fun _ _ _ => Or.inl rfl⟩
    · intro e' z hz _ hdir
      rw [Fs.setDentry_dentries, if_neg]
      · exact hz
      · rintro rfl
        cases hy.symm.trans hz
        rw [hdir hpar] at hf
        cases hf
    · intro e' z hz hzp
      rw [Fs.setDentry_dentries] at hz
      split at hz
      · cases hz
        exact absurd hpar hzp
      · exact ⟨z, hz, rfl, rfl, rfl⟩
  refine ⟨(), _, .busy d, dDelete_eq hy, rfl, fun l hr => absurd hr (not_relies rfl l), ?_, rfl⟩
  refine hi.advance (by rw [hg]; rfl) rfl ?_ ?_ hkeep ?_ ?_
  · rw [shadow_going (by rw [hg]; rfl) (by rw [hg]; rfl) (by rw [hg]; rfl)]
    exact hi.inv.unhash hy ⟨t, by rw [hg]; rfl⟩ fun k => holds_lose (by rw [hg]; rfl) rfl huniq
  · refine ⟨x, ?_, hx.2⟩
    rw [Fs.setDentry_dentries, if_neg (Ne.symm hed)]
    exact hx.1
  · intro k hk
    cases hk
  · intro k hf'
    exact hf'.elim

end Simplefs
