/-
# Operations in progress

Where a running operation stands, as a ghost value (`Phase`): what it has taken and not handed
over yet, and what it relies on.  `Local` is what holds of the state at each point, `Inv` puts
the points of all threads together, and `Inv.advance` is the one place where a step of one
thread meets the others: it asks for the invariant of the new state, for the thread's own next
point, and for a description of what the step left alone (`Keeps`).

Two running operations never work in the same directory, which is the VFS's promise.
-/
import Simplefs.Inv

namespace Simplefs

/-! ## 1. Phases -/

/-- The point a thread has reached.  `d` is the directory it works in. -/
inductive Phase where
  | idle
  /-- Nothing is under way, or no longer. -/
  | busy (d : Nat)
  /-- A lookup of `name`, before the cache is searched. -/
  | looking (d : Nat) (name : Name)
  /-- An unlink of dentry `e` that has not begun. -/
  | leaving (d e : Nat)
  /-- A create of `name`, before it picks an inode number. -/
  | ready (d : Nat) (name : Name)
  /-- It has picked slot `i`, and has no block yet. -/
  | chosen (d : Nat) (name : Name) (i : Nat)
  /-- It has taken block `b`. -/
  | alloc (d : Nat) (name : Name) (i b : Nat)
  /-- The inode `v` is in slot `i`, and no record names it. -/
  | added (d : Nat) (name : Name) (i : Nat) (v : SfsInode)
  /-- A record names the inode `v` of slot `i`, and no dentry stands for it.  A lookup gets here
  too; `mine` is for a create.  `dirty`: the directory's count is not saved. -/
  | found (d : Nat) (name : Name) (i : Nat) (v : SfsInode) (mine dirty : Bool)
  /-- A create is done: slot `i` with block `b` has its dentry. -/
  | made (d i b : Nat)
  /-- The record of dentry `e` is gone; `o` is its slot while the inode is still there. -/
  | unlinking (d e : Nat) (o : Option Nat) (dirty : Bool)

namespace Phase

/-- The directory. -/
def dir : Phase → Option Nat
  | idle => none
  | busy d | looking d _ | leaving d _ | ready d _ | chosen d _ _ | alloc d _ _ _
  | added d _ _ _ | found d _ _ _ _ _ | made d _ _ | unlinking d _ _ _ => some d

/-- The slot that has been picked and is still empty. -/
def pick : Phase → Option Nat
  | chosen _ _ i | alloc _ _ i _ => some i
  | _ => none

/-- The block that has been taken and is in no slot yet. -/
def pend : Phase → Option Nat
  | alloc _ _ _ b => some b
  | _ => none

/-- The live inode that no record names. -/
def orphan : Phase → Option Nat
  | added _ _ i _ => some i
  | unlinking _ _ o _ => o
  | _ => none

/-- The directory whose count is not saved. -/
def dirty : Phase → Option Nat
  | found d _ _ _ _ true => some d
  | unlinking d _ _ true => some d
  | _ => none

/-- The dentry whose file is being unlinked. -/
def going : Phase → Option Nat
  | unlinking _ e _ _ => some e
  | _ => none

/-- What the thread publishes. -/
def view : Phase → Progress
  | idle => .start 0
  | busy d | looking d _ | leaving d _ | ready d _ | unlinking d _ _ _ => .start d
  | chosen d _ i => ⟨d, some (i + 1), none, false⟩
  | alloc d _ i b => ⟨d, some (i + 1), some b, false⟩
  | added d _ i v => ⟨d, some (i + 1), some v.block, true⟩
  | found d _ i v true _ => ⟨d, some (i + 1), some v.block, true⟩
  | found d _ _ _ false _ => .start d
  | made d i b => ⟨d, some (i + 1), some b, true⟩

theorem view_dir {g : Phase} {d : Nat} (h : g.dir = some d) : g.view.dir = d := by
  cases g with
  | idle => cases h
  | found d name i v mine dirty => cases mine <;> exact Option.some.inj h
  | _ => exact Option.some.inj h

theorem pick_of_pend {g : Phase} {b : Nat} (h : g.pend = some b) : g.pick ≠ none := by
  cases g with
  | alloc d name i c => exact Option.some_ne_none i
  | _ => cases h

theorem dirty_dir {g : Phase} {d : Nat} (h : g.dirty = some d) : g.dir = some d := by
  cases g with
  | found d name i v mine dirty => cases dirty <;> first | exact h | cases h
  | unlinking d e o dirty => cases dirty <;> first | exact h | cases h
  | _ => cases h

end Phase

/-! ## 2. What holds at each point -/

/-- Directory `d` has a record for the inode of slot `i`, under the name `l`. -/
def Fs.Named (fs : Fs) (d : Nat) (l : List UInt8) (i : Nat) : Prop :=
  ∃ x j, fs.DirAt d x ∧ fs.dev.entry x.slot j = some (l, i)

/-- A record for `name` can be added to directory `d`. -/
def Fs.Ready (fs : Fs) (d : Nat) (name : Name) : Prop :=
  fs.NoChild d name ∧ ∃ x c, fs.DirAt d x ∧ x.fsdata = some c ∧ c.free ≠ [] ∧
    ∀ j k, fs.dev.entry x.slot j ≠ some (name.bytes, k)

/-- Dentry `e` is a linked file in directory `d`. -/
def Fs.FileAt (fs : Fs) (d e : Nat) (y : Dentry) : Prop :=
  fs.dentries e = some y ∧ y.linked = true ∧ y.parent = d ∧ isDir y.inode.mode = false

/-- What holds at each point. -/
def Local (fs : Fs) : Phase → Prop
  | .idle => True
  | .busy d => ∃ x, fs.DirAt d x
  | .looking d name => fs.NoChild d name ∧ ∃ x c, fs.DirAt d x ∧ x.fsdata = some c
  | .leaving d e => e ≠ 0 ∧ (∃ x c, fs.DirAt d x ∧ x.fsdata = some c) ∧ ∃ y, fs.FileAt d e y
  | .ready d name => fs.Ready d name
  | .chosen d name i => fs.Ready d name ∧ i < 63 ∧ ¬ fs.dev.Live i
  | .alloc d name i _ => fs.Ready d name ∧ i < 63 ∧ ¬ fs.dev.Live i
  | .added d name i v => fs.Ready d name ∧ fs.dev.Live i ∧ fs.dev.slot i = v
  | .found d name i v _ _ => fs.NoChild d name ∧ fs.Named d name.bytes i ∧ fs.dev.slot i = v
  | .made d i b => (∃ l, fs.Named d l i) ∧ (fs.dev.slot i).block = b
  | .unlinking d e o _ => (∃ x, fs.DirAt d x) ∧ (∃ y, fs.FileAt d e y) ∧
      ∀ i, o = some i → fs.dev.Live i ∧ isDir (fs.dev.slot i).mode = false

/-- A dentry that gets another size or another cache keeps its name. -/
theorem Fs.NoChild.setDentry {fs : Fs} {p d : Nat} {name : Name} {x x' : Dentry}
    (h : fs.NoChild p name) (hx : fs.dentries d = some x) (hp : x'.parent = x.parent)
    (hn : x'.name = x.name) (hl : x'.linked = x.linked) : (fs.setDentry d x').NoChild p name := by
  intro e y he hy hyl hpar
  rw [Fs.setDentry_dentries] at hy
  split at hy
  · rename_i hed
    cases hy
    rw [hn]
    exact h e x he (hed ▸ hx) (hl ▸ hyl) (hp ▸ hpar)
  · exact h e y he hy hyl hpar

/-- A thread that is not idle works in a linked directory. -/
theorem Local.dirAt {fs : Fs} {g : Phase} {d : Nat} (h : Local fs g) (hd : g.dir = some d) :
    ∃ x, fs.DirAt d x := by
  cases g with
  | idle => cases hd
  | busy e => cases hd; exact h
  | looking e name => cases hd; obtain ⟨-, x, c, hx, -⟩ := h; exact ⟨x, hx⟩
  | leaving e f => cases hd; obtain ⟨-, ⟨x, c, hx, -⟩, -⟩ := h; exact ⟨x, hx⟩
  | ready e name => cases hd; obtain ⟨-, x, c, hx, -⟩ := h; exact ⟨x, hx⟩
  | chosen e name i => cases hd; obtain ⟨⟨-, x, c, hx, -⟩, -⟩ := h; exact ⟨x, hx⟩
  | alloc e name i b => cases hd; obtain ⟨⟨-, x, c, hx, -⟩, -⟩ := h; exact ⟨x, hx⟩
  | added e name i v => cases hd; obtain ⟨⟨-, x, c, hx, -⟩, -⟩ := h; exact ⟨x, hx⟩
  | found e name i v mine dirty => cases hd; obtain ⟨-, ⟨x, j, hx, -⟩, -⟩ := h; exact ⟨x, hx⟩
  | made e i b => cases hd; obtain ⟨⟨l, x, j, hx, -⟩, -⟩ := h; exact ⟨x, hx⟩
  | unlinking e f o dirty => cases hd; exact h.1

/-! ## 3. All threads together -/

section Threads

variable {T : Type}

/-- Some thread's phase has `x` for `f`. -/
def holds (f : Phase → Option Nat) (G : T → Phase) (x : Nat) : Prop := ∃ t, f (G t) = some x

/-- The exceptions of all threads. -/
def shadow (G : T → Phase) : Shadow where
  pend := holds Phase.pend G
  orphan := holds Phase.orphan G
  dirty := holds Phase.dirty G
  going := holds Phase.going G

/-- **The invariant at every point of every schedule.** -/
structure Inv (fs : Fs) (G : T → Phase) : Prop where
  inv : FsInv fs (shadow G)
  loc : ∀ t, Local fs (G t)
  dirs : ∀ t u d, (G t).dir = some d → (G u).dir = some d → t = u
  orphans : ∀ t u i, (G t).orphan = some i → (G u).orphan = some i → t = u

theorem shadow_idle : shadow (fun _ : T => Phase.idle) = Shadow.none := by
  have hnone : ∀ (f : Phase → Option Nat), f .idle = none →
      holds f (fun _ : T => Phase.idle) = fun _ => False := by
    intro f hf
    funext x
    refine eq_false ?_
    rintro ⟨t, ht⟩
    rw [hf] at ht
    cases ht
  rw [shadow, hnone _ rfl, hnone _ rfl, hnone _ rfl, hnone _ rfl, Shadow.none]

/-- With no operation in progress it is the invariant of the filesystem. -/
theorem inv_idle_iff {fs : Fs} :
    Inv fs (fun _ : T => Phase.idle) ↔ FsInv fs Shadow.none := by
  constructor
  · intro h
    rw [← shadow_idle (T := T)]
    exact h.inv
  · intro h
    refine ⟨shadow_idle (T := T) ▸ h, fun _ => trivial, ?_, ?_⟩
    · intro t u d hd
      cases hd
    · intro t u i hi
      cases hi

variable [DecidableEq T] {f : Phase → Option Nat} {G : T → Phase} {t : T} {g : Phase} {x y : Nat}

theorem holds_update : holds f (Function.update G t g) x ↔
    f g = some x ∨ ∃ u, u ≠ t ∧ f (G u) = some x := by
  constructor
  · rintro ⟨u, hu⟩
    by_cases hut : u = t
    · subst hut
      rw [Function.update_self] at hu
      exact Or.inl hu
    · rw [Function.update_of_ne hut] at hu
      exact Or.inr ⟨u, hut, hu⟩
  · rintro (hg | ⟨u, hut, hu⟩)
    · exact ⟨t, by rw [Function.update_self]; exact hg⟩
    · exact ⟨u, by rw [Function.update_of_ne hut]; exact hu⟩

theorem holds_same (h : f g = f (G t)) : holds f (Function.update G t g) = holds f G := by
  funext x
  rw [eq_iff_iff, holds_update, h]
  constructor
  · rintro (hg | ⟨u, -, hu⟩)
    · exact ⟨t, hg⟩
    · exact ⟨u, hu⟩
  · rintro ⟨u, hu⟩
    by_cases hut : u = t
    · subst hut; exact Or.inl hu
    · exact Or.inr ⟨u, hut, hu⟩

theorem holds_gain (h0 : f (G t) = none) (h1 : f g = some y) :
    holds f (Function.update G t g) x ↔ x = y ∨ holds f G x := by
  rw [holds_update, h1, Option.some.injEq, eq_comm]
  refine or_congr_right ⟨fun hu => hu.imp fun u => And.right, ?_⟩
  rintro ⟨u, hu⟩
  refine ⟨u, ?_, hu⟩
  rintro rfl
  rw [h0] at hu
  cases hu

theorem holds_lose (h0 : f (G t) = some y) (h1 : f g = none)
    (huniq : ∀ u, f (G u) = some y → u = t) :
    holds f (Function.update G t g) x ↔ holds f G x ∧ x ≠ y := by
  rw [holds_update, h1]
  constructor
  · rintro (hg | ⟨u, hut, hu⟩)
    · cases hg
    · refine ⟨⟨u, hu⟩, ?_⟩
      rintro rfl
      exact hut (huniq u hu)
  · rintro ⟨⟨u, hu⟩, hxy⟩
    refine Or.inr ⟨u, ?_, hu⟩
    rintro rfl
    rw [h0] at hu
    exact hxy (Option.some.inj hu).symm

/-! ## 4. What a step leaves alone -/

/-- From `fs` to `fs'` a thread that works in directory `q` touched, besides `q` itself and the
files in it, only the slots `own`. -/
structure Keeps (fs fs' : Fs) (q : Nat) (own : Nat → Prop) : Prop where
  old : ∀ e y, fs.dentries e = some y → e ≠ q → (y.parent = q → isDir y.inode.mode = true) →
    fs'.dentries e = some y
  new : ∀ e y', fs'.dentries e = some y' → y'.parent ≠ q → ∃ y, fs.dentries e = some y ∧
    y.parent = y'.parent ∧ y.name = y'.name ∧ y.linked = y'.linked
  entry : ∀ p x, fs.DirAt p x → p ≠ q → ∀ j, fs'.dev.entry x.slot j = fs.dev.entry x.slot j
  slot : ∀ k, k < 128 → ¬ own k → fs'.dev.slot k = fs.dev.slot k ∨
    (∃ x, fs.dentries q = some x ∧ x.slot = k) ∧ (fs'.dev.slot k).Same (fs.dev.slot k)

namespace Keeps

variable {fs fs' : Fs} {q p : Nat} {own : Nat → Prop} {S : Shadow} {z : Dentry}

theorem dirAt (hk : Keeps fs fs' q own) {x : Dentry} (hx : fs.DirAt p x) (hp : p ≠ q) :
    fs'.DirAt p x := ⟨hk.old p x hx.1 hp fun _ => hx.2.2, hx.2⟩

theorem fileAt (hk : Keeps fs fs' q own) {e : Nat} {y : Dentry} (hy : fs.FileAt p e y)
    (hp : p ≠ q) (hz : fs.DirAt q z) : fs'.FileAt p e y := by
  obtain ⟨hye, hl, hpar, hf⟩ := hy
  refine ⟨hk.old e y hye ?_ fun h => absurd (hpar.symm.trans h) hp, hl, hpar, hf⟩
  rintro rfl
  have hm := hz.2.2
  rw [Option.some.inj (hz.1.symm.trans hye), hf] at hm
  cases hm

theorem noChild (hk : Keeps fs fs' q own) {name : Name} (h : fs.NoChild p name) (hp : p ≠ q) :
    fs'.NoChild p name := by
  intro e y' he hy' hl hpar
  obtain ⟨y, hy, h1, h2, h3⟩ := hk.new e y' hy' (by rw [hpar]; exact hp)
  rw [← h2]
  exact h e y he hy (h3.trans hl) (h1.trans hpar)

theorem named (hk : Keeps fs fs' q own) {l : List UInt8} {i : Nat} (h : fs.Named p l i)
    (hp : p ≠ q) : fs'.Named p l i := by
  obtain ⟨x, j, hx, hent⟩ := h
  exact ⟨x, j, hk.dirAt hx hp, by rw [hk.entry p x hx hp]; exact hent⟩

theorem ready (hk : Keeps fs fs' q own) {name : Name} (h : fs.Ready p name) (hp : p ≠ q) :
    fs'.Ready p name := by
  obtain ⟨hno, x, c, hx, hc, hfree, hnew⟩ := h
  refine ⟨hk.noChild hno hp, x, c, hk.dirAt hx hp, hc, hfree, fun j k => ?_⟩
  rw [hk.entry p x hx hp]
  exact hnew j k

/-- A slot that is neither the thread's own nor the directory's stays. -/
theorem slot_eq (hk : Keeps fs fs' q own) {k : Nat} (hlt : k < 128) (hown : ¬ own k)
    (hz : fs.DirAt q z) (hne : z.slot ≠ k) : fs'.dev.slot k = fs.dev.slot k := by
  rcases hk.slot k hlt hown with h | ⟨⟨x, hx, hxk⟩, -⟩
  · exact h
  · rw [Option.some.inj (hx.symm.trans hz.1)] at hxk
    exact absurd hxk hne

theorem same (hk : Keeps fs fs' q own) {k : Nat} (hlt : k < 128) (hown : ¬ own k) :
    (fs'.dev.slot k).Same (fs.dev.slot k) := by
  rcases hk.slot k hlt hown with h | ⟨-, h⟩
  · rw [h]
    exact .refl _
  · exact h

end Keeps

/-- **What another thread knows stays true**, as long as the step touched none of the slots it
knows something about. -/
theorem Local.frame {fs fs' : Fs} {S : Shadow} {q : Nat} {own : Nat → Prop} {z : Dentry}
    {g : Phase} (h : FsInv fs S) (hz : fs.DirAt q z) (hk : Keeps fs fs' q own)
    (hd : g.dir ≠ some q) (ho : ∀ i, g.orphan = some i → S.orphan i)
    (hown : ∀ i, own i → (S.orphan i ∨ ¬ fs.dev.Live i) ∧ g.orphan ≠ some i ∧ g.pick ≠ some i)
    (hl : Local fs g) : Local fs' g := by
  obtain ⟨hzl, hzo, -⟩ := h.live q z (h.current_of_dirAt hz)
  -- a slot that some record names is not the step's own, and lives
  have hnamed : ∀ d l i, fs.Named d l i → fs.dev.Live i ∧ ¬ own i := by
    rintro d l i ⟨x, j, hx, hent⟩
    obtain ⟨hil, -, hio⟩ := h.tree.wf.target _ _ _ ⟨(h.dir hx).1, l, hent⟩
    exact ⟨hil, fun hi => (hown i hi).1.elim hio fun hn => hn hil⟩
  -- an orphan of the other thread is neither the step's own nor the directory
  have horphan : ∀ i, g.orphan = some i → fs.dev.Live i → fs'.dev.slot i = fs.dev.slot i := by
    intro i hi hil
    refine hk.slot_eq hil.lt (fun hi' => (hown i hi').2.1 hi) hz ?_
    rintro rfl
    exact hzo (ho _ hi)
  -- a slot it picked is empty, so it is not the directory
  have hpick : ∀ i, g.pick = some i → i < 63 → ¬ fs.dev.Live i → ¬ fs'.dev.Live i := by
    intro i hi hi63 hil hil'
    refine hil ((Device.live_congr (hk.slot_eq hil'.lt (fun hi' => (hown i hi').2.2 hi) hz ?_)).mp
      hil')
    rintro rfl
    exact hil hzl
  cases g with
  | idle => exact trivial
  | busy d =>
    obtain ⟨x, hx⟩ := hl
    exact ⟨x, hk.dirAt hx fun hdq => hd (congrArg some hdq)⟩
  | looking d name =>
    have hdq : d ≠ q := fun hdq => hd (congrArg some hdq)
    obtain ⟨hno, x, c, hx, hc⟩ := hl
    exact ⟨hk.noChild hno hdq, x, c, hk.dirAt hx hdq, hc⟩
  | leaving d e =>
    have hdq : d ≠ q := fun hdq => hd (congrArg some hdq)
    obtain ⟨he, ⟨x, c, hx, hc⟩, y, hy⟩ := hl
    exact ⟨he, ⟨x, c, hk.dirAt hx hdq, hc⟩, y, hk.fileAt hy hdq hz⟩
  | ready d name => exact hk.ready hl fun hdq => hd (congrArg some hdq)
  | chosen d name i =>
    obtain ⟨hr, hi, hil⟩ := hl
    exact ⟨hk.ready hr fun hdq => hd (congrArg some hdq), hi, hpick i rfl hi hil⟩
  | alloc d name i b =>
    obtain ⟨hr, hi, hil⟩ := hl
    exact ⟨hk.ready hr fun hdq => hd (congrArg some hdq), hi, hpick i rfl hi hil⟩
  | added d name i v =>
    obtain ⟨hr, hil, hv⟩ := hl
    have hs := horphan i rfl hil
    exact ⟨hk.ready hr fun hdq => hd (congrArg some hdq), (Device.live_congr hs).mpr hil,
      hs.trans hv⟩
  | found d name i v mine dirty =>
    have hdq : d ≠ q := fun hdq => hd (congrArg some hdq)
    obtain ⟨hno, hn, hv⟩ := hl
    obtain ⟨hil, hio⟩ := hnamed d _ i hn
    refine ⟨hk.noChild hno hdq, hk.named hn hdq, ?_⟩
    rw [hk.slot_eq hil.lt hio hz, hv]
    -- the directory is linked under another name, or in another directory
    obtain ⟨x, j, hx, hent⟩ := hn
    intro hzi
    obtain ⟨hq0, hpar, hname⟩ := h.child_of_entry hx hent (h.current_of_dirAt hz) hzi
    exact hno q z hq0 hz.1 hz.2.1 hpar (Name.ext hname)
  | made d i b =>
    obtain ⟨⟨l, hn⟩, hb⟩ := hl
    obtain ⟨hil, hio⟩ := hnamed d l i hn
    refine ⟨⟨l, hk.named hn fun hdq => hd (congrArg some hdq)⟩, ?_⟩
    rw [(hk.same hil.lt hio).block, hb]
  | unlinking d e o dirty =>
    have hdq : d ≠ q := fun hdq => hd (congrArg some hdq)
    obtain ⟨⟨x, hx⟩, ⟨y, hy⟩, hi⟩ := hl
    refine ⟨⟨x, hk.dirAt hx hdq⟩, ⟨y, hk.fileAt hy hdq hz⟩, fun i hoi => ?_⟩
    obtain ⟨hil, hf⟩ := hi i hoi
    have hs := horphan i hoi hil
    rw [hs]
    exact ⟨(Device.live_congr hs).mpr hil, hf⟩

/-- **One thread moves on.** -/
theorem Inv.advance {fs fs' : Fs} {q : Nat} {own : Nat → Prop} (h : Inv fs G)
    (hq : (G t).dir = some q) (hdir : g.dir = some q)
    (hfs : FsInv fs' (shadow (Function.update G t g))) (hloc : Local fs' g)
    (hkeep : Keeps fs fs' q own)
    (horph : ∀ i, g.orphan = some i → (G t).orphan = some i ∨ ¬ (shadow G).orphan i)
    (hown : ∀ i, own i → ((shadow G).orphan i ∨ ¬ fs.dev.Live i) ∧
      ∀ u, u ≠ t → (G u).orphan ≠ some i ∧ (G u).pick ≠ some i) :
    Inv fs' (Function.update G t g) := by
  obtain ⟨z, hz⟩ := (h.loc t).dirAt hq
  refine ⟨hfs, ?_, ?_, ?_⟩
  · intro u
    by_cases hut : u = t
    · subst hut
      rw [Function.update_self]
      exact hloc
    · rw [Function.update_of_ne hut]
      refine Local.frame h.inv hz hkeep (fun hd => hut (h.dirs u t q hd hq))
        (fun i hi => ⟨u, hi⟩) ?_ (h.loc u)
      intro i hi
      exact ⟨(hown i hi).1, (hown i hi).2 u hut⟩
  · intro u v d hu hv
    have hold : ∀ w, (Function.update G t g w).dir = (G w).dir := by
      intro w
      by_cases hwt : w = t
      · subst hwt
        rw [Function.update_self, hdir, hq]
      · rw [Function.update_of_ne hwt]
    rw [hold] at hu hv
    exact h.dirs u v d hu hv
  · -- an orphan that `t` has just got was nobody's before
    have hmix : ∀ u i, u ≠ t → g.orphan = some i → (G u).orphan ≠ some i := by
      intro u i hut hgi hui
      rcases horph i hgi with hti | hno
      · exact hut (h.orphans u t i hui hti)
      · exact hno ⟨u, hui⟩
    intro u v i hu hv
    by_cases hut : u = t <;> by_cases hvt : v = t
    · rw [hut, hvt]
    · rw [hut, Function.update_self] at hu
      rw [Function.update_of_ne hvt] at hv
      exact absurd hv (hmix v i hvt hu)
    · rw [Function.update_of_ne hut] at hu
      rw [hvt, Function.update_self] at hv
      exact absurd hu (hmix u i hut hv)
    · rw [Function.update_of_ne hut] at hu
      rw [Function.update_of_ne hvt] at hv
      exact h.orphans u v i hu hv

end Threads

end Simplefs
