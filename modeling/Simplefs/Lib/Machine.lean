/-
# Threads, schedules and proof outlines

Any number of threads run programs (`Prog.lean`) over one shared state and one set of locks.
`Step` is the scheduler: at each step one thread executes one node of its program, an idle
thread may be started on a program that `adm` lets in, and a thread that returned goes idle.
No acquisition is interrupted here, and a lock is only acquired when it is free.

A `Discipline` is what a proof about all schedules needs: an invariant `inv` of the shared
state together with one ghost value per thread, and for each ghost value the locks it relies
on.  `Outline` checks a program against a discipline one node at a time, each `act` against
ARBITRARY ghosts of the other threads, so non-interference is part of the obligation and not a
separate proof.  `Reach.inv` carries the invariant through every schedule and
`Outline.run_alone` through the program run on its own.
-/
import Mathlib.Logic.Relation
import Simplefs.Lib.Prog

namespace Prog

variable {σ ω L S E α T γ : Type} [DecidableEq T]

/-! ## 1. The machine -/

/-- A running thread: what is left of its program, and what it publishes. -/
structure Thread (σ ω L S E α : Type) where
  prog : Prog σ ω L S E α
  obs : ω

/-- The shared state, the owner of each lock and the threads that are running. -/
structure Config (σ ω L S E α T : Type) where
  s : σ
  owner : L → Option T
  threads : T → Option (Thread σ ω L S E α)

/-- What the running threads publish. -/
def Config.published (c : Config σ ω L S E α T) : T → Option ω :=
  fun t => (c.threads t).map Thread.obs

/-- No thread is running and every lock is free. -/
def Config.quiescent (s : σ) : Config σ ω L S E α T := ⟨s, fun _ => none, fun _ => none⟩

/-- When a program may be started, in view of the state and of what the others publish. -/
abbrev Admit (σ ω L S E α T : Type) := σ → (T → Option ω) → Prog σ ω L S E α → ω → Prop

section Step

variable [DecidableEq L]

/-- One step of one thread. -/
inductive Step (adm : Admit σ ω L S E α T) :
    Config σ ω L S E α T → Config σ ω L S E α T → Prop
  | start {c t p w} (ht : c.threads t = none) (ha : adm c.s c.published p w) :
      Step adm c { c with threads := Function.update c.threads t (some ⟨p, w⟩) }
  | act {c t w s'} {β : Type} {f : σ → Except E (β × σ)} {obs : β → ω → ω} {k} {b : β}
      (ht : c.threads t = some ⟨.act f obs k, w⟩) (hf : f c.s = .ok (b, s')) :
      Step adm c
        { c with s := s', threads := Function.update c.threads t (some ⟨k b, obs b w⟩) }
  | acquire {c t w site l k} (ht : c.threads t = some ⟨.acquire site l k, w⟩)
      (hl : c.owner l = none) :
      Step adm c
        { c with
          owner := Function.update c.owner l (some t)
          threads := Function.update c.threads t (some ⟨k false, w⟩) }
  | release {c t w l p} (ht : c.threads t = some ⟨.release l p, w⟩) :
      Step adm c
        { c with
          owner := Function.update c.owner l none
          threads := Function.update c.threads t (some ⟨p, w⟩) }
  | finish {c t w a} (ht : c.threads t = some ⟨.ret a, w⟩) :
      Step adm c { c with threads := Function.update c.threads t none }

/-- The configurations that some schedule reaches from `c`. -/
def Reach (adm : Admit σ ω L S E α T) :
    Config σ ω L S E α T → Config σ ω L S E α T → Prop :=
  Relation.ReflTransGen (Step adm)

variable {adm adm' : Admit σ ω L S E α T} {c c' : Config σ ω L S E α T}

/-- What is admitted may be admitted elsewhere. -/
theorem Reach.mono (hadm : ∀ s obs p w, adm s obs p w → adm' s obs p w) (hr : Reach adm c c') :
    Reach adm' c c' := by
  refine Relation.ReflTransGen.mono (fun c c' hstep => ?_) _ _ hr
  cases hstep with
  | start ht ha => exact .start ht (hadm _ _ _ _ ha)
  | act ht hf => exact .act ht hf
  | acquire ht hl => exact .acquire ht hl
  | release ht => exact .release ht
  | finish ht => exact .finish ht

/-- A thread starts on a program, runs its first piece of code and takes its first lock. -/
theorem Reach.first_lock {t : T} {β : Type} {f : σ → Except E (β × σ)} {obs : β → ω → ω}
    {k : β → Prog σ ω L S E α} {w : ω} {b : β} {s' : σ} {site : S} {l : L}
    {k' : Bool → Prog σ ω L S E α} (ht : c.threads t = none)
    (ha : adm c.s c.published (.act f obs k) w) (hf : f c.s = .ok (b, s'))
    (hk : k b = .acquire site l k') (hl : c.owner l = none) :
    Reach adm c ⟨s', Function.update c.owner l (some t),
      Function.update c.threads t (some ⟨k' false, obs b w⟩)⟩ := by
  have hact : Step adm ⟨c.s, c.owner, Function.update c.threads t (some ⟨.act f obs k, w⟩)⟩ _ :=
    .act (Function.update_self ..) hf
  rw [Function.update_idem, hk] at hact
  have hlock : Step adm ⟨s', c.owner, Function.update c.threads t
      (some ⟨.acquire site l k', obs b w⟩)⟩ _ := .acquire (Function.update_self ..) hl
  rw [Function.update_idem] at hlock
  exact .tail (.tail (.single (.start ht ha)) hact) hlock

end Step

/-! ## 2. Disciplines and outlines -/

/-- An invariant over the shared state and one ghost value per thread. -/
structure Discipline (σ ω L T γ : Type) where
  inv : σ → (T → γ) → Prop
  relies : γ → L → Prop
  view : γ → ω
  idle : γ
  idle_relies : ∀ l, ¬ relies idle l

/-- No two threads rely on one lock: mutual exclusion, as an outline may use it. -/
def Discipline.Excl (D : Discipline σ ω L T γ) (G : T → γ) : Prop :=
  ∀ t u l, D.relies (G t) l → D.relies (G u) l → t = u

section Outline

variable [DecidableEq L]

/-- `Outline D t p h g`: thread `t`, holding the locks `h` and with ghost `g`, can run `p` to
its end and keep the invariant at every node, whatever the other threads are doing. -/
def Outline (D : Discipline σ ω L T γ) (t : T) :
    Prog σ ω L S E α → (L → Bool) → γ → Prop
  | .ret _, h, g => (∀ l, h l = false) ∧
      ∀ s G, D.inv s G → G t = g → D.inv s (Function.update G t D.idle)
  | .act f obs k, h, g => ∀ s G, D.inv s G → D.Excl G → G t = g →
      ∃ b s' g', f s = .ok (b, s') ∧ D.view g' = obs b (D.view g) ∧
        (∀ l, D.relies g' l → h l = true) ∧ D.inv s' (Function.update G t g') ∧
        Outline D t (k b) h g'
  | .acquire _ l k, h, g => h l = false ∧ Outline D t (k false) (Function.update h l true) g
  | .release l p, h, g => h l = true ∧ ¬ D.relies g l ∧
      Outline D t p (Function.update h l false) g

/-! ### Rules

A piece of straight-line code is checked on its own (`Sect`), whatever follows it. -/

/-- Run by thread `t` with ghost `g` under the locks `h`, the code `f` succeeds, keeps the
invariant and ends with a result and a ghost that satisfy `post`. -/
def Sect (D : Discipline σ ω L T γ) (t : T) {β : Type} (f : σ → Except E (β × σ))
    (obs : β → ω → ω) (h : L → Bool) (g : γ) (post : β → γ → Prop) : Prop :=
  ∀ s G, D.inv s G → D.Excl G → G t = g →
    ∃ b s' g', f s = .ok (b, s') ∧ D.view g' = obs b (D.view g) ∧
      (∀ l, D.relies g' l → h l = true) ∧ D.inv s' (Function.update G t g') ∧ post b g'

variable {D : Discipline σ ω L T γ} {t : T} {h : L → Bool} {g : γ}

namespace Outline

theorem pure {a : α} (hh : ∀ l, h l = false)
    (hend : ∀ s G, D.inv s G → G t = g → D.inv s (Function.update G t D.idle)) :
    Outline D t (Pure.pure a : Prog σ ω L S E α) h g := ⟨hh, hend⟩

theorem stepObs {β : Type} {f : σ → Except E (β × σ)} {obs : β → ω → ω}
    {k : β → Prog σ ω L S E α} {post : β → γ → Prop} (hs : Sect D t f obs h g post)
    (hk : ∀ b g', post b g' → Outline D t (k b) h g') :
    Outline D t (Prog.stepObs f obs >>= k) h g := by
  intro s G hinv hexcl hg
  obtain ⟨b, s', g', hf, hview, hrel, hinv', hpost⟩ := hs s G hinv hexcl hg
  exact ⟨b, s', g', hf, hview, hrel, hinv', hk b g' hpost⟩

theorem step {β : Type} {f : σ → Except E (β × σ)} {k : β → Prog σ ω L S E α}
    {post : β → γ → Prop} (hs : Sect D t f (fun _ w => w) h g post)
    (hk : ∀ b g', post b g' → Outline D t (k b) h g') :
    Outline D t (Prog.step f >>= k) h g := stepObs hs hk

theorem step_last {f : σ → Except E (α × σ)} {post : α → γ → Prop}
    (hs : Sect D t f (fun _ w => w) h g post)
    (hk : ∀ b g', post b g' → Outline D t (Pure.pure b : Prog σ ω L S E α) h g') :
    Outline D t (Prog.step f : Prog σ ω L S E α) h g := stepObs hs hk

theorem read {β : Type} {f : σ → β} {k : β → Prog σ ω L S E α}
    (hrel : ∀ l, D.relies g l → h l = true) (hk : ∀ b, Outline D t (k b) h g) :
    Outline D t (Prog.read f >>= k) h g := by
  intro s G hinv _ hg
  refine ⟨f s, s, g, rfl, rfl, hrel, ?_, hk _⟩
  rwa [← hg, Function.update_eq_self]

theorem lock {site : S} {l : L} {k : Bool → Prog σ ω L S E α} (hl : h l = false)
    (hk : Outline D t (k false) (Function.update h l true) g) :
    Outline D t (Prog.lock site l >>= k) h g := ⟨hl, hk⟩

theorem unlock {l : L} {k : Unit → Prog σ ω L S E α} (hl : h l = true) (hrel : ¬ D.relies g l)
    (hk : Outline D t (k ()) (Function.update h l false) g) :
    Outline D t (Prog.unlock l >>= k) h g := ⟨hl, hrel, hk⟩

end Outline

/-! ## 3. Outlines carry the invariant through every schedule -/

/-- Every thread of the configuration is at an outlined point, with ghosts `G` and holding the
locks `H`. -/
structure OutlinedBy (D : Discipline σ ω L T γ) (c : Config σ ω L S E α T) (G : T → γ)
    (H : T → L → Bool) : Prop where
  inv : D.inv c.s G
  owner : ∀ l t, c.owner l = some t ↔ H t l = true
  relies : ∀ t l, D.relies (G t) l → H t l = true
  idle : ∀ t, c.threads t = none → G t = D.idle ∧ ∀ l, H t l = false
  run : ∀ t th, c.threads t = some th →
    Outline D t th.prog (H t) (G t) ∧ D.view (G t) = th.obs

/-- Every thread of the configuration is at an outlined point. -/
def Outlined (D : Discipline σ ω L T γ) (c : Config σ ω L S E α T) : Prop :=
  ∃ G H, OutlinedBy D c G H

/-- What `adm` must guarantee: whatever it lets in can be outlined from a ghost of its own. -/
def Admit.Sound (adm : Admit σ ω L S E α T) (D : Discipline σ ω L T γ) : Prop :=
  ∀ s G obs t p w, D.inv s G → G t = D.idle →
    (∀ u, obs u = none ∧ G u = D.idle ∨ obs u = some (D.view (G u))) → adm s obs p w →
    ∃ g, D.view g = w ∧ (∀ l, ¬ D.relies g l) ∧ D.inv s (Function.update G t g) ∧
      Outline D t p (fun _ => false) g

theorem quiescent_outlined {D : Discipline σ ω L T γ} {s : σ} (h : D.inv s fun _ => D.idle) :
    Outlined D (Config.quiescent s : Config σ ω L S E α T) :=
  ⟨fun _ => D.idle, fun _ _ => false, h, by simp [Config.quiescent],
    fun _ l hr => absurd hr (D.idle_relies l), fun _ _ => ⟨rfl, fun _ => rfl⟩,
    by simp [Config.quiescent]⟩

/-- A lock has one owner, so at most one thread relies on it. -/
theorem OutlinedBy.excl {D : Discipline σ ω L T γ} {c : Config σ ω L S E α T} {G : T → γ}
    {H : T → L → Bool} (hc : OutlinedBy D c G H) : D.Excl G := by
  intro t u l ht hu
  have h1 := (hc.owner l t).mpr (hc.relies t l ht)
  have h2 := (hc.owner l u).mpr (hc.relies u l hu)
  exact Option.some.inj (h1.symm.trans h2)

/-- Only thread `t` moved: what has to be shown is about `t`, the owners and the invariant. -/
theorem OutlinedBy.move {D : Discipline σ ω L T γ} {c : Config σ ω L S E α T} {G : T → γ}
    {H : T → L → Bool} (hc : OutlinedBy D c G H) {t : T} {s' : σ} {owner' : L → Option T}
    {th : Option (Thread σ ω L S E α)} {g : γ} {h : L → Bool}
    (hinv : D.inv s' (Function.update G t g))
    (hown : ∀ l u, owner' l = some u ↔ Function.update H t h u l = true)
    (hrel : ∀ l, D.relies g l → h l = true)
    (hidle : th = none → g = D.idle ∧ ∀ l, h l = false)
    (hrun : ∀ r, th = some r → Outline D t r.prog h g ∧ D.view g = r.obs) :
    Outlined D ⟨s', owner', Function.update c.threads t th⟩ := by
  refine ⟨Function.update G t g, Function.update H t h, hinv, hown, ?_, ?_, ?_⟩
  · intro u l hr
    by_cases hut : u = t
    · subst hut; rw [Function.update_self] at hr ⊢; exact hrel l hr
    · rw [Function.update_of_ne hut] at hr ⊢; exact hc.relies u l hr
  · intro u hu
    by_cases hut : u = t
    · subst hut; simp only [Function.update_self] at hu ⊢; exact hidle hu
    · simp only [Function.update_of_ne hut] at hu ⊢; exact hc.idle u hu
  · intro u r hu
    by_cases hut : u = t
    · subst hut; simp only [Function.update_self] at hu ⊢; exact hrun r hu
    · simp only [Function.update_of_ne hut] at hu ⊢; exact hc.run u r hu

/-- The owners are described by what each thread holds: giving `t` the locks `h` changes the
owner of exactly the locks on which `h` and `H t` differ. -/
theorem owner_update {H : T → L → Bool} {owner : L → Option T}
    (hown : ∀ l t, owner l = some t ↔ H t l = true) (t : T) {l : L} {b : Bool}
    (hothers : ∀ u, u ≠ t → H u l = false) (l' : L) (u : T) :
    Function.update owner l (if b then some t else none) l' = some u ↔
      Function.update H t (Function.update (H t) l b) u l' = true := by
  by_cases hll : l' = l
  · subst hll
    rw [Function.update_self]
    by_cases hut : u = t
    · subst hut; cases b <;> simp
    · rw [Function.update_of_ne hut, hothers u hut]
      cases b <;> simp [Ne.symm hut]
  · rw [Function.update_of_ne hll, hown l' u]
    by_cases hut : u = t
    · subst hut; rw [Function.update_self, Function.update_of_ne hll]
    · rw [Function.update_of_ne hut]

omit [DecidableEq L] in
/-- A thread that keeps its locks. -/
theorem owner_keep {H : T → L → Bool} {owner : L → Option T}
    (hown : ∀ l t, owner l = some t ↔ H t l = true) (t : T) (l : L) (u : T) :
    owner l = some u ↔ Function.update H t (H t) u l = true := by
  rw [Function.update_eq_self]
  exact hown l u

/-- Thread `t` takes a lock that nobody holds. -/
theorem owner_take {H : T → L → Bool} {owner : L → Option T}
    (hown : ∀ l t, owner l = some t ↔ H t l = true) (t : T) {l : L} (hl : owner l = none)
    (l' : L) (u : T) : Function.update owner l (some t) l' = some u ↔
      Function.update H t (Function.update (H t) l true) u l' = true := by
  refine owner_update hown t (b := true) (fun u _ => ?_) l' u
  cases hu : H u l with
  | false => rfl
  | true =>
    rw [(hown l u).mpr hu] at hl
    cases hl

/-- Thread `t` gives a lock back: what `t` holds is held by nobody else. -/
theorem owner_give {H : T → L → Bool} {owner : L → Option T}
    (hown : ∀ l t, owner l = some t ↔ H t l = true) {t : T} {l : L} (hl : H t l = true)
    (l' : L) (u : T) : Function.update owner l none l' = some u ↔
      Function.update H t (Function.update (H t) l false) u l' = true := by
  refine owner_update hown t (b := false) (fun u hut => ?_) l' u
  cases hu : H u l with
  | false => rfl
  | true =>
    have := ((hown l u).mpr hu).symm.trans ((hown l t).mpr hl)
    exact absurd (Option.some.inj this) hut

/-- **One step keeps every thread at an outlined point.** -/
theorem Step.outlined {adm : Admit σ ω L S E α T} {D : Discipline σ ω L T γ}
    (hadm : adm.Sound D) {c c' : Config σ ω L S E α T} (hstep : Step adm c c')
    (hc : Outlined D c) : Outlined D c' := by
  obtain ⟨G, H, hby⟩ := hc
  have ⟨hinv, hown, hrel, hidle, hrun⟩ := hby
  cases hstep with
  | @start t p w ht ha =>
    obtain ⟨hGt, hHt⟩ := hidle t ht
    have hobs : ∀ u, c.published u = none ∧ G u = D.idle ∨
        c.published u = some (D.view (G u)) := by
      intro u
      cases hu : c.threads u with
      | none => exact Or.inl ⟨by simp [Config.published, hu], (hidle u hu).1⟩
      | some th => exact Or.inr (by simp [Config.published, hu, (hrun u th hu).2])
    obtain ⟨g, hview, hfree, hinv', hout⟩ := hadm c.s G c.published t p w hinv hGt hobs ha
    rw [← show H t = fun _ => false from funext hHt] at hout
    refine hby.move hinv' (owner_keep hown t) (fun l hr => absurd hr (hfree l)) (by simp) ?_
    rintro r hr
    obtain rfl := Option.some.inj hr
    exact ⟨hout, hview⟩
  | @act t w s' β f obs k b ht hf =>
    obtain ⟨hout, hview⟩ := hrun t _ ht
    obtain ⟨b', s'', g', hf', hview', hrel', hinv', hout'⟩ :=
      hout c.s G hinv hby.excl rfl
    rw [hf] at hf'
    obtain ⟨rfl, rfl⟩ : b = b' ∧ s' = s'' := by simpa using hf'
    refine hby.move hinv' (owner_keep hown t) hrel' (by simp) ?_
    rintro r hr
    obtain rfl := Option.some.inj hr
    exact ⟨hout', by rw [hview', hview]⟩
  | @acquire t w site l k ht hl =>
    obtain ⟨⟨-, hout⟩, hview⟩ := hrun t _ ht
    refine hby.move (g := G t) (by rwa [Function.update_eq_self]) (owner_take hown t hl) ?_
      (by simp) ?_
    · intro l' hr
      rw [Function.update_apply]
      split
      · rfl
      · exact hrel t l' hr
    · rintro r hr
      obtain rfl := Option.some.inj hr
      exact ⟨hout, hview⟩
  | @release t w l p ht =>
    obtain ⟨⟨hheld, hnot, hout⟩, hview⟩ := hrun t _ ht
    refine hby.move (g := G t) (by rwa [Function.update_eq_self]) (owner_give hown hheld) ?_
      (by simp) ?_
    · intro l' hr
      have hne : l' ≠ l := by rintro rfl; exact hnot hr
      rw [Function.update_of_ne hne]
      exact hrel t l' hr
    · rintro r hr
      obtain rfl := Option.some.inj hr
      exact ⟨hout, hview⟩
  | @finish t w a ht =>
    obtain ⟨⟨hnone, hend⟩, -⟩ := hrun t _ ht
    exact hby.move (hend c.s G hinv rfl) (owner_keep hown t)
      (fun l hr => absurd hr (D.idle_relies l)) (fun _ => ⟨rfl, hnone⟩) (by simp)

/-- **Every schedule keeps every thread at an outlined point.** -/
theorem Reach.outlined {adm : Admit σ ω L S E α T} {D : Discipline σ ω L T γ}
    (hadm : adm.Sound D) {c c' : Config σ ω L S E α T} (h : Reach adm c c')
    (hc : Outlined D c) : Outlined D c' := by
  induction h with
  | refl => exact hc
  | tail _ hstep ih => exact hstep.outlined hadm ih

/-! ## 4. ... and through a program run alone -/

/-- **An outlined program, run alone and uninterrupted, returns with the invariant and without
a lock.** -/
theorem Outline.run_alone {D : Discipline σ ω L T γ} {t : T} {p : Prog σ ω L S E α}
    {lk : LockState L} {s : σ} {G : T → γ} (hp : Outline D t p lk.held (G t)) (hinv : D.inv s G)
    (halone : ∀ u, u ≠ t → ∀ l, ¬ D.relies (G u) l) :
    ∃ a s', run (fun _ => false) p lk s = (.returned a s', ⟨fun _ => false, lk.stray⟩) ∧
      D.inv s' (Function.update G t D.idle) := by
  induction p generalizing lk s G with
  | ret a =>
    obtain ⟨hnone, hend⟩ := hp
    refine ⟨a, s, ?_, hend s G hinv rfl⟩
    rw [run, show lk = ⟨fun _ => false, lk.stray⟩ by rw [← funext hnone]]
  | act f obs k ih =>
    have hexcl : D.Excl G := fun u v l hu hv => by
      by_cases hut : u = t
      · by_cases hvt : v = t
        · rw [hut, hvt]
        · exact absurd hv (halone v hvt l)
      · exact absurd hu (halone u hut l)
    obtain ⟨b, s', g', hf, -, -, hinv', hout⟩ := hp s G hinv hexcl rfl
    obtain ⟨a, s'', hrun, hfin⟩ := @ih b lk s' (Function.update G t g')
      (by rwa [Function.update_self]) hinv' (fun u hut l => by
        rw [Function.update_of_ne hut]; exact halone u hut l)
    refine ⟨a, s'', ?_, by rwa [Function.update_idem] at hfin⟩
    simp only [run, hf]
    exact hrun
  | acquire site l k ih =>
    obtain ⟨hfree, hout⟩ := hp
    simp only [run, hfree]
    exact ih false hout hinv halone
  | release l p ih =>
    obtain ⟨hheld, -, hout⟩ := hp
    obtain ⟨a, s', hrun, hfin⟩ := @ih (lk.drop l) s G hout hinv halone
    refine ⟨a, s', ?_, hfin⟩
    rw [run, hrun, LockState.drop_stray, hheld]
    simp

end Outline

end Prog
