/-
# Locks taken in order

Give every lock a rank.  A program is `Ordered` if on every path each acquisition is of a lock
that outranks all the locks held at that point, and only held locks are released.  This is
checked on the program alone, node by node; no invariant of the shared state is needed, and each
piece of straight-line code may return anything.

If every program that is ever started is ordered, no schedule leads to a circular wait: along a
chain of waiting threads the ranks go up.
-/
import Mathlib.Order.WellFounded
import Simplefs.Lib.Machine

namespace Prog

variable {σ ω L S E α β T R : Type} [DecidableEq L]

/-! ## 1. Ordered programs -/

/-- Started with the locks `h`, the program acquires locks in order of their rank, releases only
locks it holds, and returns with a result and locks that satisfy `post`. -/
def Ordered [LT R] (rank : L → R) :
    Prog σ ω L S E α → (L → Bool) → (α → (L → Bool) → Prop) → Prop
  | .ret a, h, post => post a h
  | .act _ _ k, h, post => ∀ b, Ordered rank (k b) h post
  | .acquire _ l k, h, post => (∀ l', h l' = true → rank l' < rank l) ∧
      Ordered rank (k false) (Function.update h l true) post
  | .release l p, h, post => h l = true ∧ Ordered rank p (Function.update h l false) post

section Rules

variable [LT R] {rank : L → R} {h : L → Bool} {post : β → (L → Bool) → Prop}

namespace Ordered

/-- Programs in sequence. -/
theorem bind {p : Prog σ ω L S E α} {k : α → Prog σ ω L S E β}
    {mid : α → (L → Bool) → Prop} (hp : Ordered rank p h mid)
    (hk : ∀ a h', mid a h' → Ordered rank (k a) h' post) : Ordered rank (p >>= k) h post := by
  induction p generalizing h with
  | ret a => exact hk a h hp
  | act f obs k' ih => exact fun b => ih b (hp b)
  | acquire site l k' ih => exact ⟨hp.1, ih false hp.2⟩
  | release l p ih => exact ⟨hp.1, ih hp.2⟩

/-- A piece of code that returns with the locks it was given. -/
theorem bind_keeps {p : Prog σ ω L S E α} {k : α → Prog σ ω L S E β}
    (hp : Ordered rank p h fun _ h' => h' = h) (hk : ∀ a, Ordered rank (k a) h post) :
    Ordered rank (p >>= k) h post :=
  hp.bind fun a _ hh => hh ▸ hk a

theorem stepObs {f : σ → Except E (α × σ)} {obs : α → ω → ω} {k : α → Prog σ ω L S E β}
    (hk : ∀ a, Ordered rank (k a) h post) : Ordered rank (Prog.stepObs f obs >>= k) h post := hk

theorem step {f : σ → Except E (α × σ)} {k : α → Prog σ ω L S E β}
    (hk : ∀ a, Ordered rank (k a) h post) : Ordered rank (Prog.step f >>= k) h post := hk

theorem read {f : σ → α} {k : α → Prog σ ω L S E β} (hk : ∀ a, Ordered rank (k a) h post) :
    Ordered rank (Prog.read f >>= k) h post := hk

theorem lock {site : S} {l : L} {k : Bool → Prog σ ω L S E β}
    (hl : ∀ l', h l' = true → rank l' < rank l)
    (hk : Ordered rank (k false) (Function.update h l true) post) :
    Ordered rank (Prog.lock site l >>= k) h post := ⟨hl, hk⟩

theorem unlock {l : L} {k : Unit → Prog σ ω L S E β} (hl : h l = true)
    (hk : Ordered rank (k ()) (Function.update h l false) post) :
    Ordered rank (Prog.unlock l >>= k) h post := ⟨hl, hk⟩

end Ordered

end Rules

/-! ## 2. Circular waits -/

/-- Thread `t` waits for a lock that thread `u` holds. -/
def WaitsFor (c : Config σ ω L S E α T) (t u : T) : Prop :=
  ∃ site l k w, c.threads t = some ⟨.acquire site l k, w⟩ ∧ c.owner l = some u

/-- A non-empty set of threads, each waiting for one of them. -/
def CircularWait (c : Config σ ω L S E α T) : Prop :=
  ∃ ts : Set T, ts.Nonempty ∧ ∀ t ∈ ts, ∃ u ∈ ts, WaitsFor c t u

/-- Every thread has an ordered program left, for the locks it holds. -/
structure InOrderBy [LT R] (rank : L → R) (c : Config σ ω L S E α T) (H : T → L → Bool) :
    Prop where
  owner : ∀ l t, c.owner l = some t ↔ H t l = true
  idle : ∀ t, c.threads t = none → ∀ l, H t l = false
  run : ∀ t th, c.threads t = some th →
    Ordered rank th.prog (H t) fun _ h => ∀ l, h l = false

/-- Every thread of the configuration is inside an ordered program. -/
def InOrder [LT R] (rank : L → R) (c : Config σ ω L S E α T) : Prop :=
  ∃ H, InOrderBy rank c H

section Order

variable [Preorder R] {rank : L → R}

theorem quiescent_inOrder {s : σ} :
    InOrder rank (Config.quiescent s : Config σ ω L S E α T) :=
  ⟨fun _ _ => false, by simp [Config.quiescent], fun _ _ _ => rfl, by simp [Config.quiescent]⟩

/-- A thread that waits holds only locks of a lower rank than the one it waits for. -/
theorem InOrderBy.rank_lt {c : Config σ ω L S E α T} {H : T → L → Bool}
    (hc : InOrderBy rank c H) {t : T} {site : S} {l l' : L} {k : Bool → Prog σ ω L S E α} {w : ω}
    (ht : c.threads t = some ⟨.acquire site l k, w⟩) (hheld : c.owner l' = some t) :
    rank l' < rank l := (hc.run t _ ht).1 l' ((hc.owner l' t).mp hheld)

/-- **Where every thread is inside an ordered program, no threads wait for each other in a
circle.** -/
theorem InOrder.not_circularWait [WellFoundedGT R] {c : Config σ ω L S E α T}
    (hc : InOrder rank c) : ¬ CircularWait c := by
  obtain ⟨H, hby⟩ := hc
  rintro ⟨ts, ⟨t0, ht0⟩, hall⟩
  -- among the ranks waited for, take a maximal one
  let waited : Set R := fun r =>
    ∃ t ∈ ts, ∃ site l k w, c.threads t = some ⟨.acquire site l k, w⟩ ∧ r = rank l
  have hne : waited.Nonempty := by
    obtain ⟨u, -, site, l, k, w, ht, -⟩ := hall t0 ht0
    exact ⟨rank l, t0, ht0, site, l, k, w, ht, rfl⟩
  obtain ⟨r, ⟨t, ht, _, _, _, _, htl, rfl⟩, hmax⟩ :=
    (wellFounded_gt : WellFounded ((· > ·) : R → R → Prop)).has_min waited hne
  obtain ⟨u, hu, site, l, k, w, htl', hown⟩ := hall t ht
  cases htl.symm.trans htl'
  -- the thread that holds that lock waits for a lock of a higher rank
  obtain ⟨-, -, site', l', k', w', hul, -⟩ := hall u hu
  exact hmax (rank l') ⟨u, hu, site', l', k', w', hul, rfl⟩ (hby.rank_lt hul hown)

/-! ## 3. Every schedule -/

variable [DecidableEq T]

/-- Only thread `t` moved, and holds the locks `h` now. -/
theorem InOrderBy.move {c : Config σ ω L S E α T} {H : T → L → Bool}
    (hc : InOrderBy rank c H) {t : T} {s' : σ} {owner' : L → Option T}
    {th : Option (Thread σ ω L S E α)} {h : L → Bool}
    (hown : ∀ l u, owner' l = some u ↔ Function.update H t h u l = true)
    (hidle : th = none → ∀ l, h l = false)
    (hrun : ∀ r, th = some r → Ordered rank r.prog h fun _ h => ∀ l, h l = false) :
    InOrder rank ⟨s', owner', Function.update c.threads t th⟩ := by
  refine ⟨Function.update H t h, hown, ?_, ?_⟩
  · intro u hu
    by_cases hut : u = t
    · subst hut
      simp only [Function.update_self] at hu ⊢
      exact hidle hu
    · simp only [Function.update_of_ne hut] at hu ⊢
      exact hc.idle u hu
  · intro u r hu
    by_cases hut : u = t
    · subst hut
      simp only [Function.update_self] at hu ⊢
      exact hrun r hu
    · simp only [Function.update_of_ne hut] at hu ⊢
      exact hc.run u r hu

/-- **One step keeps every thread inside an ordered program.** -/
theorem Step.inOrder {adm : Admit σ ω L S E α T}
    (hadm : ∀ s obs p w, adm s obs p w →
      Ordered rank p (fun _ => false) fun _ h => ∀ l, h l = false)
    {c c' : Config σ ω L S E α T} (hstep : Step adm c c') (hc : InOrder rank c) :
    InOrder rank c' := by
  obtain ⟨H, hby⟩ := hc
  have ⟨hown, hidle, hrun⟩ := hby
  cases hstep with
  | @start t p w ht ha =>
    refine hby.move (owner_keep hown t) (by simp) ?_
    rintro r hr
    obtain rfl := Option.some.inj hr
    rw [show H t = fun _ => false from funext (hidle t ht)]
    exact hadm _ _ p w ha
  | @act t w s' β f obs k b ht hf =>
    refine hby.move (owner_keep hown t) (by simp) ?_
    rintro r hr
    obtain rfl := Option.some.inj hr
    exact hrun t _ ht b
  | @acquire t w site l k ht hl =>
    refine hby.move (owner_take hown t hl) (by simp) ?_
    rintro r hr
    obtain rfl := Option.some.inj hr
    exact (hrun t _ ht).2
  | @release t w l p ht =>
    obtain ⟨hheld, hout⟩ := hrun t _ ht
    refine hby.move (owner_give hown hheld) (by simp) ?_
    rintro r hr
    obtain rfl := Option.some.inj hr
    exact hout
  | @finish t w a ht =>
    exact hby.move (owner_keep hown t) (fun _ => hrun t _ ht) (by simp)

/-- **Every schedule does.** -/
theorem Reach.inOrder {adm : Admit σ ω L S E α T}
    (hadm : ∀ s obs p w, adm s obs p w →
      Ordered rank p (fun _ => false) fun _ h => ∀ l, h l = false)
    {c c' : Config σ ω L S E α T} (h : Reach adm c c') (hc : InOrder rank c) :
    InOrder rank c' := by
  induction h with
  | refl => exact hc
  | tail _ hstep ih => exact hstep.inOrder hadm ih

end Order

end Prog
