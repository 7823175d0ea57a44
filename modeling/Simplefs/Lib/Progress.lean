/-
# Schedules that come to an end

Programs are finite trees, so a schedule that starts nothing new cannot go on for ever: each step
replaces the rest of one thread's program by a smaller one, and the multiset of what is left
descends.

Whether it ends well is another question.  A thread cannot move for three reasons: it has run into
a fault, the owner of the lock it needs has gone away, or it is in a circle of waiting threads.
Locks taken in order rule out the last two, so whatever has not returned when a schedule can go no
further is held up by a fault.  Outlined points rule out the first as well, and then every call has
returned.
-/
import Mathlib.Algebra.BigOperators.Group.Finset.Basic
import Mathlib.Algebra.Order.Group.Multiset
import Mathlib.Logic.Hydra
import Simplefs.Lib.LockOrder

namespace Prog

variable {σ ω L S E α T R γ : Type} [DecidableEq L] [DecidableEq T]

/-! ## 1. Steps that start nothing -/

/-- Nothing is let in. -/
def nothing : Admit σ ω L S E α T := fun _ _ _ _ => False

/-- No thread is running. -/
def Config.Idle (c : Config σ ω L S E α T) : Prop := ∀ t, c.threads t = none

/-- The threads that are running are among `ts`. -/
def Config.Within (c : Config σ ω L S E α T) (ts : Finset T) : Prop :=
  ∀ t, t ∉ ts → c.threads t = none

omit [DecidableEq L] in
theorem Config.Within.update {c : Config σ ω L S E α T} {ts : Finset T} (hc : c.Within ts)
    {t : T} (ht : t ∈ ts) {s : σ} {owner : L → Option T} {th : Option (Thread σ ω L S E α)} :
    Config.Within ⟨s, owner, Function.update c.threads t th⟩ ts := by
  intro u hu
  have hut : u ≠ t := by
    rintro rfl
    exact hu ht
  exact (Function.update_of_ne hut ..).trans (hc u hu)

omit [DecidableEq L] in
/-- A thread that is running is one of them. -/
theorem Config.Within.mem {c : Config σ ω L S E α T} {ts : Finset T} (hc : c.Within ts) {t : T}
    {th : Thread σ ω L S E α} (ht : c.threads t = some th) : t ∈ ts := by
  by_contra hno
  rw [hc t hno] at ht
  cases ht

/-- **Only finitely many threads are ever running.** -/
theorem Reach.within {adm : Admit σ ω L S E α T} {c c' : Config σ ω L S E α T}
    (hr : Reach adm c c') (hc : ∃ ts, c.Within ts) : ∃ ts, c'.Within ts := by
  induction hr with
  | refl => exact hc
  | tail _ hstep ih =>
    obtain ⟨ts, hts⟩ := ih
    cases hstep with
    | @start t p w ht ha =>
      refine ⟨insert t ts, Config.Within.update (fun u hu => ?_) (Finset.mem_insert_self ..)⟩
      exact hts u fun hmem => hu (Finset.mem_insert_of_mem hmem)
    | act ht hf => exact ⟨ts, hts.update (hts.mem ht)⟩
    | acquire ht hl => exact ⟨ts, hts.update (hts.mem ht)⟩
    | release ht => exact ⟨ts, hts.update (hts.mem ht)⟩
    | finish ht => exact ⟨ts, hts.update (hts.mem ht)⟩

/-! ## 2. They come to an end -/

/-- What is left of a program after its first node. -/
inductive Rest : Prog σ ω L S E α → Prog σ ω L S E α → Prop
  | act {β : Type} {f : σ → Except E (β × σ)} {obs : β → ω → ω} {k : β → Prog σ ω L S E α}
      (b : β) : Rest (k b) (.act f obs k)
  | acquire {site : S} {l : L} {k : Bool → Prog σ ω L S E α} (i : Bool) :
      Rest (k i) (.acquire site l k)
  | release {l : L} {p : Prog σ ω L S E α} : Rest p (.release l p)

omit [DecidableEq L] in
theorem wellFounded_rest : WellFounded (Rest (σ := σ) (ω := ω) (L := L) (S := S) (E := E)
    (α := α)) := by
  refine ⟨fun p => ?_⟩
  induction p with
  | ret a => exact Acc.intro _ fun q hq => by cases hq
  | act f obs k ih =>
    refine Acc.intro _ fun q hq => ?_
    cases hq with
    | act b => exact ih b
  | acquire site l k ih =>
    refine Acc.intro _ fun q hq => ?_
    cases hq with
    | acquire i => exact ih i
  | release l p ih =>
    refine Acc.intro _ fun q hq => ?_
    cases hq
    exact ih

/-- What a thread has left to run. -/
def leftOf : Option (Thread σ ω L S E α) → Multiset (Prog σ ω L S E α)
  | none => 0
  | some th => {th.prog}

/-- What the threads of `ts` have left to run. -/
def Config.left (c : Config σ ω L S E α T) (ts : Finset T) : Multiset (Prog σ ω L S E α) :=
  ∑ t ∈ ts, leftOf (c.threads t)

omit [DecidableEq L] in
/-- A step of thread `t` that leaves less of its program. -/
theorem Config.left_descends {c : Config σ ω L S E α T} {ts : Finset T} {t : T}
    {th : Thread σ ω L S E α} (ht : c.threads t = some th) (hmem : t ∈ ts) (s : σ)
    (owner : L → Option T) {th' : Option (Thread σ ω L S E α)}
    (hrest : ∀ r, th' = some r → Rest r.prog th.prog) :
    Relation.CutExpand Rest
      (Config.left ⟨s, owner, Function.update c.threads t th'⟩ ts) (c.left ts) := by
  have hothers : ∑ u ∈ ts.erase t, leftOf (Function.update c.threads t th' u) =
      ∑ u ∈ ts.erase t, leftOf (c.threads u) := by
    refine Finset.sum_congr rfl fun u hu => ?_
    rw [Function.update_of_ne (Finset.ne_of_mem_erase hu)]
  unfold left
  rw [← Finset.add_sum_erase ts _ hmem, ← Finset.add_sum_erase ts _ hmem, hothers,
    Relation.cutExpand_add_right, ht]
  simp only [Function.update_self]
  cases th' with
  | none => exact Relation.cutExpand_zero
  | some r => exact Relation.cutExpand_singleton_singleton (hrest r rfl)

/-- **Every schedule that starts nothing new ends.** -/
theorem acc_nothing {c : Config σ ω L S E α T} {ts : Finset T} (hc : c.Within ts) :
    Acc (fun c₂ c₁ => Step nothing c₁ c₂) c := by
  have hwf : WellFounded (Relation.CutExpand (Rest (σ := σ) (ω := ω) (L := L) (S := S) (E := E)
    (α := α))) := wellFounded_rest.cutExpand
  generalize hm : c.left ts = m
  induction m using hwf.induction generalizing c with
  | _ m ih =>
    refine Acc.intro _ fun c' hstep => ?_
    -- whichever thread moves, it has less left
    cases hstep with
    | start ht ha => exact ha.elim
    | @act t w s' β f obs k b ht hf =>
      refine ih _ ?_ (hc.update (hc.mem ht)) rfl
      rw [← hm]
      refine Config.left_descends ht (hc.mem ht) s' c.owner fun r hr => ?_
      cases hr
      exact .act b
    | @acquire t w site l k ht hl =>
      refine ih _ ?_ (hc.update (hc.mem ht)) rfl
      rw [← hm]
      refine Config.left_descends ht (hc.mem ht) c.s _ fun r hr => ?_
      cases hr
      exact .acquire false
    | @release t w l p ht =>
      refine ih _ ?_ (hc.update (hc.mem ht)) rfl
      rw [← hm]
      refine Config.left_descends ht (hc.mem ht) c.s _ fun r hr => ?_
      cases hr
      exact .release
    | @finish t w a ht =>
      refine ih _ ?_ (hc.update (hc.mem ht)) rfl
      rw [← hm]
      refine Config.left_descends ht (hc.mem ht) c.s c.owner fun r hr => ?_
      cases hr

/-! ## 3. What holds up the calls that have not returned -/

/-- Thread `t` is at a fault: the code it has come to cannot be run. -/
def Config.Faults (c : Config σ ω L S E α T) (t : T) : Prop :=
  ∃ (β : Type) (f : σ → Except E (β × σ)) (obs : β → ω → ω) (k : β → Prog σ ω L S E α) (w : ω)
    (e : E), c.threads t = some ⟨.act f obs k, w⟩ ∧ f c.s = .error e

/-- Thread `t` is at a fault, or waits for a thread that is, directly or through others. -/
def Config.HeldUp (c : Config σ ω L S E α T) (t : T) : Prop :=
  ∃ u, Relation.ReflTransGen (WaitsFor c) t u ∧ c.Faults u

omit [DecidableEq T] in
/-- A thread that is waited for is running: only then does it hold a lock. -/
theorem InOrder.running [Preorder R] {rank : L → R} {c : Config σ ω L S E α T}
    (hc : InOrder rank c) {t u : T} (h : WaitsFor c t u) : c.threads u ≠ none := by
  obtain ⟨H, hby⟩ := hc
  obtain ⟨site, l, k, w, -, hown⟩ := h
  intro hu
  have hheld := hby.idle u hu l
  rw [(hby.owner l u).mp hown] at hheld
  cases hheld

/-- A running thread that cannot move is at a fault or waits. -/
theorem faults_or_waitsFor {c : Config σ ω L S E α T} (hstuck : ∀ c', ¬ Step nothing c c') {t : T}
    (ht : c.threads t ≠ none) : c.Faults t ∨ ∃ u, WaitsFor c t u := by
  obtain ⟨⟨p, w⟩, hth⟩ := Option.ne_none_iff_exists'.mp ht
  cases p with
  | ret a => exact absurd (.finish hth) (hstuck _)
  | act f obs k =>
    cases hf : f c.s with
    | error e => exact Or.inl ⟨_, f, obs, k, w, e, hth, hf⟩
    | ok r => exact absurd (.act hth hf) (hstuck _)
  | release l p => exact absurd (.release hth) (hstuck _)
  | acquire site l k =>
    cases hown : c.owner l with
    | none => exact absurd (.acquire hth hown) (hstuck _)
    | some u => exact Or.inr ⟨u, site, l, k, w, hth, hown⟩

/-- **Where the locks are taken in order, only faults hold threads up**: if nothing can move,
following a thread's waits leads to a fault, for it cannot lead on for ever. -/
theorem InOrder.heldUp [Preorder R] [WellFoundedGT R] {rank : L → R}
    {c : Config σ ω L S E α T} (hc : InOrder rank c) (hstuck : ∀ c', ¬ Step nothing c c') {t : T}
    (ht : c.threads t ≠ none) : c.HeldUp t := by
  by_contra hno
  refine hc.not_circularWait ⟨{u | Relation.ReflTransGen (WaitsFor c) t u}, ⟨t, .refl⟩, ?_⟩
  intro u hu
  have hrun : c.threads u ≠ none := by
    cases hu with
    | refl => exact ht
    | tail _ hlast => exact hc.running hlast
  rcases faults_or_waitsFor hstuck hrun with hf | ⟨v, hv⟩
  · exact absurd ⟨u, hu, hf⟩ hno
  · exact ⟨v, hu.tail hv, hv⟩

/-- **A schedule that starts nothing new comes to an end, and what has not returned by then is
held up by a fault.** -/
structure Config.RunsOut (c : Config σ ω L S E α T) : Prop where
  ends : Acc (fun c₂ c₁ => Step nothing c₁ c₂) c
  held : ∀ c', Reach nothing c c' → (∀ c'', ¬ Step nothing c' c'') →
    ∀ t, c'.threads t ≠ none → c'.HeldUp t

/-- Locks in order give it, whatever the calls. -/
theorem InOrder.runsOut [Preorder R] [WellFoundedGT R] {rank : L → R}
    {c : Config σ ω L S E α T} {ts : Finset T} (hord : InOrder rank c) (hts : c.Within ts) :
    c.RunsOut where
  ends := acc_nothing hts
  held c' hr hstuck t ht := by
    have hord' : InOrder rank c' := Reach.inOrder (fun _ _ _ _ ha => ha.elim) hr hord
    exact hord'.heldUp hstuck ht

/-! ## 4. Calls that all return -/

/-- At an outlined point no thread is at a fault. -/
theorem Outlined.not_faults {D : Discipline σ ω L T γ} {c : Config σ ω L S E α T}
    (hc : Outlined D c) (t : T) : ¬ c.Faults t := by
  rintro ⟨β, f, obs, k, w, e, ht, hf⟩
  obtain ⟨G, H, hby⟩ := hc
  obtain ⟨hout, -⟩ := hby.run t _ ht
  obtain ⟨b, s', -, hok, -⟩ := hout c.s G hby.inv hby.excl rfl
  rw [hf] at hok
  cases hok

/-- **A schedule that starts nothing new comes to an end, and every call has returned by
then.** -/
structure Config.RunsDown (c : Config σ ω L S E α T) : Prop where
  ends : Acc (fun c₂ c₁ => Step nothing c₁ c₂) c
  idle : ∀ c', Reach nothing c c' → (∀ c'', ¬ Step nothing c' c'') → c'.Idle

/-- Outlined points and locks in order give it: what is not held up has returned. -/
theorem Outlined.runsDown {D : Discipline σ ω L T γ} {c : Config σ ω L S E α T}
    (hout : Outlined D c) (h : c.RunsOut) : c.RunsDown where
  ends := h.ends
  idle c' hr hstuck t := by
    by_contra ht
    obtain ⟨u, -, hu⟩ := h.held c' hr hstuck t ht
    have hout' : Outlined D c' :=
      Reach.outlined (fun _ _ _ _ _ _ _ _ _ ha => ha.elim) hr hout
    exact hout'.not_faults u hu

/-- So every configuration of the kind can be run until it is idle. -/
theorem Config.RunsDown.exists_idle {c : Config σ ω L S E α T} (h : c.RunsDown) :
    ∃ c', Reach nothing c c' ∧ c'.Idle := by
  obtain ⟨hacc, hidle⟩ := h
  induction hacc with
  | intro c _ ih =>
    by_cases hstep : ∃ c'', Step nothing c c''
    · obtain ⟨c1, h1⟩ := hstep
      obtain ⟨c', hr, hc'⟩ := ih c1 h1 fun c2 h2 => hidle c2 (.head h1 h2)
      exact ⟨c', .head h1 hr, hc'⟩
    · exact ⟨c, .refl, hidle c .refl fun c'' h => hstep ⟨c'', h⟩⟩

/-- What starts nothing is a schedule of every kind. -/
theorem Reach.of_nothing {adm : Admit σ ω L S E α T} {c c' : Config σ ω L S E α T}
    (hr : Reach nothing c c') : Reach adm c c' :=
  Reach.mono (fun _ _ _ _ ha => ha.elim) hr

end Prog
