/-
# Programs that may be cut off

A program (`Prog.lean`) runs alone, but the state it works on may change under it: `bg` is what
goes on in the background.  The machine may stop at any point of such a run.

`Moves` is one step of the run, and `wpc intr bg C p Q s` is the proof rule for it: at every point
of a run of `p` from `s`, the background's steps included, the state satisfies `C`, and where `p`
returns it satisfies `Q`.  The rules are those of `Wlp.lean`, except that what is known in front of
a piece of code has to hold whatever the background does (`Stable`).  `Comes` says the opposite:
some run does come to such a point.
-/
import Mathlib.Logic.Relation
import Simplefs.Lib.Prog

namespace Prog

variable {σ ω L S E α β : Type}

/-! ## 1. Runs with a background -/

/-- A point of a run: what is left of the program, the locks and the state. -/
structure Point (σ ω L S E α : Type) where
  prog : Prog σ ω L S E α
  locks : LockState L
  state : σ

/-- One step: of the background, or of the program. -/
inductive Moves [DecidableEq L] (intr : S → Bool) (bg : σ → σ → Prop) :
    Point σ ω L S E α → Point σ ω L S E α → Prop
  | bg {p lk s s'} (h : bg s s') : Moves intr bg ⟨p, lk, s⟩ ⟨p, lk, s'⟩
  | act {lk s s'} {β : Type} {f : σ → Except E (β × σ)} {obs : β → ω → ω} {k} {b : β}
      (h : f s = .ok (b, s')) : Moves intr bg ⟨.act f obs k, lk, s⟩ ⟨k b, lk, s'⟩
  | interrupt {site l k lk s} (h : intr site = true) :
      Moves intr bg ⟨.acquire site l k, lk, s⟩ ⟨k true, lk, s⟩
  | acquire {site l k lk s} (h : intr site = false) (hl : lk.held l = false) :
      Moves intr bg ⟨.acquire site l k, lk, s⟩ ⟨k false, lk.take l, s⟩
  | release {l p lk s} : Moves intr bg ⟨.release l p, lk, s⟩ ⟨p, lk.drop l, s⟩

/-- The points that a run passes. -/
def Passes [DecidableEq L] (intr : S → Bool) (bg : σ → σ → Prop) :
    Point σ ω L S E α → Point σ ω L S E α → Prop :=
  Relation.ReflTransGen (Moves intr bg)

/-! ## 2. The proof rule -/

/-- What the background cannot change. -/
def Stable (bg : σ → σ → Prop) (P : σ → Prop) : Prop := ∀ s s', P s → bg s s' → P s'

/-- At every point `C`, and at the end `Q`. -/
def wpc (intr : S → Bool) (bg : σ → σ → Prop) (C : σ → Prop) :
    Prog σ ω L S E α → (α → σ → Prop) → σ → Prop
  | .ret a, Q, s => ∀ s', Relation.ReflTransGen bg s s' → C s' ∧ Q a s'
  | .act f _ k, Q, s => ∀ s', Relation.ReflTransGen bg s s' →
      C s' ∧ ∀ b s'', f s' = .ok (b, s'') → wpc intr bg C (k b) Q s''
  | .acquire site _ k, Q, s => wpc intr bg C (k (intr site)) Q s
  | .release _ p, Q, s => wpc intr bg C p Q s

variable {intr : S → Bool} {bg : σ → σ → Prop} {C : σ → Prop} {Q Q' : α → σ → Prop}
  {p : Prog σ ω L S E α} {s : σ}

theorem Stable.star {P : σ → Prop} (h : Stable bg P) {s s' : σ} (hs : P s)
    (hbg : Relation.ReflTransGen bg s s') : P s' := by
  induction hbg with
  | refl => exact hs
  | tail _ hstep ih => exact h _ _ ih hstep

theorem wpc_here (h : wpc intr bg C p Q s) : C s := by
  induction p with
  | ret a => exact (h s .refl).1
  | act f obs k ih => exact (h s .refl).1
  | acquire site l k ih => exact ih _ h
  | release l p ih => exact ih h

theorem wpc_bg (h : wpc intr bg C p Q s) {s' : σ} (hbg : bg s s') : wpc intr bg C p Q s' := by
  induction p with
  | ret a => exact fun s'' hs => h s'' (.head hbg hs)
  | act f obs k ih => exact fun s'' hs => h s'' (.head hbg hs)
  | acquire site l k ih => exact ih _ h
  | release l p ih => exact ih h

/-- **One step keeps what is known.** -/
theorem wpc_moves [DecidableEq L] {x y : Point σ ω L S E α} (hmove : Moves intr bg x y)
    (h : wpc intr bg C x.prog Q x.state) : wpc intr bg C y.prog Q y.state := by
  cases hmove with
  | bg hbg => exact wpc_bg h hbg
  | act hf => exact (h _ .refl).2 _ _ hf
  | interrupt hi =>
    rw [wpc, hi] at h
    exact h
  | acquire hi hl =>
    rw [wpc, hi] at h
    exact h
  | release => exact h

/-- **Wherever the run is cut off**, `C` holds. -/
theorem wpc_passes [DecidableEq L] {x y : Point σ ω L S E α} (hpass : Passes intr bg x y)
    (h : wpc intr bg C x.prog Q x.state) : wpc intr bg C y.prog Q y.state := by
  induction hpass with
  | refl => exact h
  | tail _ hmove ih => exact wpc_moves hmove ih

/-- **Where it returns**, `Q` holds, and goes on holding. -/
theorem wpc_returns [DecidableEq L] {x : Point σ ω L S E α} {a : α} {lk : LockState L} {t : σ}
    (hpass : Passes intr bg x ⟨.ret a, lk, t⟩) (h : wpc intr bg C x.prog Q x.state) : Q a t :=
  (wpc_passes hpass h t .refl).2

/-! ## 3. Rules -/

theorem wpc_mono {C' : σ → Prop} (h : wpc intr bg C p Q s) (hc : ∀ s', C s' → C' s')
    (hq : ∀ a s', Q a s' → Q' a s') : wpc intr bg C' p Q' s := by
  induction p generalizing s with
  | ret a => exact fun s' hs => ⟨hc _ (h s' hs).1, hq _ _ (h s' hs).2⟩
  | act f obs k ih =>
    exact fun s' hs => ⟨hc _ (h s' hs).1, fun b s'' hf => ih b ((h s' hs).2 b s'' hf)⟩
  | acquire site l k ih => exact ih _ h
  | release l p ih => exact ih h

/-- **Programs in sequence.** -/
theorem wpc_bind {p : Prog σ ω L S E β} {k : β → Prog σ ω L S E α} {R : β → σ → Prop}
    (hp : wpc intr bg C p R s) (hk : ∀ b s', R b s' → wpc intr bg C (k b) Q s') :
    wpc intr bg C (p >>= k) Q s := by
  induction p generalizing s with
  | ret b => exact hk b s (hp s .refl).2
  | act f obs k' ih =>
    exact fun s' hs => ⟨(hp s' hs).1, fun b s'' hf => ih b ((hp s' hs).2 b s'' hf)⟩
  | acquire site l k' ih => exact ih _ hp
  | release l p ih => exact ih hp

/-- What a program returns, changed at the end. -/
theorem wpc_map {p : Prog σ ω L S E β} {f : β → α} (hp : wpc intr bg C p (fun b => Q (f b)) s) :
    wpc intr bg C (p >>= fun b => pure (f b)) Q s := by
  induction p generalizing s with
  | ret b => exact hp
  | act f' obs k ih =>
    exact fun s' hs => ⟨(hp s' hs).1, fun b s'' hf => ih b ((hp s' hs).2 b s'' hf)⟩
  | acquire site l k ih => exact ih _ hp
  | release l p ih => exact ih hp

variable {P : σ → Prop}

theorem wpc_pure {a : α} (hP : P s) (hst : Stable bg P) (hC : ∀ s', P s' → C s' ∧ Q a s') :
    wpc intr bg C (pure a : Prog σ ω L S E α) Q s := fun s' hs => hC s' (hst.star hP hs)

theorem wpc_stepObs {f : σ → Except E (β × σ)} {obs : β → ω → ω} {k : β → Prog σ ω L S E α}
    (hP : P s) (hst : Stable bg P) (hC : ∀ s', P s' → C s')
    (h : ∀ s' b s'', P s' → f s' = .ok (b, s'') → wpc intr bg C (k b) Q s'') :
    wpc intr bg C (stepObs f obs >>= k) Q s := fun s' hs =>
  have hP' := hst.star hP hs
  ⟨hC s' hP', fun b s'' hf => h s' b s'' hP' hf⟩

theorem wpc_step {f : σ → Except E (β × σ)} {k : β → Prog σ ω L S E α}
    (hP : P s) (hst : Stable bg P) (hC : ∀ s', P s' → C s')
    (h : ∀ s' b s'', P s' → f s' = .ok (b, s'') → wpc intr bg C (k b) Q s'') :
    wpc intr bg C (step f >>= k) Q s := wpc_stepObs hP hst hC h

theorem wpc_read {f : σ → β} {k : β → Prog σ ω L S E α} (hP : P s) (hst : Stable bg P)
    (hC : ∀ s', P s' → C s') (h : ∀ s', P s' → wpc intr bg C (k (f s')) Q s') :
    wpc intr bg C (read f >>= k) Q s := by
  refine wpc_step hP hst hC fun s' b s'' hP' hf => ?_
  cases hf
  exact h s' hP'

/-- A lock, interrupted or not. -/
theorem wpc_lock {site : S} {l : L} {k : Bool → Prog σ ω L S E α}
    (h : ∀ i, intr site = i → wpc intr bg C (k i) Q s) : wpc intr bg C (lock site l >>= k) Q s :=
  h _ rfl

theorem wpc_unlock {l : L} {k : Unit → Prog σ ω L S E α} (h : wpc intr bg C (k ()) Q s) :
    wpc intr bg C (unlock l >>= k) Q s := h

/-! ## 4. Points that a run may come to -/

section Comes

variable [DecidableEq L] {intr : S → Bool} {bg : σ → σ → Prop} {P : σ → Prop}
  {p : Prog σ ω L S E β} {k : β → Prog σ ω L S E α} {lk lk' : LockState L} {s s' : σ}

/-- A run may come to a point where `P` holds. -/
def Comes (intr : S → Bool) (bg : σ → σ → Prop) (P : σ → Prop) (x : Point σ ω L S E α) : Prop :=
  ∃ y, Passes intr bg x y ∧ P y.state

theorem Passes.bind {x y : Point σ ω L S E β} (h : Passes intr bg x y)
    (k : β → Prog σ ω L S E α) :
    Passes intr bg ⟨x.prog >>= k, x.locks, x.state⟩ ⟨y.prog >>= k, y.locks, y.state⟩ := by
  induction h with
  | refl => exact .refl
  | tail _ hmove ih =>
    cases hmove with
    | bg hbg => exact ih.tail (.bg hbg)
    | act hf => exact ih.tail (.act hf)
    | interrupt hi => exact ih.tail (.interrupt hi)
    | acquire hi hl => exact ih.tail (.acquire hi hl)
    | release => exact ih.tail .release

theorem comes_here {x : Point σ ω L S E α} (h : P x.state) : Comes intr bg P x := ⟨x, .refl, h⟩

/-- In the first of two programs ... -/
theorem Comes.bind (h : Comes intr bg P ⟨p, lk, s⟩) : Comes intr bg P ⟨p >>= k, lk, s⟩ := by
  obtain ⟨y, hpass, hy⟩ := h
  exact ⟨_, hpass.bind k, hy⟩

/-- ... or in the second, once the first has returned. -/
theorem comes_bind {a : β} (hp : Passes intr bg ⟨p, lk, s⟩ ⟨.ret a, lk', s'⟩)
    (h : Comes intr bg P ⟨k a, lk', s'⟩) : Comes intr bg P ⟨p >>= k, lk, s⟩ := by
  obtain ⟨y, hpass, hy⟩ := h
  exact ⟨y, (hp.bind k).trans hpass, hy⟩

theorem comes_stepObs {f : σ → Except E (β × σ)} {obs : β → ω → ω} {b : β}
    (hf : f s = .ok (b, s')) (h : Comes intr bg P ⟨k b, lk, s'⟩) :
    Comes intr bg P ⟨stepObs f obs >>= k, lk, s⟩ := comes_bind (.single (.act hf)) h

theorem comes_read {f : σ → β} (h : Comes intr bg P ⟨k (f s), lk, s⟩) :
    Comes intr bg P ⟨read f >>= k, lk, s⟩ := comes_stepObs rfl h

theorem comes_lock {site : S} {l : L} {k : Bool → Prog σ ω L S E α} (hi : intr site = false)
    (hl : lk.held l = false) (h : Comes intr bg P ⟨k false, lk.take l, s⟩) :
    Comes intr bg P ⟨lock site l >>= k, lk, s⟩ := comes_bind (.single (.acquire hi hl)) h

end Comes
end Prog
