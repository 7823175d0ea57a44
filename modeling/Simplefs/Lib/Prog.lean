/-
# Programs over shared state and interruptible locks

A program is a tree of four kinds of node: it returns, it runs one piece of straight-line code
on the shared state (`act`), it tries to acquire a lock and learns whether a signal interrupted
it (`acquire`), or it releases a lock (`release`).  A piece of straight-line code either
succeeds or runs into undefined behaviour, which is a `fault`.

The same tree is read three ways:

* `run` executes it alone, under a choice of which acquisitions are interrupted, and records
  what happens to the locks;
* `Machine.lean` interleaves any number of them at the granularity of the nodes;
* an outline (`Machine.lean`) is the proof rule: checked node by node, it carries an invariant
  through both of the readings above.

`act` also carries an auxiliary function `obs`: it updates what the running thread publishes
about itself, and no program can read it back.
-/
import Mathlib.Logic.Function.Basic
import Mathlib.Tactic.Common

/-- Programs over a shared state `σ`, locks `L` acquired at sites `S`, faults `E` and
published observations `ω`, returning an `α`. -/
inductive Prog (σ ω L S E : Type) (α : Type) : Type 1 where
  | ret (a : α)
  | act {β : Type} (f : σ → Except E (β × σ)) (obs : β → ω → ω) (k : β → Prog σ ω L S E α)
  | acquire (site : S) (l : L) (k : Bool → Prog σ ω L S E α)
  | release (l : L) (p : Prog σ ω L S E α)

namespace Prog

variable {σ ω L S E α β γ : Type}

/-! ## 1. Sequencing -/

/-- Run `p`, then `q` on what it returned. -/
def bind : Prog σ ω L S E α → (α → Prog σ ω L S E β) → Prog σ ω L S E β
  | .ret a, q => q a
  | .act f obs k, q => .act f obs fun b => (k b).bind q
  | .acquire site l k, q => .acquire site l fun i => (k i).bind q
  | .release l p, q => .release l (p.bind q)

instance : Monad (Prog σ ω L S E) where
  pure := .ret
  bind := .bind

theorem bind_ret (p : Prog σ ω L S E α) : p.bind .ret = p := by
  induction p with
  | ret a => rfl
  | act f obs k ih => simp only [bind]; congr 1; funext b; exact ih b
  | acquire site l k ih => simp only [bind]; congr 1; funext i; exact ih i
  | release l p ih => simp only [bind, ih]

theorem bind_assoc (p : Prog σ ω L S E α) (q : α → Prog σ ω L S E β)
    (r : β → Prog σ ω L S E γ) : (p.bind q).bind r = p.bind fun a => (q a).bind r := by
  induction p with
  | ret a => rfl
  | act f obs k ih => simp only [bind]; congr 1; funext b; exact ih b
  | acquire site l k ih => simp only [bind]; congr 1; funext i; exact ih i
  | release l p ih => simp only [bind, ih]

instance : LawfulMonad (Prog σ ω L S E) :=
  LawfulMonad.mk' _ (fun p => bind_ret p) (fun _ _ => rfl) bind_assoc

/-- Straight-line code that publishes nothing new. -/
def step (f : σ → Except E (β × σ)) : Prog σ ω L S E β := .act f (fun _ w => w) .ret

/-- Straight-line code after which the thread publishes `obs`. -/
def stepObs (f : σ → Except E (β × σ)) (obs : β → ω → ω) : Prog σ ω L S E β := .act f obs .ret

/-- Straight-line code that only reads the state. -/
def read (f : σ → β) : Prog σ ω L S E β := step fun s => .ok (f s, s)

/-- Acquire `l` unless a signal arrives: `true` means interrupted, and the lock not taken. -/
def lock (site : S) (l : L) : Prog σ ω L S E Bool := .acquire site l .ret

/-- Release `l`. -/
def unlock (l : L) : Prog σ ω L S E Unit := .release l (.ret ())

/-! ## 2. Running a program alone -/

/-- What one thread knows of the locks: which it holds, and whether it ever released a lock it
did not hold. -/
structure LockState (L : Type) where
  held : L → Bool
  stray : Bool

/-- How a run ends: it returned, it ran into undefined behaviour, or it waits for ever for a
lock that it holds itself. -/
inductive Ending (σ L E α : Type) where
  | returned (a : α) (s : σ)
  | faulted (e : E)
  | blocked (l : L)

/-- No lock held, none released by mistake. -/
def LockState.free : LockState L := ⟨fun _ => false, false⟩

@[simp] theorem LockState.free_held (l : L) : (free : LockState L).held l = false := rfl

section Run

variable [DecidableEq L]

namespace LockState

/-- The lock `l` is taken. -/
def take (lk : LockState L) (l : L) : LockState L :=
  ⟨Function.update lk.held l true, lk.stray⟩

/-- The lock `l` is released, rightly or not. -/
def drop (lk : LockState L) (l : L) : LockState L :=
  ⟨Function.update lk.held l false, lk.stray || !lk.held l⟩

@[simp] theorem take_held (lk : LockState L) (l l' : L) :
    (lk.take l).held l' = if l' = l then true else lk.held l' := Function.update_apply _ _ _ _

@[simp] theorem take_stray (lk : LockState L) (l : L) : (lk.take l).stray = lk.stray := rfl

@[simp] theorem drop_held (lk : LockState L) (l l' : L) :
    (lk.drop l).held l' = if l' = l then false else lk.held l' := Function.update_apply _ _ _ _

@[simp] theorem drop_stray (lk : LockState L) (l : L) :
    (lk.drop l).stray = (lk.stray || !lk.held l) := rfl

/-- Releasing a lock one has just taken restores the state one started from. -/
@[simp] theorem drop_take (lk : LockState L) (l : L) (h : lk.held l = false) :
    (lk.take l).drop l = lk := by
  obtain ⟨held, stray⟩ := lk
  simp only [take, drop, Function.update_idem, Function.update_self, Bool.not_true,
    Bool.or_false, mk.injEq, and_true]
  exact Function.update_eq_iff.mpr ⟨h.symm, fun _ _ => rfl⟩

end LockState

/-- `run intr p lk s`: the thread runs `p` alone from state `s`, holding the locks `lk`;
`intr` says which acquisition sites a signal interrupts. -/
def run (intr : S → Bool) : Prog σ ω L S E α → LockState L → σ → Ending σ L E α × LockState L
  | .ret a, lk, s => (.returned a s, lk)
  | .act f _ k, lk, s =>
    match f s with
    | .error e => (.faulted e, lk)
    | .ok (b, s') => run intr (k b) lk s'
  | .acquire site l k, lk, s =>
    if intr site then run intr (k true) lk s
    else if lk.held l then (.blocked l, lk)
    else run intr (k false) (lk.take l) s
  | .release l p, lk, s => run intr p (lk.drop l) s

variable (intr : S → Bool) (lk : LockState L) (s : σ)

@[simp] theorem run_pure (a : α) :
    run intr (pure a : Prog σ ω L S E α) lk s = (.returned a s, lk) := rfl

theorem run_step (f : σ → Except E (β × σ)) : run intr (step f : Prog σ ω L S E β) lk s =
    match f s with
    | .error e => (.faulted e, lk)
    | .ok (b, s') => (.returned b s', lk) := by
  simp only [step, run]

/-- **Sequencing runs in sequence**: the second program starts where the first one returned. -/
theorem run_bind (p : Prog σ ω L S E α) (q : α → Prog σ ω L S E β) : run intr (p >>= q) lk s =
    match run intr p lk s with
    | (.returned a s', lk') => run intr (q a) lk' s'
    | (.faulted e, lk') => (.faulted e, lk')
    | (.blocked l, lk') => (.blocked l, lk') := by
  show run intr (p.bind q) lk s = _
  induction p generalizing lk s with
  | ret a => rfl
  | act f obs k ih =>
    simp only [bind, run]
    cases f s with
    | error e => rfl
    | ok r => exact ih r.1 lk r.2
  | acquire site l k ih =>
    simp only [bind, run]
    split
    · exact ih true lk s
    · split
      · rfl
      · exact ih false (lk.take l) s
  | release l p ih => exact ih (lk.drop l) s

@[simp] theorem run_step_bind (f : σ → Except E (β × σ)) (q : β → Prog σ ω L S E α) :
    run intr (step f >>= q) lk s =
      match f s with
      | .error e => (.faulted e, lk)
      | .ok (b, s') => run intr (q b) lk s' := by
  show run intr (.act f _ q) lk s = _
  simp only [run]

@[simp] theorem run_stepObs_bind (f : σ → Except E (β × σ)) (obs : β → ω → ω)
    (q : β → Prog σ ω L S E α) :
    run intr (stepObs f obs >>= q) lk s =
      match f s with
      | .error e => (.faulted e, lk)
      | .ok (b, s') => run intr (q b) lk s' := by
  show run intr (.act f obs q) lk s = _
  simp only [run]

@[simp] theorem run_read_bind (f : σ → β) (q : β → Prog σ ω L S E α) :
    run intr (read f >>= q) lk s = run intr (q (f s)) lk s := rfl

@[simp] theorem run_lock_bind (site : S) (l : L) (q : Bool → Prog σ ω L S E α) :
    run intr (lock site l >>= q) lk s =
      if intr site then run intr (q true) lk s
      else if lk.held l then (.blocked l, lk)
      else run intr (q false) (lk.take l) s := rfl

@[simp] theorem run_unlock_bind (l : L) (q : Unit → Prog σ ω L S E α) :
    run intr (unlock l >>= q) lk s = run intr (q ()) (lk.drop l) s := rfl

end Run

/-! ## 3. Lock balance -/

section Balance

variable [DecidableEq L]

/-- **The locks stay in order.**  The rest of a program, of which `held` are the locks it holds by
now, releases only locks that it holds and waits for none of them, and if it returns it holds what
it held at its start, `home`.

Undefined behaviour ends the thread where `stops` says so.  Elsewhere the code goes on, with any
result and in any state of the memory: what follows has to keep the locks in order in all of
them. -/
def Balanced (intr : S → Bool) (stops : E → Bool) (home : L → Bool) :
    Prog σ ω L S E α → (L → Bool) → σ → Prop
  | .ret _, held, _ => held = home
  | .act f _ k, held, s =>
    match f s with
    | .error e => stops e = false → ∀ b s', Balanced intr stops home (k b) held s'
    | .ok (b, s') => Balanced intr stops home (k b) held s'
  | .acquire site l k, held, s =>
    if intr site then Balanced intr stops home (k true) held s
    else held l = false ∧ Balanced intr stops home (k false) (Function.update held l true) s
  | .release l p, held, s =>
    held l = true ∧ Balanced intr stops home p (Function.update held l false) s

/-- Releasing a lock one has just taken restores the state one started from. -/
theorem update_release {held : L → Bool} {l : L} (h : held l = false) :
    Function.update (Function.update held l true) l false = held := by
  rw [Function.update_idem, ← h, Function.update_eq_self]

variable {intr : S → Bool} {stops : E → Bool} {home held : L → Bool} {s : σ}

@[simp] theorem balanced_pure {a : α} :
    Balanced intr stops home (pure a : Prog σ ω L S E α) held s ↔ held = home := Iff.rfl

theorem balanced_step {f : σ → Except E (β × σ)} {k : β → Prog σ ω L S E α} :
    Balanced intr stops home (step f >>= k) held s ↔
      match f s with
      | .error e => stops e = false → ∀ b s', Balanced intr stops home (k b) held s'
      | .ok (b, s') => Balanced intr stops home (k b) held s' := by
  change Balanced intr stops home (.act f _ k) held s ↔ _
  simp only [Balanced]

theorem balanced_stepObs {f : σ → Except E (β × σ)} {obs : β → ω → ω}
    {k : β → Prog σ ω L S E α} :
    Balanced intr stops home (stepObs f obs >>= k) held s ↔
      match f s with
      | .error e => stops e = false → ∀ b s', Balanced intr stops home (k b) held s'
      | .ok (b, s') => Balanced intr stops home (k b) held s' := by
  change Balanced intr stops home (.act f obs k) held s ↔ _
  simp only [Balanced]

theorem balanced_read {f : σ → β} {k : β → Prog σ ω L S E α} :
    Balanced intr stops home (read f >>= k) held s ↔ Balanced intr stops home (k (f s)) held s :=
  Iff.rfl

theorem balanced_lock {site : S} {l : L} {k : Bool → Prog σ ω L S E α} :
    Balanced intr stops home (lock site l >>= k) held s ↔
      if intr site then Balanced intr stops home (k true) held s
      else held l = false ∧
        Balanced intr stops home (k false) (Function.update held l true) s := Iff.rfl

theorem balanced_unlock {l : L} {k : Unit → Prog σ ω L S E α} :
    Balanced intr stops home (unlock l >>= k) held s ↔
      held l = true ∧ Balanced intr stops home (k ()) (Function.update held l false) s := Iff.rfl

/-- Code that keeps the locks in order from every state does so after any step. -/
theorem balanced_step_of_forall {f : σ → Except E (β × σ)} {k : β → Prog σ ω L S E α}
    (h : ∀ b s', Balanced intr stops home (k b) held s') :
    Balanced intr stops home (step f >>= k) held s := by
  rw [balanced_step]
  split
  · exact fun _ => h
  · exact h _ _

/-- Code that leaves the locks in disorder from every state does so after any step that the thread
survives. -/
theorem not_balanced_step_of_forall {f : σ → Except E (β × σ)} {k : β → Prog σ ω L S E α} (b : β)
    (h : ∀ b s', ¬ Balanced intr stops home (k b) held s')
    (hstops : ∀ e, f s = .error e → stops e = false) :
    ¬ Balanced intr stops home (step f >>= k) held s := by
  rw [balanced_step]
  cases hf : f s with
  | error e => exact fun hbal => h b s (hbal (hstops e hf) b s)
  | ok r => exact h _ _

/-- **What it means for a run**: no lock is released that is not held, none is waited for that is,
and at the return the locks are those of the start. -/
theorem Balanced.run {p : Prog σ ω L S E α} {lk lk' : LockState L} {ending : Ending σ L E α}
    (h : Balanced intr stops home p lk.held s) (hrun : run intr p lk s = (ending, lk')) :
    lk'.stray = lk.stray ∧ (∀ l, ending ≠ .blocked l) ∧
      ∀ a s', ending = .returned a s' → lk'.held = home := by
  induction p generalizing lk s with
  | ret a =>
    cases hrun
    exact ⟨rfl, nofun, fun _ _ _ => h⟩
  | act f obs k ih =>
    simp only [Balanced] at h
    simp only [Prog.run] at hrun
    cases hf : f s with
    | error e =>
      rw [hf] at hrun
      cases hrun
      exact ⟨rfl, nofun, nofun⟩
    | ok r =>
      rw [hf] at h hrun
      exact ih r.1 h hrun
  | acquire site l k ih =>
    simp only [Balanced] at h
    simp only [Prog.run] at hrun
    split at hrun
    · rename_i hi
      rw [if_pos hi] at h
      exact ih true h hrun
    · rename_i hi
      rw [if_neg hi] at h
      rw [h.1, if_neg Bool.false_ne_true] at hrun
      have hnext : Balanced intr stops home (k false) (lk.take l).held s := h.2
      have hend := ih false hnext hrun
      exact hend
  | release l p ih =>
    obtain ⟨hheld, hrest⟩ := h
    have hnext : Balanced intr stops home p (lk.drop l).held s := hrest
    have hstray : (lk.drop l).stray = lk.stray := by
      rw [LockState.drop_stray, hheld, Bool.not_true, Bool.or_false]
    obtain ⟨h1, h2⟩ := ih hnext hrun
    exact ⟨h1.trans hstray, h2⟩

end Balance

end Prog
