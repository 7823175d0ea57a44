/-
# Weakest liberal preconditions

`wlp intr p Q s`: if `p`, started in `s` and interrupted where `intr` says, returns, then it
returns with `Q`.  It says nothing of a run that faults or waits for ever, and it does not see the
locks, so it holds whichever of them are held.

There is one rule for each kind of node in front of the rest of a program, and `wlp_bind` for a
whole program in front of it.

`wlpf intr F p Q s` says besides that the run does not end in a fault of `F`.  It has the same
rules, and `wlpf_wlp` forgets the faults.
-/
import Simplefs.Lib.Prog

namespace Prog

variable {σ ω L S E α β : Type}

/-- The weakest liberal precondition, by the program's nodes. -/
def wlp (intr : S → Bool) : Prog σ ω L S E α → (α → σ → Prop) → σ → Prop
  | .ret a, Q, s => Q a s
  | .act f _ k, Q, s => ∀ b s', f s = .ok (b, s') → wlp intr (k b) Q s'
  | .acquire site _ k, Q, s => wlp intr (k (intr site)) Q s
  | .release _ p, Q, s => wlp intr p Q s

variable {intr : S → Bool} {Q Q' : α → σ → Prop} {s : σ}

/-! ## 1. Soundness -/

/-- **What a program returns with.** -/
theorem wlp_run [DecidableEq L] {p : Prog σ ω L S E α} {lk lk' : LockState L} {a : α} {s' : σ}
    (h : wlp intr p Q s) (hr : run intr p lk s = (.returned a s', lk')) : Q a s' := by
  induction p generalizing lk s with
  | ret b =>
    cases hr
    exact h
  | act f obs k ih =>
    rw [run] at hr
    cases hf : f s with
    | error e =>
      rw [hf] at hr
      cases hr
    | ok r =>
      rw [hf] at hr
      exact ih _ (h r.1 r.2 hf) hr
  | acquire site l k ih =>
    rw [run] at hr
    rw [wlp] at h
    split at hr
    · rename_i hi
      rw [hi] at h
      exact ih _ h hr
    split at hr
    · cases hr
    · rename_i hi _
      rw [Bool.eq_false_iff.mpr hi] at h
      exact ih _ h hr
  | release l p ih => exact ih h hr

/-! ## 2. Rules -/

/-- Consequence. -/
theorem wlp_mono {p : Prog σ ω L S E α} (h : wlp intr p Q s) (hq : ∀ a s', Q a s' → Q' a s') :
    wlp intr p Q' s := by
  induction p generalizing s with
  | ret a => exact hq _ _ h
  | act f obs k ih => exact fun b s' hf => ih b (h b s' hf)
  | acquire site l k ih => exact ih _ h
  | release l p ih => exact ih h

/-- Two postconditions at once. -/
theorem wlp_and {p : Prog σ ω L S E α} (h : wlp intr p Q s) (h' : wlp intr p Q' s) :
    wlp intr p (fun a s' => Q a s' ∧ Q' a s') s := by
  induction p generalizing s with
  | ret a => exact ⟨h, h'⟩
  | act f obs k ih => exact fun b s' hf => ih b (h b s' hf) (h' b s' hf)
  | acquire site l k ih => exact ih _ h h'
  | release l p ih => exact ih h h'

/-- **Programs in sequence.** -/
theorem wlp_bind {p : Prog σ ω L S E β} {k : β → Prog σ ω L S E α} {R : β → σ → Prop}
    (hp : wlp intr p R s) (hk : ∀ b s', R b s' → wlp intr (k b) Q s') :
    wlp intr (p >>= k) Q s := by
  induction p generalizing s with
  | ret b => exact hk b s hp
  | act f obs k' ih => exact fun b s' hf => ih b (hp b s' hf)
  | acquire site l k' ih => exact ih _ hp
  | release l p ih => exact ih hp

theorem wlp_step {f : σ → Except E (β × σ)} {k : β → Prog σ ω L S E α}
    (h : ∀ b s', f s = .ok (b, s') → wlp intr (k b) Q s') : wlp intr (step f >>= k) Q s := h

theorem wlp_stepObs {f : σ → Except E (β × σ)} {obs : β → ω → ω} {k : β → Prog σ ω L S E α}
    (h : ∀ b s', f s = .ok (b, s') → wlp intr (k b) Q s') :
    wlp intr (stepObs f obs >>= k) Q s := h

theorem wlp_read {f : σ → β} {k : β → Prog σ ω L S E α}
    (h : ∀ b, f s = b → wlp intr (k b) Q s) : wlp intr (read f >>= k) Q s := by
  intro b s' hf
  cases hf
  exact h _ rfl

/-- A lock: interrupted or not, the state is the same. -/
theorem wlp_lock {site : S} {l : L} {k : Bool → Prog σ ω L S E α}
    (h : ∀ i, intr site = i → wlp intr (k i) Q s) : wlp intr (lock site l >>= k) Q s := h _ rfl

theorem wlp_unlock {l : L} {k : Unit → Prog σ ω L S E α} (h : wlp intr (k ()) Q s) :
    wlp intr (unlock l >>= k) Q s := h

/-! ## 3. Ruling out faults -/

/-- The weakest liberal precondition, without a fault of `F`. -/
def wlpf (intr : S → Bool) (F : E → Prop) : Prog σ ω L S E α → (α → σ → Prop) → σ → Prop
  | .ret a, Q, s => Q a s
  | .act f _ k, Q, s =>
    (∀ e, f s = .error e → ¬ F e) ∧ ∀ b s', f s = .ok (b, s') → wlpf intr F (k b) Q s'
  | .acquire site _ k, Q, s => wlpf intr F (k (intr site)) Q s
  | .release _ p, Q, s => wlpf intr F p Q s

variable {F : E → Prop}

/-- **What a program does not end in.** -/
theorem wlpf_run [DecidableEq L] {p : Prog σ ω L S E α} {lk lk' : LockState L} {e : E}
    (h : wlpf intr F p Q s) (hr : run intr p lk s = (.faulted e, lk')) : ¬ F e := by
  induction p generalizing lk s with
  | ret b => cases hr
  | act f obs k ih =>
    rw [run] at hr
    cases hf : f s with
    | error err =>
      rw [hf] at hr
      cases hr
      exact h.1 e hf
    | ok r =>
      rw [hf] at hr
      exact ih _ (h.2 r.1 r.2 hf) hr
  | acquire site l k ih =>
    rw [run] at hr
    rw [wlpf] at h
    split at hr
    · rename_i hi
      rw [hi] at h
      exact ih _ h hr
    split at hr
    · cases hr
    · rename_i hi _
      rw [Bool.eq_false_iff.mpr hi] at h
      exact ih _ h hr
  | release l p ih => exact ih h hr

theorem wlpf_wlp {p : Prog σ ω L S E α} (h : wlpf intr F p Q s) : wlp intr p Q s := by
  induction p generalizing s with
  | ret a => exact h
  | act f obs k ih => exact fun b s' hf => ih b (h.2 b s' hf)
  | acquire site l k ih => exact ih _ h
  | release l p ih => exact ih h

/-- Fewer faults to rule out. -/
theorem wlpf_fault {F' : E → Prop} {p : Prog σ ω L S E α} (h : wlpf intr F p Q s)
    (hf : ∀ e, F' e → F e) : wlpf intr F' p Q s := by
  induction p generalizing s with
  | ret a => exact h
  | act f obs k ih => exact ⟨fun e he h' => h.1 e he (hf e h'), fun b s' hb => ih b (h.2 b s' hb)⟩
  | acquire site l k ih => exact ih _ h
  | release l p ih => exact ih h

theorem wlpf_bind {p : Prog σ ω L S E β} {k : β → Prog σ ω L S E α} {R : β → σ → Prop}
    (hp : wlpf intr F p R s) (hk : ∀ b s', R b s' → wlpf intr F (k b) Q s') :
    wlpf intr F (p >>= k) Q s := by
  induction p generalizing s with
  | ret b => exact hk b s hp
  | act f obs k' ih => exact ⟨hp.1, fun b s' hf => ih b (hp.2 b s' hf)⟩
  | acquire site l k' ih => exact ih _ hp
  | release l p ih => exact ih hp

theorem wlpf_step {f : σ → Except E (β × σ)} {k : β → Prog σ ω L S E α}
    (he : ∀ e, f s = .error e → ¬ F e)
    (h : ∀ b s', f s = .ok (b, s') → wlpf intr F (k b) Q s') :
    wlpf intr F (step f >>= k) Q s := ⟨he, h⟩

theorem wlpf_stepObs {f : σ → Except E (β × σ)} {obs : β → ω → ω} {k : β → Prog σ ω L S E α}
    (he : ∀ e, f s = .error e → ¬ F e)
    (h : ∀ b s', f s = .ok (b, s') → wlpf intr F (k b) Q s') :
    wlpf intr F (stepObs f obs >>= k) Q s := ⟨he, h⟩

theorem wlpf_read {f : σ → β} {k : β → Prog σ ω L S E α}
    (h : ∀ b, f s = b → wlpf intr F (k b) Q s) : wlpf intr F (read f >>= k) Q s := by
  refine ⟨fun e he => ?_, fun b s' hf => ?_⟩
  · cases he
  · cases hf
    exact h _ rfl

theorem wlpf_lock {site : S} {l : L} {k : Bool → Prog σ ω L S E α}
    (h : ∀ i, intr site = i → wlpf intr F (k i) Q s) : wlpf intr F (lock site l >>= k) Q s :=
  h _ rfl

theorem wlpf_unlock {l : L} {k : Unit → Prog σ ω L S E α} (h : wlpf intr F (k ()) Q s) :
    wlpf intr F (unlock l >>= k) Q s := h

end Prog
