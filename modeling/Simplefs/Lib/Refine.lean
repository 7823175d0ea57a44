/-
# Labelled runs and refinement

A labelled step relation says what a step lets its surroundings see.  One relation refines
another along a function `abs` if every step of the first, from a state that keeps an invariant,
is a step of the second with the same label; then every run of the first is one of the second.
-/
import Mathlib.Algebra.BigOperators.Group.List.Basic
import Mathlib.Algebra.GroupWithZero.Nat
import Mathlib.Logic.Relation

/-- The runs of a labelled step relation. -/
inductive Trace {S L : Type} (step : S → L → S → Prop) : S → List L → S → Prop
  | nil (s : S) : Trace step s [] s
  | cons {s s' s'' : S} {l : L} {ls : List L} (h : step s l s') (hs : Trace step s' ls s'') :
      Trace step s (l :: ls) s''

namespace Trace

variable {S L : Type} {step : S → L → S → Prop} {s s' s'' : S} {ls ls' : List L}

theorem append (h : Trace step s ls s') (h' : Trace step s' ls' s'') :
    Trace step s (ls ++ ls') s'' := by
  induction h with
  | nil s => exact h'
  | cons hstep _ ih => exact .cons hstep (ih h')

/-- **What every step pays for, every run pays for.** -/
theorem measure {m : S → Nat} {cost : L → Nat}
    (hm : ∀ s l s', step s l s' → m s' + cost l = m s) (h : Trace step s ls s') :
    m s' + (ls.map cost).sum = m s := by
  induction h with
  | nil s => simp
  | cons hstep _ ih =>
    have := hm _ _ _ hstep
    rw [List.map_cons, List.sum_cons]
    omega

/-- A run with labels, of a relation that says no more than the steps do. -/
theorem iff_reflTransGen {r : S → S → Prop} (hr : ∀ s s', r s s' ↔ ∃ l, step s l s') :
    Relation.ReflTransGen r s s' ↔ ∃ ls, Trace step s ls s' := by
  constructor
  · intro h
    induction h with
    | refl => exact ⟨[], .nil s⟩
    | tail _ hstep ih =>
      obtain ⟨ls, ih⟩ := ih
      obtain ⟨l, hl⟩ := (hr _ _).mp hstep
      exact ⟨ls ++ [l], ih.append (.cons hl (.nil _))⟩
  · rintro ⟨ls, h⟩
    induction h with
    | nil s => exact .refl
    | cons hstep _ ih => exact ih.head ((hr _ _).mpr ⟨_, hstep⟩)

end Trace

/-- `abs` carries the steps of one relation to steps of another. -/
structure Simulation {S A L : Type} (step : S → L → S → Prop) (astep : A → L → A → Prop) where
  inv : S → Prop
  abs : S → A
  keeps : ∀ s l s', inv s → step s l s' → inv s'
  follows : ∀ s l s', inv s → step s l s' → astep (abs s) l (abs s')

/-- **Refinement of whole runs.** -/
theorem Simulation.trace {S A L : Type} {step : S → L → S → Prop} {astep : A → L → A → Prop}
    (sim : Simulation step astep) {s s' : S} {ls : List L} (h : Trace step s ls s')
    (hs : sim.inv s) : sim.inv s' ∧ Trace astep (sim.abs s) ls (sim.abs s') := by
  induction h with
  | nil s => exact ⟨hs, .nil _⟩
  | cons hstep _ ih =>
    obtain ⟨hi, htr⟩ := ih (sim.keeps _ _ _ hs hstep)
    exact ⟨hi, .cons (sim.follows _ _ _ hs hstep) htr⟩
