/-
# A search loop that reads before it counts

    while (*p != x && count < n) { count++; p++; }

looks at the element first and at the count second.  Where one of the `n` elements is `x` it
stops at the first of them and has read nothing behind it.  Where none is, it stops behind the
last one, and has read the element there as well: one too many.

The array is a function from positions to elements, so that there is something to read behind
its end.
-/
import Mathlib.Data.Nat.Find
import Mathlib.Tactic.Common

namespace Scan

variable {α : Type}

/-- The first of the `n` positions that holds `x`. -/
structure FirstAt (word : Nat → α) (x : α) (n i : Nat) : Prop where
  lt : i < n
  hit : word i = x
  before : ∀ j, j < i → word j ≠ x

/-- The loop, with `n` turns left and the pointer at position `i`: the positions it reads, and the
one it stops at. -/
def loop [DecidableEq α] (word : Nat → α) (x : α) : Nat → Nat → List Nat × Nat
  | 0, i => ([i], i)
  | n + 1, i =>
    if word i = x then ([i], i)
    else (i :: (loop word x n (i + 1)).1, (loop word x n (i + 1)).2)

variable {word word' : Nat → α} {x : α}

/-- A position that holds `x` has a first one before it. -/
theorem exists_firstAt [DecidableEq α] {n : Nat} (h : ∃ i, i < n ∧ word i = x) :
    ∃ i, FirstAt word x n i := by
  refine ⟨Nat.find h, (Nat.find_spec h).1, (Nat.find_spec h).2, fun j hj hx => ?_⟩
  exact Nat.find_min h hj ⟨Nat.lt_trans hj (Nat.find_spec h).1, hx⟩

/-- The first position is a matter of the `n` elements. -/
theorem FirstAt.congr {n i : Nat} (h : FirstAt word x n i)
    (hw : ∀ j, j < n → word' j = word j) : FirstAt word' x n i where
  lt := h.lt
  hit := (hw i h.lt).trans h.hit
  before j hj := by
    rw [hw j (Nat.lt_trans hj h.lt)]
    exact h.before j hj

variable [DecidableEq α]

/-- **The loop stops after `k` steps**, at an element that is `x` or at the end, and has read
everything up to there. -/
theorem loop_eq {n k i : Nat} (hk : k ≤ n) (before : ∀ j, j < k → word (i + j) ≠ x)
    (hit : k < n → word (i + k) = x) :
    loop word x n i = (List.range' i (k + 1), i + k) := by
  induction n generalizing i k with
  | zero =>
    obtain rfl : k = 0 := Nat.le_zero.mp hk
    rfl
  | succ n ih =>
    cases k with
    | zero =>
      have hx : word i = x := hit (Nat.succ_pos n)
      rw [loop, if_pos hx, List.range'_one, Nat.add_zero]
    | succ k =>
      have hne : word i ≠ x := before 0 (Nat.succ_pos k)
      have hnext : loop word x n (i + 1) = (List.range' (i + 1) (k + 1), i + 1 + k) := by
        refine ih (Nat.le_of_succ_le_succ hk) (fun j hj => ?_) fun hlt => ?_
        · have := before (j + 1) (Nat.succ_lt_succ hj)
          rwa [Nat.add_comm j, ← Nat.add_assoc] at this
        · have := hit (Nat.succ_lt_succ hlt)
          rwa [Nat.add_comm k, ← Nat.add_assoc] at this
      have hcons : List.range' i (k + 1 + 1) = i :: List.range' (i + 1) (k + 1) :=
        List.range'_succ
      rw [loop, if_neg hne, hnext, hcons, Nat.add_assoc, Nat.add_comm 1]

/-- From the start, where one of the elements is `x`. -/
theorem loop_firstAt {n i : Nat} (h : FirstAt word x n i) :
    loop word x n 0 = (List.range (i + 1), i) := by
  have hrun : loop word x n 0 = (List.range' 0 (i + 1), 0 + i) :=
    loop_eq (Nat.le_of_lt h.lt) (fun j hj => by simpa using h.before j hj)
      fun _ => by simpa using h.hit
  rwa [Nat.zero_add, ← List.range_eq_range'] at hrun

/-- **Where none is, it reads one element too many.** -/
theorem loop_absent {n : Nat} (h : ∀ j, j < n → word j ≠ x) :
    loop word x n 0 = (List.range (n + 1), n) := by
  have hrun : loop word x n 0 = (List.range' 0 (n + 1), 0 + n) :=
    loop_eq (Nat.le_refl n) (fun j hj => by simpa using h j hj)
      fun hlt => absurd hlt (Nat.lt_irrefl n)
  rwa [Nat.zero_add, ← List.range_eq_range'] at hrun

end Scan
