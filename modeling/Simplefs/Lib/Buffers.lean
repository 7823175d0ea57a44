/-
# Write-back buffers

A state is kept in memory, and a device holds, block by block, what was last written back of it.
A buffer that is dirty may be written back at any time; `syncDirty` writes it back at once.  Every
buffer counts the references that are held to it.

What a program does to the buffers does not change what it does in memory: `Erases p q` says that
`q` is `p` without the buffers, and `Erases.passes` that each run of `p`, the write-backs of the
kernel included, is in memory a run of `q`.

`Due b` is what a mark leaves: block `b` holds what its buffer holds, or its buffer is dirty and
will be written back.  `Borrows` says of a program that it gives back no reference but its own.
-/
import Simplefs.Lib.Crash

/-- A state in memory behind write-back buffers. -/
structure Buffered (σ B V : Type) where
  mem : σ
  disk : B → V
  dirty : B → Bool
  refs : B → Int

namespace Buffered

variable {σ B V E β : Type} [DecidableEq B]

/-! ## 1. What is done to the buffers -/

/-- `sb_bread`: one more reference. -/
def bread (b : B) (c : Buffered σ B V) : Buffered σ B V :=
  { c with refs := Function.update c.refs b (c.refs b + 1) }

/-- `brelse`: one reference less. -/
def brelse (b : B) (c : Buffered σ B V) : Buffered σ B V :=
  { c with refs := Function.update c.refs b (c.refs b - 1) }

/-- `mark_buffer_dirty`. -/
def markDirty (b : B) (c : Buffered σ B V) : Buffered σ B V :=
  { c with dirty := Function.update c.dirty b true }

/-- A buffer goes to the device. -/
def writeBack (view : σ → B → V) (b : B) (c : Buffered σ B V) : Buffered σ B V :=
  { c with
    disk := Function.update c.disk b (view c.mem b)
    dirty := Function.update c.dirty b false }

/-- `sync_dirty_buffer`. -/
def syncDirty (view : σ → B → V) (b : B) (c : Buffered σ B V) : Buffered σ B V :=
  if c.dirty b then c.writeBack view b else c

/-- Straight-line code that works in memory. -/
def inMemory (f : σ → Except E (β × σ)) (c : Buffered σ B V) : Except E (β × Buffered σ B V) :=
  (f c.mem).map fun r => (r.1, { c with mem := r.2 })

/-- Code that works on the buffers. -/
def onBuffers (g : Buffered σ B V → Buffered σ B V) (c : Buffered σ B V) :
    Except E (Unit × Buffered σ B V) :=
  .ok ((), g c)

/-- What the kernel does by itself: it writes dirty buffers back. -/
inductive Background (view : σ → B → V) : Buffered σ B V → Buffered σ B V → Prop
  | writeBack {c : Buffered σ B V} {b : B} (h : c.dirty b = true) :
      Background view c (c.writeBack view b)

variable {view : σ → B → V} {c c' : Buffered σ B V} {b b' : B}

@[simp] theorem syncDirty_mem : (c.syncDirty view b).mem = c.mem := by
  rw [syncDirty]
  split <;> rfl

theorem syncDirty_clean (c : Buffered σ B V) (b : B) : (c.syncDirty view b).dirty b = false := by
  rw [syncDirty]
  split
  · exact Function.update_self ..
  · rename_i h
    exact eq_false_of_ne_true h

omit [DecidableEq B] in
theorem inMemory_ok {f : σ → Except E (β × σ)} {r : β} :
    inMemory f c = .ok (r, c') ↔ ∃ s, f c.mem = .ok (r, s) ∧ c' = { c with mem := s } := by
  rw [inMemory]
  cases f c.mem with
  | error e => simp [Except.map]
  | ok q =>
    simp only [Except.map, Except.ok.injEq, Prod.mk.injEq]
    constructor
    · rintro ⟨rfl, rfl⟩
      exact ⟨q.2, Prod.ext rfl rfl, rfl⟩
    · rintro ⟨s, hq, rfl⟩
      rw [hq]
      exact ⟨rfl, rfl⟩

theorem Background.mem_eq (h : Background view c c') : c'.mem = c.mem := by
  cases h
  rfl

/-! ## 2. What the device may hold -/

/-- Block `b` holds what its buffer holds, or will once its buffer is written back. -/
def Due (view : σ → B → V) (b : B) (c : Buffered σ B V) : Prop :=
  c.dirty b = true ∨ c.disk b = view c.mem b

theorem due_stable : Prog.Stable (Background view) (Due view b : Buffered σ B V → Prop) := by
  intro c c' h hbg
  cases hbg with
  | @writeBack b' hd =>
    by_cases hb : b = b'
    · subst hb
      right
      change Function.update c.disk b (view c.mem b) b = view c.mem b
      rw [Function.update_self]
    · rcases h with h | h
      · left
        change Function.update c.dirty b' false b = true
        rw [Function.update_of_ne hb, h]
      · right
        change Function.update c.disk b' (view c.mem b') b = view c.mem b
        rw [Function.update_of_ne hb, h]

/-- A buffer that is due is written back by a sync. -/
theorem Due.settled (h : Due view b c) : (c.syncDirty view b).disk b = view c.mem b := by
  rw [Buffered.syncDirty]
  split
  · exact Function.update_self ..
  · rename_i hclean
    exact h.resolve_left hclean

end Buffered

/-! ## 3. A program without its buffers -/

namespace Prog

open Buffered

variable {σ ω L S E α β B V : Type}

/-- `Erases p q`: `q` is what `p` does in memory. -/
inductive Erases : Prog (Buffered σ B V) ω L S E α → Prog σ ω L S E α → Prop
  | ret (a : α) : Erases (.ret a) (.ret a)
  | act {β : Type} {f : σ → Except E (β × σ)} {obs : β → ω → ω} {k k'}
      (h : ∀ b, Erases (k b) (k' b)) : Erases (.act (inMemory f) obs k) (.act f obs k')
  | skip {β : Type} {g : Buffered σ B V → β × Buffered σ B V} {k p}
      (hg : ∀ c, (g c).2.mem = c.mem) (h : ∀ b, Erases (k b) p) :
      Erases (.act (fun c => .ok (g c)) (fun _ w => w) k) p
  | acquire {site l k k'} (h : ∀ i, Erases (k i) (k' i)) :
      Erases (.acquire site l k) (.acquire site l k')
  | release {l p p'} (h : Erases p p') : Erases (.release l p) (.release l p')

namespace Erases

variable {p : Prog (Buffered σ B V) ω L S E α} {q : Prog σ ω L S E α}

theorem bind {p : Prog (Buffered σ B V) ω L S E β} {q : Prog σ ω L S E β}
    {k : β → Prog (Buffered σ B V) ω L S E α} {k' : β → Prog σ ω L S E α} (h : Erases p q)
    (hk : ∀ b, Erases (k b) (k' b)) : Erases (p >>= k) (q >>= k') := by
  induction h with
  | ret b => exact hk b
  | act _ ih => exact .act ih
  | skip hg _ ih => exact .skip hg ih
  | acquire _ ih => exact .acquire ih
  | release _ ih => exact .release ih

theorem stepObs (f : σ → Except E (β × σ)) (obs : β → ω → ω) :
    Erases (Prog.stepObs (inMemory f) obs : Prog (Buffered σ B V) ω L S E β)
      (Prog.stepObs f obs) := .act .ret

theorem step (f : σ → Except E (β × σ)) :
    Erases (Prog.step (inMemory f) : Prog (Buffered σ B V) ω L S E β) (Prog.step f) := .act .ret

theorem read (f : σ → β) :
    Erases (Prog.read fun c => f c.mem : Prog (Buffered σ B V) ω L S E β) (Prog.read f) :=
  show Erases (.act (inMemory fun s => .ok (f s, s)) _ _) _ from .act .ret

theorem lock (site : S) (l : L) :
    Erases (Prog.lock site l : Prog (Buffered σ B V) ω L S E Bool) (Prog.lock site l) :=
  .acquire .ret

theorem unlock (l : L) :
    Erases (Prog.unlock l : Prog (Buffered σ B V) ω L S E Unit) (Prog.unlock l) :=
  .release (.ret ())

/-- What is done to the buffers only. -/
theorem buffers {g : Buffered σ B V → Buffered σ B V}
    {k : Unit → Prog (Buffered σ B V) ω L S E α} (hg : ∀ c, (g c).mem = c.mem)
    (hk : Erases (k ()) q) : Erases (Prog.step (onBuffers g) >>= k) q :=
  .skip hg fun _ => hk

/-- What is only looked at to know which buffer is meant. -/
theorem look {f : Buffered σ B V → β} {k : β → Prog (Buffered σ B V) ω L S E α}
    (hk : ∀ b, Erases (k b) q) : Erases (Prog.read f >>= k) q :=
  .skip (fun _ => rfl) hk

variable [DecidableEq B] [DecidableEq L] {view : σ → B → V} {intr : S → Bool}

/-- **Each run is in memory a run without the buffers.** -/
theorem passes {x y : Point (Buffered σ B V) ω L S E α} (h : Passes intr (Background view) x y)
    {q : Prog σ ω L S E α} (hq : Erases x.prog q) : ∃ r, Erases y.prog r ∧
      Passes intr (fun _ _ => False) ⟨q, x.locks, x.state.mem⟩ ⟨r, y.locks, y.state.mem⟩ := by
  induction h with
  | refl => exact ⟨q, hq, .refl⟩
  | tail _ hmove ih =>
    obtain ⟨r, hr, hpass⟩ := ih
    cases hmove with
    | bg hbg => exact ⟨r, hr, by rw [hbg.mem_eq]; exact hpass⟩
    | act hf =>
      cases hr with
      | act h =>
        obtain ⟨s, hs, rfl⟩ := inMemory_ok.mp hf
        exact ⟨_, h _, hpass.tail (.act hs)⟩
      | skip hg h =>
        have heq := congrArg Prod.snd (Except.ok.inj hf)
        refine ⟨r, h _, ?_⟩
        rw [← show _ = _ from (hg _).symm.trans (congrArg Buffered.mem heq)]
        exact hpass
    | interrupt hi =>
      cases hr with
      | acquire h => exact ⟨_, h _, hpass.tail (.interrupt hi)⟩
    | acquire hi hl =>
      cases hr with
      | acquire h => exact ⟨_, h _, hpass.tail (.acquire hi hl)⟩
    | release =>
      cases hr with
      | release h => exact ⟨_, h, hpass.tail .release⟩

end Erases

/-- A run without a background is the run of `Prog.lean`. -/
theorem run_of_passes [DecidableEq L] {intr : S → Bool} {x y : Point σ ω L S E α}
    (h : Passes intr (fun _ _ => False) x y) :
    run intr x.prog x.locks x.state = run intr y.prog y.locks y.state := by
  induction h with
  | refl => rfl
  | tail _ hmove ih =>
    rw [ih]
    cases hmove with
    | bg hbg => exact hbg.elim
    | act hf => simp only [run, hf]
    | interrupt hi => simp only [run, hi, if_true]
    | acquire hi hl => simp only [run, hi, hl, Bool.false_eq_true, if_false]
    | release => rfl

/-- **A program that returns does in memory what it does without the buffers.** -/
theorem Erases.returns [DecidableEq B] [DecidableEq L] {view : σ → B → V} {intr : S → Bool}
    {p : Prog (Buffered σ B V) ω L S E α} {q : Prog σ ω L S E α} (hpq : Erases p q)
    {lk lk' : LockState L} {c c' : Buffered σ B V} {a : α}
    (h : Passes intr (Background view) ⟨p, lk, c⟩ ⟨.ret a, lk', c'⟩) :
    run intr q lk c.mem = (.returned a c'.mem, lk') := by
  obtain ⟨r, hr, hpass⟩ := Erases.passes h hpq
  cases hr
  rw [run_of_passes hpass]
  rfl

/-- **A program that returns without the buffers returns with them**, if nothing happens in the
background. -/
theorem Erases.run [DecidableEq L] {intr : S → Bool}
    {bg : Buffered σ B V → Buffered σ B V → Prop} {p : Prog (Buffered σ B V) ω L S E α}
    {q : Prog σ ω L S E α} (hpq : Erases p q) {lk lk' : LockState L} {c : Buffered σ B V} {a : α}
    {s : σ} (h : Prog.run intr q lk c.mem = (.returned a s, lk')) :
    ∃ c', c'.mem = s ∧ Passes intr bg ⟨p, lk, c⟩ ⟨.ret a, lk', c'⟩ := by
  induction hpq generalizing lk c with
  | ret b =>
    cases h
    exact ⟨c, rfl, .refl⟩
  | @act β f obs k k' _ ih =>
    rw [Prog.run] at h
    cases hf : f c.mem with
    | error e =>
      rw [hf] at h
      cases h
    | ok r =>
      rw [hf] at h
      obtain ⟨c', hc', hpass⟩ := ih r.1 (c := { c with mem := r.2 }) h
      exact ⟨c', hc', hpass.head (.act (inMemory_ok.mpr ⟨r.2, hf, rfl⟩))⟩
  | @skip β g k p hg _ ih =>
    obtain ⟨c', hc', hpass⟩ := ih (g c).1 (c := (g c).2) (by rw [hg]; exact h)
    exact ⟨c', hc', hpass.head (.act rfl)⟩
  | @acquire site l k k' _ ih =>
    rw [Prog.run] at h
    split at h
    · rename_i hi
      obtain ⟨c', hc', hpass⟩ := ih true h
      exact ⟨c', hc', hpass.head (.interrupt hi)⟩
    · rename_i hi
      split at h
      · cases h
      · rename_i hl
        obtain ⟨c', hc', hpass⟩ := ih false h
        exact ⟨c', hc', hpass.head (.acquire (eq_false_of_ne_true hi) (eq_false_of_ne_true hl))⟩
  | release _ ih =>
    obtain ⟨c', hc', hpass⟩ := ih h
    exact ⟨c', hc', hpass.head .release⟩

/-! ## 4. Rules for code with buffers

What is known has to be `Steady`: whatever is done to counts and to the flags of the buffers that
may be marked, and whatever the kernel writes back, it goes on holding. -/

section Rules

variable [DecidableEq B] {view : σ → B → V} {intr : S → Bool} {C P : Buffered σ B V → Prop}
  {Q : α → Buffered σ B V → Prop} {c : Buffered σ B V} {b : B} {marks : B → Prop}

/-- Something that no reference, no mark on one of `marks` and no write-back can change. -/
structure Steady (view : σ → B → V) (marks : B → Prop) (P : Buffered σ B V → Prop) : Prop where
  bread : ∀ c b, P c → P (c.bread b)
  brelse : ∀ c b, P c → P (c.brelse b)
  markDirty : ∀ c b, marks b → P c → P (c.markDirty b)
  writeBack : ∀ c b, P c → c.dirty b = true → P (c.writeBack view b)

namespace Steady

/-- What is said of what is in memory and on the device only. -/
theorem of_images (h : ∀ c c', c'.mem = c.mem → c'.disk = c.disk → P c → P c')
    (hw : ∀ c b, P c → P (c.writeBack view b)) : Steady view marks P :=
  ⟨fun c _ => h c _ rfl rfl, fun c _ => h c _ rfl rfl, fun c _ _ => h c _ rfl rfl,
    fun c b hP _ => hw c b hP⟩

theorem stable (h : Steady view marks P) : Stable (Background view) P := by
  intro c c' hP hbg
  cases hbg with
  | writeBack hd => exact h.writeBack c _ hP hd

theorem syncDirty (h : Steady view marks P) (hP : P c) (b : B) : P (c.syncDirty view b) := by
  rw [Buffered.syncDirty]
  split
  · rename_i hd
    exact h.writeBack c b hP hd
  · exact hP

theorem and {P' : Buffered σ B V → Prop} (h : Steady view marks P) (h' : Steady view marks P') :
    Steady view marks fun c => P c ∧ P' c :=
  ⟨fun c b hP => ⟨h.bread c b hP.1, h'.bread c b hP.2⟩,
    fun c b hP => ⟨h.brelse c b hP.1, h'.brelse c b hP.2⟩,
    fun c b hb hP => ⟨h.markDirty c b hb hP.1, h'.markDirty c b hb hP.2⟩,
    fun c b hP hd => ⟨h.writeBack c b hP.1 hd, h'.writeBack c b hP.2 hd⟩⟩

/-- What is in memory is not touched by a write-back. -/
theorem inMemory (R : σ → Prop) : Steady view marks fun c : Buffered σ B V => R c.mem :=
  of_images (fun c c' hm _ hP => by rw [hm]; exact hP) fun _ _ hP => hP

/-- A block that holds what its buffer holds. -/
theorem settled (view : σ → B → V) (b : B) :
    Steady view marks fun c : Buffered σ B V => c.disk b = view c.mem b := by
  refine of_images (fun c c' hm hd hP => by rw [hm, hd]; exact hP) fun c b' hP => ?_
  change Function.update c.disk b' (view c.mem b') b = view c.mem b
  rw [Function.update_apply]
  split
  · rename_i heq
    rw [heq]
  · exact hP

/-- A buffer that holds what its block holds, or is dirty. -/
theorem due (view : σ → B → V) (b : B) :
    Steady view marks (Due view b : Buffered σ B V → Prop) := by
  refine ⟨fun _ _ hP => hP, fun _ _ hP => hP, fun c b' _ hP => hP.imp_left fun h => ?_,
    fun c b' hP hd => due_stable c _ hP (.writeBack hd)⟩
  change Function.update c.dirty b' true b = true
  rw [Function.update_apply]
  split
  · rfl
  · exact h

/-- A clean buffer that is not marked. -/
theorem clean (h : ¬ marks b) :
    Steady view marks fun c : Buffered σ B V => c.dirty b = false := by
  refine ⟨fun _ _ hP => hP, fun _ _ hP => hP, fun c b' hb' hP => ?_, fun c b' hP _ => ?_⟩
  · have hne : b ≠ b' := fun heq => h (heq ▸ hb')
    exact (Function.update_of_ne hne ..).trans hP
  · change Function.update c.dirty b' false b = false
    rw [Function.update_apply]
    split
    · rfl
    · exact hP

/-- Its block stays as it is. -/
theorem cold (h : ¬ marks b) (v : V) :
    Steady view marks fun c : Buffered σ B V => c.dirty b = false ∧ c.disk b = v := by
  have hclean : Steady view marks fun c : Buffered σ B V => c.dirty b = false := clean h
  refine ⟨fun _ _ hP => hP, fun _ _ hP => hP,
    fun c b' hb' hP => ⟨hclean.markDirty c b' hb' hP.1, hP.2⟩, fun c b' hP hd => ?_⟩
  have hne : b ≠ b' := by
    rintro rfl
    rw [hP.1] at hd
    cases hd
  exact ⟨hclean.writeBack c b' hP.1 hd, (Function.update_of_ne hne ..).trans hP.2⟩

end Steady

/-- An assertion that may be the last thing known before the machine stops. -/
structure Safe (view : σ → B → V) (marks : B → Prop) (C P : Buffered σ B V → Prop) :
    Prop where
  steady : Steady view marks P
  safe : ∀ c, P c → C c

/-- A program that returns. -/
theorem wpc_return {a : α} (hs : Safe view marks C P) (hP : P c) (hQ : ∀ c', P c' → Q a c') :
    wpc intr (Background view) C (pure a : Prog (Buffered σ B V) ω L S E α) Q c :=
  wpc_pure hP hs.steady.stable fun c' hP' => ⟨hs.safe c' hP', hQ c' hP'⟩

/-- Code that works in memory. -/
theorem wpc_inMemory {f : σ → Except E (β × σ)} {obs : β → ω → ω}
    {k : β → Prog (Buffered σ B V) ω L S E α} (hs : Safe view marks C P) (hP : P c)
    (hk : ∀ c' r s, P c' → f c'.mem = .ok (r, s) →
      wpc intr (Background view) C (k r) Q { c' with mem := s }) :
    wpc intr (Background view) C (stepObs (inMemory f) obs >>= k) Q c := by
  refine wpc_stepObs hP hs.steady.stable hs.safe fun c' r c'' hP' hf => ?_
  obtain ⟨s, hs, rfl⟩ := inMemory_ok.mp hf
  exact hk c' r s hP' hs

/-- Code that looks for a buffer. -/
theorem wpc_look {f : Buffered σ B V → β} {k : β → Prog (Buffered σ B V) ω L S E α}
    (hs : Safe view marks C P) (hP : P c)
    (hk : ∀ c', P c' → wpc intr (Background view) C (k (f c')) Q c') :
    wpc intr (Background view) C (Prog.read f >>= k) Q c :=
  wpc_read hP hs.steady.stable hs.safe hk

/-- Code that only works on flags and counts. -/
theorem wpc_flags {g : Buffered σ B V → Buffered σ B V} {P' : Buffered σ B V → Prop}
    {k : Unit → Prog (Buffered σ B V) ω L S E α} (hs : Safe view marks C P) (hP : P c)
    (hg : ∀ c, P c → P' (g c))
    (hk : ∀ c', P' c' → wpc intr (Background view) C (k ()) Q c') :
    wpc intr (Background view) C (step (onBuffers g) >>= k) Q c := by
  refine wpc_step hP hs.steady.stable hs.safe fun c' _ _ hP' hf => ?_
  cases hf
  exact hk _ (hg c' hP')

theorem wpc_bread {k : Unit → Prog (Buffered σ B V) ω L S E α} (hs : Safe view marks C P) (hP : P c)
    (hk : ∀ c', P c' → wpc intr (Background view) C (k ()) Q c') :
    wpc intr (Background view) C (step (onBuffers (bread b)) >>= k) Q c :=
  wpc_flags hs hP (fun c => hs.steady.bread c b) hk

theorem wpc_brelse {k : Unit → Prog (Buffered σ B V) ω L S E α} (hs : Safe view marks C P)
    (hP : P c) (hk : ∀ c', P c' → wpc intr (Background view) C (k ()) Q c') :
    wpc intr (Background view) C (step (onBuffers (brelse b)) >>= k) Q c :=
  wpc_flags hs hP (fun c => hs.steady.brelse c b) hk

/-- A buffer that is marked dirty, and written back when the kernel likes. -/
theorem wpc_markDirty {k : Unit → Prog (Buffered σ B V) ω L S E α} (hs : Safe view marks C P)
    (hb : marks b) (hP : P c)
    (hk : ∀ c', P c' → Due view b c' → wpc intr (Background view) C (k ()) Q c') :
    wpc intr (Background view) C (step (onBuffers (markDirty b)) >>= k) Q c := by
  have hnext : ∀ c', P c' ∧ Due view b c' → wpc intr (Background view) C (k ()) Q c' :=
    fun c' h => hk c' h.1 h.2
  refine wpc_flags hs hP (fun c hP => ?_) hnext
  exact ⟨hs.steady.markDirty c b hb hP, Or.inl (Function.update_self ..)⟩

/-- **A buffer that is marked dirty and synced**: after that it is clean, and the block holds what
it holds. -/
theorem wpc_flush {k : Unit → Prog (Buffered σ B V) ω L S E α} (hs : Safe view marks C P)
    (hb : marks b) (hP : P c)
    (hk : ∀ c', P c' → c'.disk b = view c'.mem b → c'.dirty b = false →
      wpc intr (Background view) C (k ()) Q c') :
    wpc intr (Background view) C (step (onBuffers (markDirty b)) >>= fun _ =>
      step (onBuffers (Buffered.syncDirty view b)) >>= k) Q c := by
  refine wpc_markDirty hs hb hP fun c1 h1 hdue => ?_
  have hs' := hs.steady.and (Steady.due view b)
  refine wpc_step ⟨h1, hdue⟩ hs'.stable (fun d h => hs.safe d h.1) fun d _ _ h hf => ?_
  cases hf
  exact hk _ (hs.steady.syncDirty h.1 b) (by rw [syncDirty_mem]; exact h.2.settled)
    (syncDirty_clean d b)

/-- What is known besides. -/
theorem Safe.and {P' : Buffered σ B V → Prop} (hs : Safe view marks C P)
    (h : Steady view marks P') : Safe view marks C fun c => P c ∧ P' c :=
  ⟨hs.steady.and h, fun c hP => hs.safe c hP.1⟩

end Rules

/-! ## 5. References -/

section References

variable [DecidableEq B] {view : σ → B → V} {b : B} {held : List B}

/-- Each buffer has the references of `base` and those of `held`. -/
def Refs (base : B → Int) (held : List B) (c : Buffered σ B V) : Prop :=
  ∀ b, base b + held.count b ≤ c.refs b

/-- **The program gives back no reference that it does not hold**: it holds those of `held` at its
start, and whatever is interrupted, at no point is one of the others gone. -/
def Borrows (view : σ → B → V) (held : List B) (p : Prog (Buffered σ B V) ω L S E α) : Prop :=
  ∀ (intr : S → Bool) (base : B → Int) (c : Buffered σ B V), Refs base held c →
    wpc intr (Background view) (Refs base []) p (fun _ => Refs base []) c

theorem Refs.weaken {base : B → Int} {c : Buffered σ B V} (h : Refs base held c) :
    Refs base [] c := fun b => by
  have := h b
  rw [List.count_nil]
  omega

theorem refs_stable (base : B → Int) :
    Stable (Background view) (Refs base held : Buffered σ B V → Prop) := by
  intro c c' h hbg
  cases hbg with
  | writeBack hd => exact h

namespace Borrows

theorem ret (a : α) : Borrows view held (pure a : Prog (Buffered σ B V) ω L S E α) :=
  fun _ base _ h => wpc_pure h (refs_stable base) fun _ h' => ⟨h'.weaken, h'.weaken⟩

/-- A program that needs none of what is held. -/
theorem bind {p : Prog (Buffered σ B V) ω L S E β} {k : β → Prog (Buffered σ B V) ω L S E α}
    (hp : Borrows view [] p) (hk : ∀ r, Borrows view held (k r)) :
    Borrows view held (p >>= k) := by
  intro intr base c h
  obtain ⟨base', hbase⟩ : ∃ base' : B → Int, ∀ b, base' b = base b + held.count b :=
    ⟨_, fun _ => rfl⟩
  have hiff : ∀ c' : Buffered σ B V, Refs base' [] c' ↔ Refs base held c' := fun c' =>
    forall_congr' fun b => by rw [hbase, List.count_nil, Int.natCast_zero, Int.add_zero]
  refine wpc_bind (R := fun _ => Refs base held)
    (wpc_mono (hp intr base' c ((hiff c).mpr h)) (fun c' h' => ((hiff c').mp h').weaken)
      fun _ c' h' => (hiff c').mp h') fun r c' h' => hk r intr base c' h'

/-- Code that leaves the references alone. -/
theorem stepObs {f : Buffered σ B V → Except E (β × Buffered σ B V)} {obs : β → ω → ω}
    {k : β → Prog (Buffered σ B V) ω L S E α}
    (hf : ∀ c r c', f c = .ok (r, c') → c'.refs = c.refs) (hk : ∀ r, Borrows view held (k r)) :
    Borrows view held (stepObs f obs >>= k) := by
  intro intr base c h
  refine wpc_stepObs h (refs_stable base) (fun _ => Refs.weaken) fun c' r c'' h' hr => ?_
  refine hk r intr base c'' fun b => ?_
  rw [hf c' r c'' hr]
  exact h' b

theorem inMemory {f : σ → Except E (β × σ)} {obs : β → ω → ω}
    {k : β → Prog (Buffered σ B V) ω L S E α} (hk : ∀ r, Borrows view held (k r)) :
    Borrows view held (Prog.stepObs (Buffered.inMemory f) obs >>= k) := by
  refine stepObs (fun c r c' hr => ?_) hk
  obtain ⟨s, -, rfl⟩ := inMemory_ok.mp hr
  rfl

theorem read {f : Buffered σ B V → β} {k : β → Prog (Buffered σ B V) ω L S E α}
    (hk : ∀ r, Borrows view held (k r)) : Borrows view held (Prog.read f >>= k) := by
  refine stepObs (fun c r c' hr => ?_) hk
  cases hr
  rfl

theorem markDirty {k : Unit → Prog (Buffered σ B V) ω L S E α} (hk : Borrows view held (k ())) :
    Borrows view held (step (onBuffers (Buffered.markDirty b)) >>= k) := by
  refine stepObs (fun c r c' hr => ?_) fun _ => hk
  cases hr
  rfl

theorem syncDirty {k : Unit → Prog (Buffered σ B V) ω L S E α} (hk : Borrows view held (k ())) :
    Borrows view held (step (onBuffers (Buffered.syncDirty view b)) >>= k) := by
  refine stepObs (fun c r c' hr => ?_) fun _ => hk
  cases hr
  rw [Buffered.syncDirty]
  split <;> rfl

/-- `sb_bread` takes a reference ... -/
theorem bread {k : Unit → Prog (Buffered σ B V) ω L S E α} (hk : Borrows view (b :: held) (k ())) :
    Borrows view held (step (onBuffers (Buffered.bread b)) >>= k) := by
  intro intr base c h
  refine wpc_step h (refs_stable base) (fun _ => Refs.weaken) fun c' r c'' h' hr => ?_
  cases hr
  refine hk intr base _ fun b' => ?_
  have hb' := h' b'
  change _ ≤ Function.update c'.refs b (c'.refs b + 1) b'
  by_cases hb : b' = b
  · subst hb
    rw [Function.update_self, List.count_cons_self]
    omega
  · rw [Function.update_of_ne hb, List.count_cons_of_ne (Ne.symm hb)]
    exact hb'

/-- ... and `brelse` gives it back. -/
theorem brelse {k : Unit → Prog (Buffered σ B V) ω L S E α} (hk : Borrows view held (k ())) :
    Borrows view (b :: held) (step (onBuffers (Buffered.brelse b)) >>= k) := by
  intro intr base c h
  refine wpc_step h (refs_stable base) (fun _ => Refs.weaken) fun c' r c'' h' hr => ?_
  cases hr
  refine hk intr base _ fun b' => ?_
  have hb' := h' b'
  change _ ≤ Function.update c'.refs b (c'.refs b - 1) b'
  by_cases hb : b' = b
  · subst hb
    rw [List.count_cons_self] at hb'
    rw [Function.update_self]
    omega
  · rw [List.count_cons_of_ne (Ne.symm hb)] at hb'
    rw [Function.update_of_ne hb]
    exact hb'

theorem lock {site : S} {l : L} {k : Bool → Prog (Buffered σ B V) ω L S E α}
    (hk : ∀ i, Borrows view held (k i)) : Borrows view held (Prog.lock site l >>= k) :=
  fun intr base c h => wpc_lock fun i _ => hk i intr base c h

theorem unlock {l : L} {k : Unit → Prog (Buffered σ B V) ω L S E α}
    (hk : Borrows view held (k ())) : Borrows view held (Prog.unlock l >>= k) :=
  fun intr base c h => wpc_unlock (hk intr base c h)

end Borrows

end References
end Prog
