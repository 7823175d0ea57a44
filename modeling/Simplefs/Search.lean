/-
# The search of `simplefs_inode_save`

`simplefs_inode_search` looks at `start->inode_no` before it looks at `count`, and once more after
the loop.  As long as one of the 128 slots has the number, it reads slots only and returns the
first of them.  Otherwise it reads the word behind the buffer as well; it returns a slot that is
none if that happens to be the number, and `NULL` if not.

The definition that the other files use (`simplefsInodeSearch`) has the result only.  Here the
function is taken turn by turn, with what it reads, and shown to have that result.
-/
import Simplefs.Stale

namespace Simplefs

open Prog (run LockState Ending)
open Scan (FirstAt)

/-! ## 1. The loop -/

/-- What `start[i].inode_no` reads: the buffer ends after 128 slots. -/
def startWord (slot : Nat → SfsInode) (past : BitVec 64) (i : Nat) : BitVec 64 :=
  if i < slotsPerBlock then (slot i).inodeNo else past

/-- `simplefs_inode_search`: the elements of `start` it examines, and the one it returns. -/
def simplefsInodeSearchTurns (slot : Nat → SfsInode) (past : BitVec 64) (search : BitVec 64) :
    List Nat × Option Nat :=
  let turns := Scan.loop (startWord slot past) search slotsPerBlock 0
  -- the comparison after the loop reads `start->inode_no` again
  (turns.1 ++ [turns.2],
    if startWord slot past turns.2 = search then some turns.2 else none)

section

variable {slot : Nat → SfsInode} {past n : BitVec 64}

theorem startWord_of_lt {i : Nat} (hi : i < slotsPerBlock) :
    startWord slot past i = (slot i).inodeNo := if_pos hi

theorem FirstSlot.turns {i : Nat} (h : FirstSlot slot n i) :
    simplefsInodeSearchTurns slot past n = (List.range (i + 1) ++ [i], some i) := by
  have hfirst : FirstAt (startWord slot past) n slotsPerBlock i :=
    h.congr fun j hj => startWord_of_lt hj
  have hword : startWord slot past i = n := (startWord_of_lt h.lt).trans h.hit
  simp only [simplefsInodeSearchTurns, Scan.loop_firstAt hfirst, hword, if_true]

theorem turns_absent (h : ∀ i, i < slotsPerBlock → (slot i).inodeNo ≠ n) :
    simplefsInodeSearchTurns slot past n = (List.range (slotsPerBlock + 1) ++ [slotsPerBlock],
      if past = n then some slotsPerBlock else none) := by
  have habsent : ∀ i, i < slotsPerBlock → startWord slot past i ≠ n := fun i hi => by
    rw [startWord_of_lt hi]
    exact h i hi
  have hword : startWord slot past slotsPerBlock = past := if_neg (Nat.lt_irrefl _)
  simp only [simplefsInodeSearchTurns, Scan.loop_absent habsent, hword]

/-- **Turn by turn, the search has the same result.** -/
theorem simplefsInodeSearchTurns_snd (slot : Nat → SfsInode) (past n : BitVec 64) :
    (simplefsInodeSearchTurns slot past n).2 = simplefsInodeSearch slot past n := by
  rcases firstSlot_or_absent slot n with ⟨i, h⟩ | h
  · rw [h.turns, h.search]
  · rw [turns_absent h, simplefsInodeSearch_absent h]

/-! ## 2. What the search and the save should do -/

/-- **The search is exact and in bounds**: it examines slots only, returns the first of them that
has the number, and `NULL` if none has. -/
structure SearchExact (slot : Nat → SfsInode) (past n : BitVec 64) : Prop where
  examines : ∀ i, i ∈ (simplefsInodeSearchTurns slot past n).1 → i < slotsPerBlock
  found : ∀ i, FirstSlot slot n i → (simplefsInodeSearchTurns slot past n).2 = some i
  absent : (∀ i, i < slotsPerBlock → (slot i).inodeNo ≠ n) →
    (simplefsInodeSearchTurns slot past n).2 = none

/-- Slot `i` of the store holds `v`, and no byte outside the slot has changed. -/
structure Overwrites (fs fs' : Fs) (i : Nat) (v : SfsInode) : Prop where
  slot : fs'.dev.slot i = v
  outside : ∀ a, a < 4096 + 32 * i ∨ 4096 + 32 * i + 32 ≤ a → fs'.dev a = fs.dev a
  memory : fs' = { fs with dev := fs'.dev }

/-- **Saving is exact**: the first slot with the number is overwritten and nothing else, or none has
the number and nothing is; a save that is interrupted before it searches changes nothing either. -/
inductive SaveExact (fs : Fs) (v : SfsInode) (intr : Site → Bool) :
    Ending Fs Lock Fault Int → Prop
  | saved {i : Nat} {fs' : Fs} (hi : intr .save = false)
      (hfirst : FirstSlot fs.dev.slot v.inodeNo i) (hover : Overwrites fs fs' i v) :
      SaveExact fs v intr (.returned 0 fs')
  | notFound (hi : intr .save = false)
      (habsent : ∀ i, i < slotsPerBlock → (fs.dev.slot i).inodeNo ≠ v.inodeNo) :
      SaveExact fs v intr (.returned (- EIO) fs)
  | interrupted (hi : intr .save = true) : SaveExact fs v intr (.returned (-EINTR) fs)

/-! ## 3. When they do -/

/-- The search is exact if and only if the number is in the store. -/
theorem searchExact_iff : SearchExact slot past n ↔
    ∃ i, i < slotsPerBlock ∧ (slot i).inodeNo = n := by
  constructor
  · intro h
    rcases firstSlot_or_absent slot n with ⟨i, hi⟩ | habsent
    · exact ⟨i, hi.lt, hi.hit⟩
    · -- the slot that is none is among those examined
      have hmem : slotsPerBlock ∈ (simplefsInodeSearchTurns slot past n).1 := by
        simp [turns_absent habsent]
      exact absurd (h.examines _ hmem) (Nat.lt_irrefl _)
  · intro hin
    obtain ⟨i, hi⟩ : ∃ i, FirstSlot slot n i := Scan.exists_firstAt hin
    refine ⟨fun j hj => ?_, fun j hj => by rw [hj.turns], fun habsent => ?_⟩
    · rw [hi.turns, List.mem_append, List.mem_range, List.mem_singleton] at hj
      have hlt : i < slotsPerBlock := hi.lt
      omega
    · exact absurd hi.hit (habsent i hi.lt)

end

section

variable {fs : Fs} {d : Nat} {x : Dentry} {intr : Site → Bool} {lk : LockState Lock}

theorem Fs.overwrites_setSlot (fs : Fs) (i : Nat) (v : SfsInode) :
    Overwrites fs { fs with dev := fs.dev.setSlot i v } i v where
  slot := (Device.slot_setSlot _ _ _ _).trans (if_pos rfl)
  outside := Device.agreeOff_setSlot fs.dev i v
  memory := rfl

/-- **What a save does**, as far as it is exact. -/
theorem saveExact_iff (hx : fs.dentries d = some x) (hs : lk.held .sb = false) :
    SaveExact fs x.inode intr (run intr (simplefsInodeSave d) lk fs).1 ↔
      intr .save = true ∨ fs.past ≠ x.inode.inodeNo ∨
        ∃ i, i < slotsPerBlock ∧ (fs.dev.slot i).inodeNo = x.inode.inodeNo := by
  rw [← bind_pure (simplefsInodeSave d), run_inodeSave d pure hs]
  cases hi : intr .save with
  | true => simpa using SaveExact.interrupted hi
  | false =>
    rcases firstSlot_or_absent fs.dev.slot x.inode.inodeNo with ⟨i, hfirst⟩ | habsent
    · rw [saveInode_found hx hfirst]
      have hsaved := SaveExact.saved hi hfirst (fs.overwrites_setSlot i x.inode)
      exact ⟨fun _ => Or.inr (Or.inr ⟨i, hfirst.lt, hfirst.hit⟩), fun _ => hsaved⟩
    · rw [saveInode_absent hx habsent]
      by_cases hpast : fs.past = x.inode.inodeNo
      · rw [if_pos hpast]
        constructor
        · intro h
          cases h
        · rintro (h | h | ⟨i, hlt, hno⟩)
          · cases h
          · exact absurd hpast h
          · exact absurd hno (habsent i hlt)
      · rw [if_neg hpast]
        exact ⟨fun _ => Or.inr (Or.inl hpast), fun _ => SaveExact.notFound hi habsent⟩

/-- **The search is exact exactly when** some slot of the store has the number, for every content
of the store, whatever is behind its buffer, and every number; **and so are the save and the search
that it makes**, unless the save is interrupted and makes none. -/
theorem inodeSearch_exact_iff (hx : fs.dentries d = some x) (hs : lk.held .sb = false) :
    (SearchExact fs.dev.slot fs.past x.inode.inodeNo ↔
      ∃ i, i < slotsPerBlock ∧ (fs.dev.slot i).inodeNo = x.inode.inodeNo) ∧
    ((intr .save = false → SearchExact fs.dev.slot fs.past x.inode.inodeNo) ∧
        SaveExact fs x.inode intr (run intr (simplefsInodeSave d) lk fs).1 ↔
      intr .save = true ∨ ∃ i, i < slotsPerBlock ∧ (fs.dev.slot i).inodeNo = x.inode.inodeNo) := by
  refine ⟨searchExact_iff, ?_⟩
  rw [searchExact_iff, saveExact_iff hx hs]
  cases hi : intr .save with
  | true => exact iff_of_true ⟨nofun, Or.inl rfl⟩ (Or.inl rfl)
  | false =>
    constructor
    · exact fun h => Or.inr (h.1 rfl)
    · rintro (h | h)
      · cases h
      · exact ⟨fun _ => h, Or.inr (Or.inr h)⟩

/-- The welcome file's inode is found and saved. -/
theorem inodeSearch_exact_iff_welcome :
    (quiet .save = false →
        SearchExact foundFs.dev.slot foundFs.past welcomeDentry.inode.inodeNo) ∧
      SaveExact foundFs welcomeDentry.inode quiet
        (run quiet (simplefsInodeSave 1) LockState.free foundFs).1 := by
  have hcur : foundFs.Current Shadow.none 1 welcomeDentry := ⟨foundFs_welcome, rfl, id⟩
  obtain ⟨hl, -, -⟩ := foundFs_inv.live 1 _ hcur
  refine (inodeSearch_exact_iff foundFs_welcome rfl).2.mpr
    (Or.inr ⟨welcomeDentry.slot, hl.lt, ?_⟩)
  rw [(foundFs_inv.store.slots _ hl).1, foundFs_inv.inodeNo_eq hcur]

/-- **A file that is unlinked while it is open is not in the store any more**: saving its inode, as
a write through the handle does, examines a 129th slot. -/
theorem staleFs_not_searchExact :
    DefinedRun ⟨LockState.free, .offline freshDevice⟩ ⟨LockState.free, .mounted staleFs⟩ ∧
      staleFs.dentries 1 = some staleWelcome ∧
      ¬ SearchExact staleFs.dev.slot staleFs.past staleWelcome.inode.inodeNo := by
  refine ⟨DefinedRun.stale, staleFs_welcome, fun h => ?_⟩
  obtain ⟨i, hlt, hno⟩ := searchExact_iff.mp h
  have hl : staleFs.dev.Live i := ⟨hlt, by rw [hno]; decide⟩
  have hslot := (staleFs_inv.store.slots i hl).1
  have hi : i = 1 := inoOf_inj hlt (by decide) (hslot.symm.trans hno)
  have hdead : ¬ staleFs.dev.Live 1 := by
    rintro ⟨-, hne⟩
    exact hne (by decide +kernel)
  exact hdead (hi ▸ hl)

end

end Simplefs
