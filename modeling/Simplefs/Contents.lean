/-
# What a file contains

A file's bytes are the first `file_size` bytes of its block.  `simplefs_read` copies from the start
of the block whatever `*ppos` is, and clamps by `file_size` alone; `simplefs_write` cuts the file
off where it ends.  So a read is right at offset 0, and elsewhere only by coincidence; and a
rewrite from offset 0 is read back whole.
-/
import Simplefs.Confined

namespace Simplefs

open Prog (run LockState Ending)

/-! ## 1. Reading at an offset -/

/-- The bytes of a file. -/
def Fs.content (fs : Fs) (x : Dentry) : List UInt8 :=
  (List.range x.inode.fileSize.toNat).map (fs.dev.byte x.inode.block)

/-- The bytes at `p ≤ off < min (p + len) n`. -/
def Fs.contentAt (fs : Fs) (x : Dentry) (p len : Nat) : List UInt8 :=
  ((fs.content x).drop p).take len

/-- **A read returns the bytes at the offset**, and advances it by their number. -/
def ReadsExactly (fs : Fs) (d : Nat) (x : Dentry) (p len : Nat) : Prop :=
  readFile d p len true fs =
    .ok ((.ok (fs.contentAt x p len), p + (fs.contentAt x p len).length), fs)

/-- At this offset and length the start of the file will do: the read begins at 0 or past the
end, or stays inside the file and the bytes there are those of the file's start. -/
def Fs.StartWillDo (fs : Fs) (x : Dentry) (p len : Nat) : Prop :=
  x.inode.fileSize.toNat ≤ p ∨ p = 0 ∨
    p + len ≤ x.inode.fileSize.toNat ∧ fs.contentAt x p len = fs.contentAt x 0 len

section Reading

variable {fs : Fs} {d p len : Nat} {x : Dentry}

@[simp] theorem length_content : (fs.content x).length = x.inode.fileSize.toNat := by
  simp [Fs.content]

theorem length_contentAt :
    (fs.contentAt x p len).length = min len (x.inode.fileSize.toNat - p) := by
  simp [Fs.contentAt]

theorem contentAt_zero : fs.contentAt x 0 len = (fs.content x).take len := rfl

/-- What `simplefs_read` does: the offset only decides whether it reads at all. -/
theorem readFile_eq (hx : fs.dentries d = some x) (hn : x.inode.fileSize.toNat ≤ 4096)
    (p len : Nat) : readFile d p len true fs =
      if x.inode.fileSize.toNat ≤ p then .ok ((.ok [], p), fs)
      else .ok ((.ok (fs.contentAt x 0 len), p + (fs.contentAt x 0 len).length), fs) := by
  have hmin : ¬ 4096 < min x.inode.fileSize.toNat len := by omega
  have htake : (List.range (min x.inode.fileSize.toNat len)).map (fs.dev.byte x.inode.block) =
      fs.contentAt x 0 len := by
    rw [contentAt_zero, Fs.content, ← List.map_take, List.take_range, Nat.min_comm]
  have hlen : min x.inode.fileSize.toNat len = (fs.contentAt x 0 len).length := by
    rw [length_contentAt]
    omega
  simp only [readFile, Fs.dentry_of_eq hx, bind, Except.bind, pure, Except.pure, if_neg hmin,
    if_true, htake, ← hlen]

/-- **A read is exact exactly when the start of the file will do.** -/
theorem readsExactly_iff (hx : fs.dentries d = some x) (hn : x.inode.fileSize.toNat ≤ 4096)
    (p len : Nat) : ReadsExactly fs d x p len ↔ fs.StartWillDo x p len := by
  rw [ReadsExactly, readFile_eq hx hn]
  by_cases hend : x.inode.fileSize.toNat ≤ p
  · have hnil : fs.contentAt x p len = [] := by
      rw [← List.length_eq_zero_iff, length_contentAt]
      omega
    rw [if_pos hend, hnil]
    exact ⟨fun _ => Or.inl hend, fun _ => rfl⟩
  rw [if_neg hend]
  constructor
  · intro h
    have hbytes : fs.contentAt x 0 len = fs.contentAt x p len := by
      simp only [Except.ok.injEq, Prod.mk.injEq] at h
      exact h.1.1
    have hlen := congrArg List.length hbytes
    rw [length_contentAt, length_contentAt] at hlen
    by_cases h0 : p = 0
    · exact Or.inr (Or.inl h0)
    · exact Or.inr (Or.inr ⟨by omega, hbytes.symm⟩)
  · rintro (h | rfl | ⟨-, h⟩)
    · exact absurd h hend
    · rfl
    · rw [h]

/-! ## 2. Reading from the start to the end -/

/-- Consecutive reads of the lengths `lens`, none of them empty: from offset `p` to offset `q`,
and what they return together. -/
inductive ReadsFrom (fs : Fs) (d : Nat) : Nat → List Nat → List UInt8 → Nat → Prop
  | nil (p : Nat) : ReadsFrom fs d p [] [] p
  | cons {p p' q len : Nat} {lens : List Nat} {bytes out : List UInt8}
      (hr : readFile d p len true fs = .ok ((.ok bytes, p'), fs)) (hne : bytes ≠ [])
      (hrest : ReadsFrom fs d p' lens out q) : ReadsFrom fs d p (len :: lens) (bytes ++ out) q

/-- At every read, at the sum of the lengths before it, the start of the file will do. -/
def Fs.StartWillDoFrom (fs : Fs) (x : Dentry) : Nat → List Nat → Prop
  | _, [] => True
  | p, len :: lens => fs.StartWillDo x p len ∧ fs.StartWillDoFrom x (p + len) lens

/-- One read that is not empty. -/
theorem of_readFile_ne_nil (hx : fs.dentries d = some x) (hn : x.inode.fileSize.toNat ≤ 4096)
    {p' : Nat} {bytes : List UInt8}
    (hr : readFile d p len true fs = .ok ((.ok bytes, p'), fs)) (hne : bytes ≠ []) :
    p < x.inode.fileSize.toNat ∧ bytes = fs.contentAt x 0 len ∧
      p' = p + min len x.inode.fileSize.toNat := by
  rw [readFile_eq hx hn] at hr
  split at hr
  · cases hr
    exact absurd rfl hne
  · rename_i hlt
    cases hr
    refine ⟨by omega, rfl, ?_⟩
    rw [length_contentAt, Nat.sub_zero]

/-- Past the end nothing is read. -/
theorem ReadsFrom.of_le (hx : fs.dentries d = some x) (hn : x.inode.fileSize.toNat ≤ 4096)
    {q : Nat} {lens : List Nat} {out : List UInt8} (h : ReadsFrom fs d p lens out q)
    (hp : x.inode.fileSize.toNat ≤ p) : lens = [] ∧ out = [] := by
  cases h with
  | nil => exact ⟨rfl, rfl⟩
  | cons hr hne hrest =>
    have := (of_readFile_ne_nil hx hn hr hne).1
    omega

/-- **Reads up to the end return the rest of the file exactly when every one of them is right.** -/
theorem ReadsFrom.eq_content_iff (hx : fs.dentries d = some x)
    (hn : x.inode.fileSize.toNat ≤ 4096) {q : Nat} {lens : List Nat} {out : List UInt8}
    (h : ReadsFrom fs d p lens out q) (hq : x.inode.fileSize.toNat ≤ q) :
    out = (fs.content x).drop p ↔ fs.StartWillDoFrom x p lens := by
  induction h with
  | nil p =>
    have hnil : (fs.content x).drop p = [] := List.drop_eq_nil_of_le (by simpa using hq)
    rw [hnil]
    exact ⟨fun _ => trivial, fun _ => rfl⟩
  | cons hr hne hrest ih =>
    rename_i p p' q len lens bytes out
    obtain ⟨hlt, rfl, rfl⟩ := of_readFile_ne_nil hx hn hr hne
    have hlen0 : (fs.contentAt x 0 len).length = min len (x.inode.fileSize.toNat - 0) :=
      length_contentAt
    rw [Nat.sub_zero] at hlen0
    -- the read's part of the file and the rest
    have hsplit : (fs.content x).drop p = fs.contentAt x p len ++
        (fs.content x).drop (p + len) := by
      rw [Fs.contentAt, ← List.drop_drop, List.take_append_drop]
    constructor
    · intro heq
      have hsum := congrArg List.length heq
      rw [List.length_append, hlen0, List.length_drop, length_content] at hsum
      have hin : p = 0 ∨ p + len ≤ x.inode.fileSize.toNat := by omega
      by_cases hlong : x.inode.fileSize.toNat < len
      · -- the whole file in one read
        have hp0 : p = 0 := by omega
        obtain ⟨rfl, -⟩ := hrest.of_le hx hn (by omega)
        exact ⟨Or.inr (Or.inl hp0), trivial⟩
      · rw [Nat.min_eq_left (by omega)] at hlen0 ih
        have hle : p + len ≤ x.inode.fileSize.toNat := by omega
        rw [hsplit] at heq
        have hlenp : (fs.contentAt x p len).length = len := by
          rw [length_contentAt]
          omega
        obtain ⟨hb, hout⟩ := List.append_inj heq (hlen0.trans hlenp.symm)
        exact ⟨Or.inr (Or.inr ⟨hle, hb.symm⟩), (ih hq).mp hout⟩
    · rintro ⟨hdo, hfrom⟩
      by_cases hlong : x.inode.fileSize.toNat < len
      · have hp0 : p = 0 := by
          rcases hdo with hdo | hdo | ⟨hdo, -⟩ <;> omega
        obtain ⟨-, rfl⟩ := hrest.of_le hx hn (by omega)
        rw [List.append_nil, hp0, List.drop_zero, contentAt_zero,
          List.take_of_length_le (by simpa using Nat.le_of_lt hlong)]
      · rw [Nat.min_eq_left (by omega)] at ih
        have hb : fs.contentAt x 0 len = fs.contentAt x p len := by
          rcases hdo with hdo | rfl | ⟨-, hdo⟩
          · omega
          · rfl
          · exact hdo.symm
        rw [(ih hq).mpr hfrom, hsplit, hb]

/-- Each read that is not empty advances the offset, from one inside the file. -/
theorem ReadsFrom.length_le (hx : fs.dentries d = some x) (hn : x.inode.fileSize.toNat ≤ 4096)
    {q : Nat} {lens : List Nat} {out : List UInt8} (h : ReadsFrom fs d p lens out q) :
    lens.length ≤ x.inode.fileSize.toNat - p := by
  induction h with
  | nil p => exact Nat.zero_le _
  | cons hr hne hrest ih =>
    rename_i p p' q len lens bytes out
    obtain ⟨hlt, rfl, rfl⟩ := of_readFile_ne_nil hx hn hr hne
    have hpos : 0 < min len x.inode.fileSize.toNat := by
      have := List.length_pos_of_ne_nil hne
      rw [length_contentAt] at this
      omega
    rw [List.length_cons]
    omega

/-- **Whatever lengths of at least 1 are asked for, the reads come to the end**. -/
theorem readsFrom_ends (hx : fs.dentries d = some x) (hn : x.inode.fileSize.toNat ≤ 4096)
    (p : Nat) (lens : List Nat) (hpos : ∀ len ∈ lens, 1 ≤ len)
    (hlong : x.inode.fileSize.toNat - p < lens.length) :
    ∃ pre len post out q, lens = pre ++ len :: post ∧ ReadsFrom fs d p pre out q ∧
      readFile d q len true fs = .ok ((.ok [], q), fs) := by
  induction lens generalizing p with
  | nil => exact absurd hlong (Nat.not_lt_zero _)
  | cons len lens ih =>
    by_cases hend : x.inode.fileSize.toNat ≤ p
    · refine ⟨[], len, lens, [], p, rfl, .nil p, ?_⟩
      rw [readFile_eq hx hn, if_pos hend]
    · have h1 := hpos len List.mem_cons_self
      have hlen : (fs.contentAt x 0 len).length = min len x.inode.fileSize.toNat := by
        rw [length_contentAt, Nat.sub_zero]
      have hr : readFile d p len true fs = .ok ((.ok (fs.contentAt x 0 len),
          p + (fs.contentAt x 0 len).length), fs) := by
        rw [readFile_eq hx hn, if_neg hend]
      have hne : fs.contentAt x 0 len ≠ [] := by
        intro h0
        rw [h0, List.length_nil] at hlen
        omega
      rw [List.length_cons] at hlong
      obtain ⟨pre, len', post, out, q, heq, hpre, hlast⟩ :=
        ih (p + (fs.contentAt x 0 len).length)
          (fun l hl => hpos l (List.mem_cons_of_mem _ hl)) (by omega)
      exact ⟨len :: pre, len', post, _, q, by rw [heq]; rfl, .cons hr hne hpre, hlast⟩

/-- **Reading returns the bytes at the offset exactly when the start of the file will do**, read
by read and over a whole file: reads from offset 0 until one returns nothing return the file
exactly when that is so at each of them.  They are at most as many as the file has bytes, and
they do come to an end. -/
theorem reads_iff (hx : fs.dentries d = some x) (hn : x.inode.fileSize.toNat ≤ 4096) :
    (∀ p len, ReadsExactly fs d x p len ↔ fs.StartWillDo x p len) ∧
    (∀ lens out q, ReadsFrom fs d 0 lens out q →
      (∃ len, readFile d q len true fs = .ok ((.ok [], q), fs) ∧ 1 ≤ len) →
      (out = fs.content x ↔ fs.StartWillDoFrom x 0 lens) ∧
        lens.length ≤ x.inode.fileSize.toNat) ∧
    (∀ lens : List Nat, (∀ len ∈ lens, 1 ≤ len) → x.inode.fileSize.toNat < lens.length →
      ∃ pre len post out q, lens = pre ++ len :: post ∧ ReadsFrom fs d 0 pre out q ∧
        readFile d q len true fs = .ok ((.ok [], q), fs)) := by
  refine ⟨readsExactly_iff hx hn, ?_, fun lens hpos hlong => ?_⟩
  · rintro lens out q h ⟨len, hlast, h1⟩
    have hq : x.inode.fileSize.toNat ≤ q := by
      rw [readFile_eq hx hn] at hlast
      split at hlast
      · assumption
      · rename_i hlt
        simp only [Except.ok.injEq, Prod.mk.injEq] at hlast
        have hlen : (fs.contentAt x 0 len).length = min len (x.inode.fileSize.toNat - 0) :=
          length_contentAt
        rw [hlast.1.1, List.length_nil] at hlen
        omega
    have hiff := h.eq_content_iff hx hn hq
    rw [List.drop_zero] at hiff
    exact ⟨hiff, h.length_le hx hn⟩
  · exact readsFrom_ends hx hn 0 lens hpos hlong

end Reading

/-! ### The welcome file -/

theorem welcome_size : welcomeDentry.inode.fileSize.toNat = 41 := by decide +kernel

/-- Its first two bytes are different. -/
theorem welcome_bytes :
    foundFs.contentAt welcomeDentry 0 1 ≠ foundFs.contentAt welcomeDentry 1 1 := by
  have hbyte : ∀ i, i < 41 → foundFs.dev.byte welcomeDentry.inode.block i =
      welcomefileBody.getD i 0 := fun i hi => by
    have hb : welcomeDentry.inode.block = 3 := by decide
    rw [hb]
    exact freshDevice.byte_three hi
  have h0 : (foundFs.contentAt welcomeDentry 0 1)[0]? = some (welcomefileBody.getD 0 0) := by
    rw [← hbyte 0 (by decide)]
    simp [Fs.contentAt, Fs.content, welcome_size]
  have h1 : (foundFs.contentAt welcomeDentry 1 1)[0]? = some (welcomefileBody.getD 1 0) := by
    rw [← hbyte 1 (by decide)]
    simp [Fs.contentAt, Fs.content, welcome_size]
  intro h
  rw [h, h1] at h0
  exact absurd h0 (by decide +kernel)

/-- **The second byte of the welcome file is read as the first.** -/
theorem read_second_not_exact : ¬ ReadsExactly foundFs 1 welcomeDentry 1 1 := by
  intro h
  rw [readsExactly_iff foundFs_welcome (by rw [welcome_size]; decide)] at h
  rcases h with h | h | ⟨-, h⟩
  · rw [welcome_size] at h
    exact absurd h (by decide)
  · exact absurd h (by decide)
  · exact welcome_bytes h.symm

/-- Read whole, it is read right. -/
theorem reads_iff_welcome : ReadsExactly foundFs 1 welcomeDentry 0 4096 :=
  ((reads_iff foundFs_welcome (by rw [welcome_size]; decide)).1 0 4096).mpr (Or.inr (Or.inl rfl))

end Simplefs
