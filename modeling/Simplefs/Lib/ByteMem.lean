/-
# Byte-addressed memory

A memory is a total function from addresses to bytes.  Everything a C program does to a
buffer -- an assignment through a struct pointer, `memset`, `memcpy`, `strcpy`, `write(2)` --
is one shape of update, `patch`: the bytes of one interval are replaced and every other byte
stays.  The two lemmas `patch_of_mem` and `patch_of_not_mem` are the whole theory of updates;
the little-endian words and the C strings below are read through them.

Nothing here knows what the memory is the memory of.
-/
import Mathlib.Algebra.Group.Int.Defs
import Mathlib.Algebra.Group.Nat.Defs
import Mathlib.Logic.Function.Basic
import Mathlib.Tactic.Common

/-- Byte-addressed memory. -/
abbrev ByteMem := Nat → UInt8

namespace ByteMem

/-! ## 1. Updates -/

/-- Replace the `n` bytes from address `a` by `f 0, f 1, ..`. -/
def patch (m : ByteMem) (a n : Nat) (f : Nat → UInt8) : ByteMem :=
  fun x => if a ≤ x ∧ x < a + n then f (x - a) else m x

theorem patch_of_mem (m : ByteMem) {a n x : Nat} (f : Nat → UInt8) (h : a ≤ x) (h' : x < a + n) :
    m.patch a n f x = f (x - a) := if_pos ⟨h, h'⟩

theorem patch_of_not_mem (m : ByteMem) {a n x : Nat} (f : Nat → UInt8) (h : x < a ∨ a + n ≤ x) :
    m.patch a n f x = m x := if_neg (by omega)

/-- The byte at offset `i` of a patched interval. -/
theorem patch_add (m : ByteMem) {a n i : Nat} (f : Nat → UInt8) (h : i < n) :
    m.patch a n f (a + i) = f i := by
  rw [patch_of_mem m f (by omega) (by omega), Nat.add_sub_cancel_left]

/-- `memset(a, b, n)`. -/
def fill (m : ByteMem) (a n : Nat) (b : UInt8) : ByteMem := m.patch a n fun _ => b

/-- Store a list of bytes at `a`. -/
def store (m : ByteMem) (a : Nat) (bs : List UInt8) : ByteMem :=
  m.patch a bs.length fun i => bs.getD i 0

/-! ## 2. Little-endian words -/

/-- The little-endian number in the `n` bytes from `a`. -/
def loadLE (m : ByteMem) (a : Nat) : Nat → Nat
  | 0 => 0
  | n + 1 => (m a).toNat + 256 * loadLE m (a + 1) n

/-- The `i`-th little-endian byte of a number. -/
def leByte (v i : Nat) : UInt8 := UInt8.ofNat (v / 256 ^ i)

theorem loadLE_congr {m m' : ByteMem} : ∀ {n a a' : Nat}, (∀ i, i < n → m (a + i) = m' (a' + i)) →
    loadLE m a n = loadLE m' a' n
  | 0, _, _, _ => rfl
  | n + 1, a, a', h => by
    have h0 : m a = m' a' := h 0 (Nat.succ_pos n)
    have ht : loadLE m (a + 1) n = loadLE m' (a' + 1) n := by
      refine loadLE_congr fun i hi => ?_
      have := h (i + 1) (by omega)
      rwa [← Nat.add_assoc, ← Nat.add_assoc, Nat.add_right_comm, Nat.add_right_comm a'] at this
    simp only [loadLE, h0, ht]

/-- The bytes of `v` read back as `v`, whenever `v` fits. -/
theorem loadLE_of_leByte {m : ByteMem} : ∀ {n a v : Nat}, v < 256 ^ n →
    (∀ i, i < n → m (a + i) = leByte v i) → loadLE m a n = v
  | 0, _, v, hv, _ => by simp only [Nat.pow_zero, Nat.lt_one_iff] at hv; simp [loadLE, hv]
  | n + 1, a, v, hv, h => by
    have h0 : m a = leByte v 0 := h 0 (Nat.succ_pos n)
    have hlt : v / 256 < 256 ^ n := by
      rw [Nat.div_lt_iff_lt_mul (by omega)]
      rwa [Nat.pow_succ] at hv
    have ht : loadLE m (a + 1) n = v / 256 := by
      refine loadLE_of_leByte hlt fun i hi => ?_
      have := h (i + 1) (by omega)
      rw [show a + 1 + i = a + (i + 1) by omega, this, leByte, leByte, Nat.div_div_eq_div_mul,
        Nat.pow_succ, Nat.mul_comm 256]
    have hb : (leByte v 0).toNat = v % 256 := by simp [leByte]
    simp only [loadLE, h0, ht, hb]
    omega

/-- A number determines its bytes. -/
theorem loadLE_inj {m m' : ByteMem} {a a' n : Nat} (h : loadLE m a n = loadLE m' a' n) :
    ∀ i, i < n → m (a + i) = m' (a' + i) := by
  induction n generalizing a a' with
  | zero => exact fun i hi => absurd hi (Nat.not_lt_zero i)
  | succ n ih =>
    have hm : (m a).toNat < 256 := (m a).toBitVec.isLt
    have hm' : (m' a').toNat < 256 := (m' a').toBitVec.isLt
    rw [loadLE, loadLE] at h
    have h0 : m a = m' a' := UInt8.toNat_inj.mp (by omega)
    have ht : loadLE m (a + 1) n = loadLE m' (a' + 1) n := by omega
    intro i hi
    rcases i with _ | i
    · exact h0
    · have := ih ht i (by omega)
      rwa [Nat.add_right_comm, Nat.add_right_comm a'] at this

theorem loadLE_lt (m : ByteMem) : ∀ n a, loadLE m a n < 256 ^ n
  | 0, _ => Nat.one_pos
  | n + 1, a => by
    have h := loadLE_lt m n (a + 1)
    have h0 : (m a).toNat < 256 := (m a).toBitVec.isLt
    rw [loadLE, Nat.pow_succ]
    omega

/-- A 64-bit little-endian word. -/
def load64 (m : ByteMem) (a : Nat) : BitVec 64 := BitVec.ofNat 64 (loadLE m a 8)

/-- Store a 64-bit little-endian word. -/
def store64 (m : ByteMem) (a : Nat) (v : BitVec 64) : ByteMem := m.patch a 8 (leByte v.toNat)

/-- A 32-bit little-endian word. -/
def load32 (m : ByteMem) (a : Nat) : BitVec 32 := BitVec.ofNat 32 (loadLE m a 4)

/-- Store a 32-bit little-endian word. -/
def store32 (m : ByteMem) (a : Nat) (v : BitVec 32) : ByteMem := m.patch a 4 (leByte v.toNat)

theorem load64_of_leByte {m : ByteMem} {a : Nat} {v : BitVec 64}
    (h : ∀ i, i < 8 → m (a + i) = leByte v.toNat i) : m.load64 a = v := by
  rw [load64, loadLE_of_leByte (by have := v.isLt; omega) h, BitVec.ofNat_toNat, BitVec.setWidth_eq]

theorem load32_of_leByte {m : ByteMem} {a : Nat} {v : BitVec 32}
    (h : ∀ i, i < 4 → m (a + i) = leByte v.toNat i) : m.load32 a = v := by
  rw [load32, loadLE_of_leByte (by have := v.isLt; omega) h, BitVec.ofNat_toNat, BitVec.setWidth_eq]

theorem load64_congr {m m' : ByteMem} {a a' : Nat} (h : ∀ i, i < 8 → m (a + i) = m' (a' + i)) :
    m.load64 a = m'.load64 a' := by rw [load64, loadLE_congr h, load64]

theorem load32_congr {m m' : ByteMem} {a a' : Nat} (h : ∀ i, i < 4 → m (a + i) = m' (a' + i)) :
    m.load32 a = m'.load32 a' := by rw [load32, loadLE_congr h, load32]

theorem load32_inj {m m' : ByteMem} {a a' : Nat} (h : m.load32 a = m'.load32 a') :
    ∀ i, i < 4 → m (a + i) = m' (a' + i) := by
  have hm := loadLE_lt m 4 a
  have hm' := loadLE_lt m' 4 a'
  have hn := congrArg BitVec.toNat h
  rw [load32, load32, BitVec.toNat_ofNat, BitVec.toNat_ofNat, Nat.mod_eq_of_lt (by omega),
    Nat.mod_eq_of_lt (by omega)] at hn
  exact loadLE_inj hn

theorem load64_store64 (m : ByteMem) (a : Nat) (v : BitVec 64) : (m.store64 a v).load64 a = v :=
  load64_of_leByte fun _ hi => patch_add m _ hi

theorem load32_store32 (m : ByteMem) (a : Nat) (v : BitVec 32) : (m.store32 a v).load32 a = v :=
  load32_of_leByte fun _ hi => patch_add m _ hi

/-- A word outside a patched interval is not changed by the patch. -/
theorem load64_patch (m : ByteMem) {a n b : Nat} (f : Nat → UInt8) (h : b + 8 ≤ a ∨ a + n ≤ b) :
    (m.patch a n f).load64 b = m.load64 b :=
  load64_congr fun _ _ => patch_of_not_mem m f (by omega)

theorem load32_patch (m : ByteMem) {a n b : Nat} (f : Nat → UInt8) (h : b + 4 ≤ a ∨ a + n ≤ b) :
    (m.patch a n f).load32 b = m.load32 b :=
  load32_congr fun _ _ => patch_of_not_mem m f (by omega)

/-- A word, by its two low bytes. -/
theorem toNat_load64 (m : ByteMem) (a : Nat) : (m.load64 a).toNat =
    (m a).toNat + 256 * ((m (a + 1)).toNat + 256 * loadLE m (a + 2) 6) := by
  have hlt := loadLE_lt m 8 a
  rw [load64, BitVec.toNat_ofNat, Nat.mod_eq_of_lt (by omega)]
  rfl

/-- A word of zero bytes is zero. -/
theorem load64_of_zero {m : ByteMem} {a : Nat} (h : ∀ i, i < 8 → m (a + i) = 0) : m.load64 a = 0 :=
  load64_of_leByte fun i hi => by rw [h i hi]; simp [leByte]

theorem load32_of_zero {m : ByteMem} {a : Nat} (h : ∀ i, i < 4 → m (a + i) = 0) : m.load32 a = 0 :=
  load32_of_leByte fun i hi => by rw [h i hi]; simp [leByte]

/-! ## 3. C strings -/

/-- The C string at `a`, read through at most `n` bytes: the bytes before the first NUL. -/
def cstr (m : ByteMem) (a : Nat) : Nat → List UInt8
  | 0 => []
  | n + 1 => if m a = 0 then [] else m a :: cstr m (a + 1) n

/-- It has no NUL in it. -/
theorem noNul_cstr (m : ByteMem) (n a : Nat) : 0 ∉ m.cstr a n := by
  induction n generalizing a with
  | zero => exact List.not_mem_nil
  | succ n ih =>
    rw [cstr]
    split
    · exact List.not_mem_nil
    · rename_i hne
      exact List.not_mem_cons_of_ne_of_not_mem (Ne.symm hne) (ih (a + 1))

theorem cstr_congr {m m' : ByteMem} : ∀ {n a a' : Nat}, (∀ i, i < n → m (a + i) = m' (a' + i)) →
    cstr m a n = cstr m' a' n
  | 0, _, _, _ => rfl
  | n + 1, a, a', h => by
    have h0 : m a = m' a' := h 0 (Nat.succ_pos n)
    have ht : cstr m (a + 1) n = cstr m' (a' + 1) n := by
      refine cstr_congr fun i hi => ?_
      have := h (i + 1) (by omega)
      rwa [← Nat.add_assoc, ← Nat.add_assoc, Nat.add_right_comm, Nat.add_right_comm a'] at this
    simp only [cstr, h0, ht]

/-- What `strcpy` leaves behind is read back as the string it copied. -/
theorem cstr_of_store {m : ByteMem} : ∀ {bs : List UInt8} {n a : Nat}, bs.length < n → 0 ∉ bs →
    (∀ i, i < bs.length → m (a + i) = bs.getD i 0) → m (a + bs.length) = 0 → cstr m a n = bs
  | _, 0, _, hn, _, _, _ => by omega
  | [], n + 1, a, _, _, _, h0 => by
    have h0' : m a = 0 := h0
    rw [cstr, if_pos h0']
  | b :: bs, n + 1, a, hn, hz, h, h0 => by
    have hb : m a = b := h 0 (by simp)
    have hne : b ≠ 0 := fun hb0 => hz (by simp [hb0])
    have ht : cstr m (a + 1) n = bs := by
      refine cstr_of_store (by simpa using hn) (fun hm => hz (List.mem_cons_of_mem _ hm)) ?_ ?_
      · intro i hi
        have := h (i + 1) (by simpa using hi)
        rwa [show a + (i + 1) = a + 1 + i by omega, List.getD_cons_succ] at this
      · rw [← h0]; congr 1; simp only [List.length_cons]; omega
    rw [cstr, hb, if_neg hne, ht]

/-- A C string that is read through fewer bytes is cut off. -/
theorem cstr_take (m : ByteMem) : ∀ {k n : Nat} (a : Nat), k ≤ n →
    (cstr m a n).take k = cstr m a k
  | 0, _, _, _ => List.take_zero
  | k + 1, 0, _, h => absurd h (Nat.not_succ_le_zero k)
  | k + 1, n + 1, a, h => by
    rw [cstr, cstr]
    split
    · exact List.take_nil
    · rw [List.take_succ_cons, cstr_take m (a + 1) (Nat.le_of_succ_le_succ h)]

/-- Reading bytes up to the first NUL. -/
theorem takeWhile_map_range' (m : ByteMem) : ∀ n a,
    ((List.range' a n).map m).takeWhile (fun b => b ≠ 0) = cstr m a n
  | 0, _ => rfl
  | n + 1, a => by
    rw [List.range'_succ, List.map_cons, List.takeWhile_cons, cstr]
    by_cases h : m a = 0
    · simp [h]
    · simpa [h] using takeWhile_map_range' m n (a + 1)

/-- The C string at `a` is `bs`: these bytes, none of them NUL, and a NUL behind them. -/
structure IsCStr (m : ByteMem) (a : Nat) (bs : List UInt8) : Prop where
  bytes : ∀ i, i < bs.length → m (a + i) = bs.getD i 0
  noNul : (0 : UInt8) ∉ bs
  nul : m (a + bs.length) = 0

theorem isCStr_cstr (m : ByteMem) : ∀ {n a : Nat}, (cstr m a n).length < n →
    IsCStr m a (cstr m a n)
  | 0, _, h => absurd h (Nat.not_lt_zero _)
  | n + 1, a, h => by
    by_cases h0 : m a = 0
    · rw [cstr, if_pos h0]
      exact ⟨fun i hi => absurd hi (Nat.not_lt_zero i), List.not_mem_nil, h0⟩
    · rw [cstr, if_neg h0] at h ⊢
      have ht := isCStr_cstr m (n := n) (a := a + 1) (by simpa using h)
      refine ⟨fun i hi => ?_, ?_, ?_⟩
      · rcases i with _ | i
        · rfl
        · have := ht.bytes i (by simpa using hi)
          rwa [Nat.add_assoc, Nat.add_comm 1] at this
      · rw [List.mem_cons, not_or]
        exact ⟨Ne.symm h0, ht.noNul⟩
      · have := ht.nul
        rwa [Nat.add_assoc, Nat.add_comm 1] at this

/-- **A reader that may read `n` bytes** sees the C string, if the string ends among them. -/
theorem isCStr_iff (m : ByteMem) {n a : Nat} {bs : List UInt8} (h : bs.length < n) :
    IsCStr m a bs ↔ cstr m a n = bs := by
  constructor
  · intro hbs
    exact cstr_of_store h hbs.noNul hbs.bytes hbs.nul
  · rintro rfl
    exact isCStr_cstr m h

/-! ### The C string in a list of bytes -/

/-- The bytes up to the first NUL, or all of them if there is none. -/
def upToNul (bs : List UInt8) : List UInt8 := bs.takeWhile fun b => b ≠ 0

theorem upToNul_cons (b : UInt8) (bs : List UInt8) :
    upToNul (b :: bs) = if b = 0 then [] else b :: upToNul bs := by
  by_cases hb : b = 0
  · simp [upToNul, hb]
  · simp [upToNul, hb]

theorem upToNul_of_not_mem {bs : List UInt8} (h : (0 : UInt8) ∉ bs) : upToNul bs = bs := by
  induction bs with
  | nil => rfl
  | cons b bs ih =>
    rw [List.mem_cons, not_or] at h
    rw [upToNul_cons, if_neg (Ne.symm h.1), ih h.2]

theorem zero_not_mem_upToNul (bs : List UInt8) : (0 : UInt8) ∉ upToNul bs := by
  induction bs with
  | nil => exact List.not_mem_nil
  | cons b bs ih =>
    rw [upToNul_cons]
    split
    · exact List.not_mem_nil
    · rename_i hb
      simpa [Ne.symm hb] using ih

theorem length_upToNul_lt {bs : List UInt8} (h : (0 : UInt8) ∈ bs) :
    (upToNul bs).length < bs.length := by
  induction bs with
  | nil => cases h
  | cons b bs ih =>
    rw [upToNul_cons]
    split
    · simp
    · rename_i hb
      simpa using ih ((List.mem_cons.mp h).resolve_left (Ne.symm hb))

/-- The bytes of the string. -/
theorem getD_upToNul {bs : List UInt8} {i : Nat} (hi : i < (upToNul bs).length) (b : UInt8) :
    bs.getD i b = (upToNul bs).getD i 0 := by
  induction bs generalizing i with
  | nil => exact absurd hi (Nat.not_lt_zero i)
  | cons c bs ih =>
    by_cases hc : c = 0
    · simp [upToNul_cons, hc] at hi
    · rw [upToNul_cons, if_neg hc] at hi ⊢
      rcases i with _ | i
      · rfl
      · exact ih (by simpa using hi)

/-- The byte behind it: the first NUL, or whatever follows the list. -/
theorem getD_length_upToNul (bs : List UInt8) (b : UInt8) :
    bs.getD (upToNul bs).length b = if 0 ∈ bs then 0 else b := by
  induction bs with
  | nil => rfl
  | cons c bs ih =>
    by_cases hc : c = 0
    · simp [upToNul_cons, hc]
    · rw [upToNul_cons, if_neg hc]
      simpa [Ne.symm hc] using ih

end ByteMem
