/-
# The text of a 64-bit machine, and its jumps

The code that a machine executes is a memory whose addresses wrap around at 2^64.  Code that is
patched while it is in use is patched five bytes at a time, because a `jmp rel32` is five bytes
long: the opcode `0xe9` and a signed 32-bit displacement, little-endian, from the end of the
instruction.

A range is a start and a length, and an address is in it if its distance from the start is less
than the length, modulo 2^64; so a range may well wrap around.
-/
import Simplefs.Lib.ByteMem

/-- The bytes of code, at 64-bit addresses. -/
abbrev Text := BitVec 64 → UInt8

namespace Text

/-! ## 1. Ranges -/

/-- The address `x` is one of the `n` from `a`. -/
def InRange (a : BitVec 64) (n : Nat) (x : BitVec 64) : Prop := (x - a).toNat < n

/-- No address is in both ranges. -/
def Apart (a : BitVec 64) (m : Nat) (b : BitVec 64) (n : Nat) : Prop :=
  ∀ x, InRange a m x → ¬ InRange b n x

theorem toNat_add_sub (a : BitVec 64) {i : Nat} (hi : i < 2 ^ 64) :
    (a + BitVec.ofNat 64 i - a).toNat = i := by
  rw [BitVec.add_comm, BitVec.add_sub_cancel, BitVec.toNat_ofNat, Nat.mod_eq_of_lt hi]

theorem inRange_add (a : BitVec 64) {i n : Nat} (hi : i < n) (h64 : i < 2 ^ 64) :
    InRange a n (a + BitVec.ofNat 64 i) := by
  rw [InRange, toNat_add_sub a h64]
  exact hi

/-- Ranges one behind the other, neither of which wraps around, are apart. -/
theorem apart_of_le {a b : BitVec 64} {m n : Nat} (h : a.toNat + m ≤ b.toNat)
    (hb : b.toNat + n ≤ 2 ^ 64) : Apart a m b n := by
  intro x ha hx
  rw [InRange, BitVec.toNat_sub] at ha hx
  omega

theorem Apart.symm {a b : BitVec 64} {m n : Nat} (h : Apart a m b n) : Apart b n a m :=
  fun x hb ha => h x ha hb

/-- Parts of ranges that are apart are apart. -/
theorem Apart.mono {a b : BitVec 64} {m n m' n' : Nat} (h : Apart a m b n) (hm : m' ≤ m)
    (hn : n' ≤ n) : Apart a m' b n' :=
  fun x ha hb => h x (Nat.lt_of_lt_of_le ha hm) (Nat.lt_of_lt_of_le hb hn)

/-- What is left of a range behind its first `k` addresses. -/
theorem Apart.drop {a b : BitVec 64} {m n : Nat} (h : Apart a m b n) (k : Nat) :
    Apart (a + BitVec.ofNat 64 k) (m - k) b n := by
  intro x hx
  refine h x ?_
  obtain ⟨y, rfl⟩ : ∃ y, x = a + BitVec.ofNat 64 k + y :=
    ⟨x - (a + BitVec.ofNat 64 k), by rw [BitVec.add_comm, BitVec.sub_add_cancel]⟩
  have hy : y.toNat < m - k := by
    rwa [InRange, BitVec.add_comm, BitVec.add_sub_cancel] at hx
  have hsub : a + BitVec.ofNat 64 k + y - a = BitVec.ofNat 64 k + y := by
    rw [BitVec.add_assoc, BitVec.add_comm, BitVec.add_sub_cancel]
  rw [InRange, hsub, BitVec.toNat_add, BitVec.toNat_ofNat]
  omega

/-- Ranges that are apart start at different addresses. -/
theorem Apart.start_ne {a b : BitVec 64} {m n : Nat} (h : Apart a m b n) (hm : 0 < m)
    (hn : 0 < n) : a ≠ b := by
  rintro rfl
  refine h a ?_ ?_ <;> rw [InRange, BitVec.sub_self]
  · exact hm
  · exact hn

/-! ## 2. Patching -/

/-- The bytes from `a` on. -/
def bytesAt (t : Text) (a : BitVec 64) : ByteMem := fun i => t (a + BitVec.ofNat 64 i)

/-- Write the first `n` bytes of `op` at `a`, and nothing else. -/
def poke (t : Text) (a : BitVec 64) (op : ByteMem) (n : Nat) : Text :=
  fun x => if (x - a).toNat < n then op (x - a).toNat else t x

theorem bytesAt_poke (t : Text) (a : BitVec 64) (op : ByteMem) {n i : Nat} (hi : i < n)
    (h64 : i < 2 ^ 64) : bytesAt (t.poke a op n) a i = op i := by
  rw [bytesAt, poke, toNat_add_sub a h64, if_pos hi]

/-- A range apart from the patch keeps its bytes. -/
theorem bytesAt_poke_apart (t : Text) {a b : BitVec 64} (op : ByteMem) {m n i : Nat}
    (h : Apart b m a n) (hi : i < m) (h64 : i < 2 ^ 64) :
    bytesAt (t.poke a op n) b i = bytesAt t b i := by
  have hout : ¬ (b + BitVec.ofNat 64 i - a).toNat < n := h _ (inRange_add b hi h64)
  rw [bytesAt, poke, if_neg hout, bytesAt]

/-- The `n` bytes from `a` are those of another text. -/
def Intact (t t' : Text) (a : BitVec 64) (n : Nat) : Prop :=
  ∀ i, i < n → bytesAt t' a i = bytesAt t a i

instance (t t' : Text) (a : BitVec 64) (n : Nat) : Decidable (Intact t t' a n) :=
  inferInstanceAs (Decidable (∀ i, i < n → bytesAt t' a i = bytesAt t a i))

/-! ## 3. Jumps -/

/-- A distance that a signed 32-bit displacement can express. -/
def FitsS32 (d : BitVec 64) : Prop := -2 ^ 31 ≤ d.toInt ∧ d.toInt < 2 ^ 31

/-- The target of a `jmp rel32` at `pc`. -/
def decodeJmp (t : Text) (pc : BitVec 64) : Option (BitVec 64) :=
  if bytesAt t pc 0 = 0xe9 then
    some (pc + 5 + ((bytesAt t pc).load32 1).signExtend 64)
  else none

/-- A distance that fits survives being cut to 32 bits. -/
theorem signExtend_setWidth {d : BitVec 64} (h : FitsS32 d) :
    (d.setWidth 32).signExtend 64 = d := by
  obtain ⟨hlo, hhi⟩ := h
  refine BitVec.eq_of_toInt_eq ?_
  calc ((d.setWidth 32).signExtend 64).toInt
      = (d.toNat : Int).bmod (2 ^ 32) := by
        rw [BitVec.toInt_signExtend_of_le (by omega), BitVec.toInt_setWidth]
    _ = d.toInt.bmod (2 ^ 32) := by
        rw [BitVec.toInt_eq_toNat_bmod, Int.bmod_bmod_of_dvd (by decide)]
    _ = d.toInt := Int.bmod_eq_of_le (by omega) (by omega)

/-- The jump is in the five bytes at `pc`. -/
theorem decodeJmp_congr {t t' : Text} {pc : BitVec 64} (h : Intact t t' pc 5) :
    decodeJmp t' pc = decodeJmp t pc := by
  have hload : (bytesAt t' pc).load32 1 = (bytesAt t pc).load32 1 :=
    ByteMem.load32_congr fun i hi => h (1 + i) (by omega)
  rw [decodeJmp, decodeJmp, h 0 (by omega), hload]

/-- **Encoding and decoding.**  The displacement to `target`, cut to 32 bits and written behind
the opcode, is a jump to `target`, as long as it fits. -/
theorem decodeJmp_poke (t : Text) {pc target : BitVec 64} {op : ByteMem} (h0 : op 0 = 0xe9)
    (hop : op.load32 1 = (target - (pc + 5)).setWidth 32) (hfit : FitsS32 (target - (pc + 5))) :
    decodeJmp (t.poke pc op 5) pc = some target := by
  have hload : (bytesAt (t.poke pc op 5) pc).load32 1 = op.load32 1 :=
    ByteMem.load32_congr fun i hi => bytesAt_poke t pc op (by omega) (by omega)
  rw [decodeJmp, bytesAt_poke t pc op (by omega) (by omega), if_pos h0, hload, hop,
    signExtend_setWidth hfit, BitVec.add_comm, BitVec.sub_add_cancel]

end Text
