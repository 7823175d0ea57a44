/-
# The pid entry of `mm_debug.c`

A write to `/proc/mm_root/mm_entry` copies at most `INFO_LEN` bytes to the module's buffer `info`
and hands the buffer to `kstrtoint`; a read of the entry prints the buffer with `%s`.  To both it
is a C string.  But the buffer is cleared once, when the module is loaded, and nobody writes a NUL
behind what a write has copied: a write that is shorter than an earlier one ends in the middle of
it, and one of 16 bytes does not end at all.

`info` points into the memory of the kernel, of which nothing else is known.  `kstrtoint` is not
part of the module; it is given the memory and the address of its string.  `printk` is left out.
-/
import Mathlib.Data.List.GetD
import Simplefs.Lib.ByteMem

namespace MmDebug

open ByteMem

/-! ## 1. The module -/

/-- `INFO_LEN`. -/
abbrev infoLen : Nat := 16

abbrev ENOMEM : Int := 12
abbrev EFAULT : Int := 14

/-- The kernel's memory, the module's two variables, and whether its directory and its entry are
there. -/
structure State where
  mem : ByteMem
  info : Nat
  mmPid : Int
  procRoot : Bool
  procEntry : Bool

/-- `kstrtoint(s, base, &res)`: the number that the string at an address stands for, if it does. -/
abbrev Kstrtoint := ByteMem → Nat → Nat → Option Int

/-- `mm_create_proc_entry`: `mkdir` and `create` say whether the directory and the entry can be
made. -/
def mmCreateProcEntry (mkdir create : Bool) (s : State) : Int × State :=
  if mkdir then
    let s1 := { s with procRoot := true }
    if create then (0, { s1 with procEntry := true })
    else (-ENOMEM, { s1 with procEntry := false, procRoot := false })
  else (-ENOMEM, s)

/-- `mmproc_init`: `kmalloc` returns an address, or `NULL`. -/
def mmprocInit (kmalloc : Option Nat) (mkdir create : Bool) (s : State) : Int × State :=
  match kmalloc with
  | none => (-ENOMEM, { s with info := 0 })
  | some p =>
    let s1 := { s with info := p, mem := s.mem.fill p infoLen 0 }
    -- what `mm_create_proc_entry` returns is not looked at
    (0, (mmCreateProcEntry mkdir create s1).2)

/-- A call of `write`: the `count` bytes of the user's buffer, of which the first `copied` can be
read. -/
structure Write where
  buffer : List UInt8
  copied : Nat

/-- What `copy_from_user` leaves: behind the last byte that can be read it writes zeros. -/
def Write.copyFromUser (w : Write) : List UInt8 :=
  w.buffer.take w.copied ++ List.replicate (w.buffer.length - w.copied) 0

/-- `proc_mm_write`. -/
def procMmWrite (kstrtoint : Kstrtoint) (s : State) (w : Write) : Int × State :=
  if infoLen < w.buffer.length then (-EFAULT, s)
  else
    let s1 := { s with mem := s.mem.store s.info w.copyFromUser }
    if w.copied < w.buffer.length then (-EFAULT, s1)
    else
      -- `kstrtoint` stores a number if there is one; what it returns is not looked at
      (w.buffer.length, { s1 with mmPid := (kstrtoint s1.mem s1.info 10).getD s1.mmPid })

/-- `proc_mm_show`: what it prints, or `none` if it reads on behind the buffer. -/
def procMmShow (s : State) : Option (List UInt8) :=
  let info := s.mem.cstr s.info infoLen
  if info.length < infoLen then some (info ++ [10]) else none

/-! ## 2. Loading the module -/

@[simp] theorem mmCreateProcEntry_mem (mkdir create : Bool) (s : State) :
    (mmCreateProcEntry mkdir create s).2.mem = s.mem := by
  cases mkdir <;> cases create <;> rfl

@[simp] theorem mmCreateProcEntry_info (mkdir create : Bool) (s : State) :
    (mmCreateProcEntry mkdir create s).2.info = s.info := by
  cases mkdir <;> cases create <;> rfl

/-- **The module is loaded with a buffer of zeros**, whether or not there is an entry to read it
by. -/
theorem mmprocInit_byte {kmalloc : Option Nat} {mkdir create : Bool} {s₀ s : State}
    (hinit : mmprocInit kmalloc mkdir create s₀ = (0, s)) {i : Nat} (hi : i < infoLen) :
    s.mem (s.info + i) = 0 := by
  cases kmalloc with
  | none => cases hinit
  | some p =>
    cases hinit
    simp only [mmCreateProcEntry_mem, mmCreateProcEntry_info, ByteMem.fill]
    exact ByteMem.patch_add _ _ hi

/-! ## 3. One write -/

/-- A write that `proc_mm_write` accepts. -/
def Write.Accepted (w : Write) : Prop := w.buffer.length ≤ infoLen ∧ w.buffer.length ≤ w.copied

section

variable {kstrtoint : Kstrtoint} {s : State} {w : Write}

/-- The state once the bytes are copied. -/
def State.copied (s : State) (w : Write) : State :=
  { s with mem := s.mem.store s.info w.copyFromUser }

/-- The state once `kstrtoint` has read the buffer. -/
def State.parsed (kstrtoint : Kstrtoint) (s : State) : State :=
  { s with mmPid := (kstrtoint s.mem s.info 10).getD s.mmPid }

/-- **What a write does**: it is refused, it copies and fails, or it is accepted. -/
theorem procMmWrite_cases (kstrtoint : Kstrtoint) (s : State) (w : Write) :
    infoLen < w.buffer.length ∧ procMmWrite kstrtoint s w = (-EFAULT, s) ∨
      (w.buffer.length ≤ infoLen ∧ w.copied < w.buffer.length) ∧
        procMmWrite kstrtoint s w = (-EFAULT, s.copied w) ∨
      w.Accepted ∧
        procMmWrite kstrtoint s w = ((w.buffer.length : Int), (s.copied w).parsed kstrtoint) := by
  unfold procMmWrite
  by_cases hlong : infoLen < w.buffer.length
  · exact Or.inl ⟨hlong, if_pos hlong⟩
  · have hlen : w.buffer.length ≤ infoLen := Nat.not_lt.mp hlong
    rw [if_neg hlong]
    by_cases hfault : w.copied < w.buffer.length
    · exact Or.inr (Or.inl ⟨⟨hlen, hfault⟩, if_pos hfault⟩)
    · exact Or.inr (Or.inr ⟨⟨hlen, Nat.not_lt.mp hfault⟩, if_neg hfault⟩)

@[simp] theorem procMmWrite_info : (procMmWrite kstrtoint s w).2.info = s.info := by
  rcases procMmWrite_cases kstrtoint s w with ⟨-, h⟩ | ⟨-, h⟩ | ⟨-, h⟩ <;> rw [h] <;> rfl

theorem Write.Accepted.copyFromUser (h : w.Accepted) : w.copyFromUser = w.buffer := by
  rw [Write.copyFromUser, List.take_of_length_le h.2, Nat.sub_eq_zero_of_le h.2,
    List.replicate_zero, List.append_nil]

/-- What an accepted write leaves in the buffer. -/
theorem Write.Accepted.byte (h : w.Accepted) (i : Nat) :
    (procMmWrite kstrtoint s w).2.mem (s.info + i) = w.buffer.getD i (s.mem (s.info + i)) := by
  have hmem : (procMmWrite kstrtoint s w).2.mem = s.mem.store s.info w.buffer := by
    rcases procMmWrite_cases kstrtoint s w with ⟨hlong, -⟩ | ⟨⟨-, hfault⟩, -⟩ | ⟨-, hr⟩
    · exact absurd hlong (Nat.not_lt.mpr h.1)
    · exact absurd hfault (Nat.not_lt.mpr h.2)
    · rw [hr, ← h.copyFromUser]
      rfl
  rw [hmem, ByteMem.store]
  rcases Nat.lt_or_ge i w.buffer.length with hi | hi
  · rw [ByteMem.patch_add _ _ hi, List.getD_eq_getElem _ _ hi, List.getD_eq_getElem _ _ hi]
  · rw [ByteMem.patch_of_not_mem _ _ (by omega), List.getD_eq_default _ _ hi]

end

/-! ## 4. A sequence of writes -/

/-- The state after some writes. -/
def writes (kstrtoint : Kstrtoint) (s : State) (ws : List Write) : State :=
  ws.foldl (fun s w => (procMmWrite kstrtoint s w).2) s

/-- What some writes leave at offset `i` of a buffer that holds `b` there: the byte of the last one
that came so far. -/
def leftAt (ws : List Write) (i : Nat) (b : UInt8) : UInt8 :=
  ws.foldl (fun b w => w.buffer.getD i b) b

section

variable {kstrtoint : Kstrtoint}

@[simp] theorem writes_info (s : State) (ws : List Write) :
    (writes kstrtoint s ws).info = s.info := by
  induction ws generalizing s with
  | nil => rfl
  | cons w ws ih => exact (ih _).trans procMmWrite_info

/-- **Every byte of the buffer is that of the last write that came so far.** -/
theorem writes_byte {s : State} {ws : List Write} (h : ∀ w ∈ ws, w.Accepted) (i : Nat) :
    (writes kstrtoint s ws).mem (s.info + i) = leftAt ws i (s.mem (s.info + i)) := by
  induction ws generalizing s with
  | nil => rfl
  | cons w ws ih =>
    have hw : w.Accepted := h w (by simp)
    have hrest := ih (s := (procMmWrite kstrtoint s w).2) fun u hu => h u (by simp [hu])
    rw [procMmWrite_info, hw.byte] at hrest
    exact hrest

end

/-! ## 5. The last write -/

/-- The C string that `kstrtoint` parses, and that `proc_mm_show` prints, is that of the write, and
ends inside the buffer. -/
structure ShowsLast (s : State) (last : Write) : Prop where
  parsed : ByteMem.IsCStr s.mem s.info (upToNul last.buffer)
  inside : (upToNul last.buffer).length < infoLen
  shown : procMmShow s = some (upToNul last.buffer ++ [10])

/-- The byte at offset `i` of the buffer was stored by an earlier write, and not by the last. -/
def StoredEarlier (earlier : List Write) (last : Write) (i : Nat) : Prop :=
  last.buffer.length ≤ i ∧ ∃ w ∈ earlier, i < w.buffer.length

/-- **The entry reflects the last write only**: of the bytes that are read, those of the string and
the NUL behind it, none is left from an earlier write. -/
structure ReflectsLast (s : State) (earlier : List Write) (last : Write) : Prop where
  shows : ShowsLast s last
  fresh : ∀ i, i ≤ (upToNul last.buffer).length → ¬ StoredEarlier earlier last i

section

variable {kstrtoint : Kstrtoint} {kmalloc : Option Nat} {mkdir create : Bool} {s₀ s : State}
  {earlier : List Write} {last : Write}

/-- Where no write came, nothing has changed. -/
theorem leftAt_of_short {ws : List Write} {i : Nat} (h : ∀ w ∈ ws, w.buffer.length ≤ i)
    (b : UInt8) : leftAt ws i b = b := by
  induction ws with
  | nil => rfl
  | cons w ws ih =>
    have hw : w.buffer.getD i b = b := List.getD_eq_default _ _ (h w (by simp))
    have hrest : leftAt ws i b = b := ih fun u hu => h u (by simp [hu])
    rwa [leftAt, List.foldl_cons, hw]

/-- The buffer after the last write. -/
theorem byte_last (hinit : mmprocInit kmalloc mkdir create s₀ = (0, s))
    (hacc : ∀ w ∈ earlier ++ [last], w.Accepted) {i : Nat} (hi : i < infoLen) :
    (writes kstrtoint s (earlier ++ [last])).mem (s.info + i) =
      last.buffer.getD i (leftAt earlier i 0) := by
  rw [writes_byte hacc, mmprocInit_byte hinit hi, leftAt, List.foldl_append]
  rfl

/-- A reader of the buffer sees what `kstrtoint` sees. -/
theorem showsLast_of_parsed (hparsed : ByteMem.IsCStr s.mem s.info (upToNul last.buffer))
    (hinside : (upToNul last.buffer).length < infoLen) : ShowsLast s last := by
  refine ⟨hparsed, hinside, ?_⟩
  have hcstr := (ByteMem.isCStr_iff s.mem hinside).mp hparsed
  simp only [procMmShow, hcstr, if_pos hinside]

/-- **What is read is the last write exactly when** it holds a NUL, or leaves room for one and there
is one. -/
theorem showsLast_iff (hinit : mmprocInit kmalloc mkdir create s₀ = (0, s))
    (hacc : ∀ w ∈ earlier ++ [last], w.Accepted) :
    ShowsLast (writes kstrtoint s (earlier ++ [last])) last ↔
      0 ∈ last.buffer ∨
        last.buffer.length < infoLen ∧ leftAt earlier last.buffer.length 0 = 0 := by
  have hlast : last.buffer.length ≤ infoLen := (hacc last (by simp)).1
  have hbyte : ∀ i, i < infoLen →
      (writes kstrtoint s (earlier ++ [last])).mem (s.info + i) =
        last.buffer.getD i (leftAt earlier i 0) := fun i hi => byte_last hinit hacc hi
  constructor
  · intro h
    by_cases hz : 0 ∈ last.buffer
    · exact Or.inl hz
    · have hlen := h.inside
      have hnul := h.parsed.nul
      rw [writes_info, hbyte _ hlen, getD_length_upToNul, if_neg hz] at hnul
      rw [upToNul_of_not_mem hz] at hlen hnul
      exact Or.inr ⟨hlen, hnul⟩
  · intro h
    have hinside : (upToNul last.buffer).length < infoLen := by
      rcases h with hz | ⟨hlen, -⟩
      · exact Nat.lt_of_lt_of_le (length_upToNul_lt hz) hlast
      · by_cases hz : 0 ∈ last.buffer
        · exact Nat.lt_of_lt_of_le (length_upToNul_lt hz) hlast
        · rwa [upToNul_of_not_mem hz]
    refine showsLast_of_parsed ⟨fun i hi => ?_, zero_not_mem_upToNul _, ?_⟩ hinside
    · rw [writes_info, hbyte i (Nat.lt_trans hi hinside), getD_upToNul hi]
    · rw [writes_info, hbyte _ hinside, getD_length_upToNul]
      split
      · rfl
      · rename_i hz
        rw [upToNul_of_not_mem hz]
        exact (h.resolve_left hz).2

/-- **The entry reflects the last write only exactly when** that holds a NUL, or is shorter than the
buffer and no earlier write is longer: for every sequence of accepted writes, wherever the buffer
is and whatever the memory holds.  The string alone is right in some more cases, in which the NUL
behind it was left by an earlier write. -/
theorem reflectsLast_iff (hinit : mmprocInit kmalloc mkdir create s₀ = (0, s))
    (hacc : ∀ w ∈ earlier ++ [last], w.Accepted) :
    (ReflectsLast (writes kstrtoint s (earlier ++ [last])) earlier last ↔
      0 ∈ last.buffer ∨
        last.buffer.length < infoLen ∧ ∀ w ∈ earlier, w.buffer.length ≤ last.buffer.length) ∧
    (ShowsLast (writes kstrtoint s (earlier ++ [last])) last ↔
      0 ∈ last.buffer ∨
        last.buffer.length < infoLen ∧ leftAt earlier last.buffer.length 0 = 0) := by
  have hshows : ShowsLast (writes kstrtoint s (earlier ++ [last])) last ↔
      0 ∈ last.buffer ∨
        last.buffer.length < infoLen ∧ leftAt earlier last.buffer.length 0 = 0 :=
    showsLast_iff hinit hacc
  refine ⟨⟨fun h => ?_, fun h => ?_⟩, hshows⟩
  · rcases hshows.mp h.shows with hz | ⟨hlen, -⟩
    · exact Or.inl hz
    · by_cases hz : 0 ∈ last.buffer
      · exact Or.inl hz
      · refine Or.inr ⟨hlen, fun w hw => ?_⟩
        by_contra hlong
        refine h.fresh last.buffer.length ?_ ⟨Nat.le_refl _, w, hw, Nat.lt_of_not_le hlong⟩
        exact Nat.le_of_eq (congrArg List.length (upToNul_of_not_mem hz).symm)
  · rcases h with hz | ⟨hlen, hshort⟩
    · refine ⟨hshows.mpr (Or.inl hz), ?_⟩
      rintro i hi ⟨hle, -⟩
      exact absurd (Nat.le_trans hle hi) (Nat.not_le.mpr (length_upToNul_lt hz))
    · refine ⟨hshows.mpr (Or.inr ⟨hlen, leftAt_of_short hshort 0⟩), ?_⟩
      rintro i - ⟨hle, w, hw, hlt⟩
      exact absurd (Nat.le_trans (hshort w hw) hle) (Nat.not_le.mpr hlt)

end

/-! ### Two writes -/

/-- `kstrtoint`, on the digits that are written here. -/
def digits : Kstrtoint := fun mem a base =>
  let bs := mem.cstr a infoLen
  if !bs.isEmpty && bs.all fun b => decide (48 ≤ b) && decide (b < 58) then
    some (bs.foldl (fun n b => base * n + (b.toNat - 48)) 0 : Nat)
  else none

/-- Before the module is loaded, in a memory of zeros. -/
def unloaded : State := ⟨fun _ => 0, 0, 0, false, false⟩

/-- Once it is loaded. -/
def loaded : State := (mmprocInit (some 4096) true true unloaded).2

/-- `12345`. -/
def fiveDigits : Write := ⟨[49, 50, 51, 52, 53], 5⟩

/-- `9`. -/
def oneDigit : Write := ⟨[57], 1⟩

/-- The longer one last. -/
theorem reflectsLast_iff_longer :
    ReflectsLast (writes digits loaded [oneDigit, fiveDigits]) [oneDigit] fiveDigits := by
  have hinit : mmprocInit (some 4096) true true unloaded = (0, loaded) := rfl
  have hacc : ∀ w ∈ [oneDigit] ++ [fiveDigits], w.Accepted := by
    intro w hw
    simp only [List.cons_append, List.nil_append, List.mem_cons, List.not_mem_nil, or_false] at hw
    rcases hw with rfl | rfl
    · exact ⟨by decide, by decide⟩
    · exact ⟨by decide, by decide⟩
  exact (reflectsLast_iff hinit hacc).1.mpr (Or.inr ⟨by decide, by simp [oneDigit, fiveDigits]⟩)

/-- **The shorter one last**: the entry shows, and the pid is, `92345`. -/
theorem shorter_not_reflectsLast :
    procMmShow (writes digits loaded [fiveDigits, oneDigit]) =
        some [57, 50, 51, 52, 53, 10] ∧
      (writes digits loaded [fiveDigits, oneDigit]).mmPid = 92345 ∧
      ¬ ReflectsLast (writes digits loaded [fiveDigits, oneDigit]) [fiveDigits] oneDigit := by
  have hshown : procMmShow (writes digits loaded [fiveDigits, oneDigit]) =
      some [57, 50, 51, 52, 53, 10] := by decide
  refine ⟨hshown, by decide +kernel, fun h => ?_⟩
  have hone := hshown.symm.trans h.shows.shown
  exact absurd hone (by decide)

end MmDebug
