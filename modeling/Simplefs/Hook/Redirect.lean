/-
# The connection-tracking hook

`hook.c` redirects `ipv4_conntrack_in` to its own function by writing a `jmp rel32` over its first
five bytes.  The hook calls the original through a pointer to a stub, and over the stub's first
five bytes another jump is written, to the instruction behind the patched ones: what was there is
not saved, it is skipped.

`hookConnInit` is the module's init function with all the states it passes through, since a call
of `ipv4_conntrack_in` may come at any time.  `text_poke_smp` changes its bytes with all CPUs
stopped, so a write is one step; `get_online_cpus`, `put_online_cpus` and `printk` are left out.
The code of the three functions is only known to be there or to have been written over.
-/
import Mathlib.Order.Monotone.Basic
import Simplefs.Lib.Text

namespace Hook

open Text

/-! ## 1. The module -/

/-- `OPTSIZE`. -/
abbrev optsize : Nat := 5

/-- What is looked up in the kernel's symbol table. -/
inductive Symbol
  | textPokeSmp
  | ipv4ConntrackIn
  deriving DecidableEq

/-- The addresses of the kernel's symbols (0 where there is none) and of the module's two
functions. -/
structure Addresses where
  kallsymsLookupName : Symbol → BitVec 64
  stubIpv4ConntrackIn : BitVec 64
  hookIpv4ConntrackIn : BitVec 64

/-- The module's variables, and the text that it patches. -/
structure State where
  savedOp : ByteMem
  jumpOp : ByteMem
  ptrOrigConntrackIn : BitVec 64
  ptrIpv4ConntrackIn : BitVec 64
  ptrPokeSmp : BitVec 64
  text : Text

/-- `hook_conn_init`: what it returns, and the states from the first to the last.  The pointers
are 64-bit and a difference of them is cut to an `s32`. -/
def hookConnInit (a : Addresses) (s : State) : Int × List State :=
  let s1 := { s with ptrPokeSmp := a.kallsymsLookupName .textPokeSmp }
  if s1.ptrPokeSmp = 0 then (-1, [s, s1])
  else
    let s2 := { s1 with ptrIpv4ConntrackIn := a.kallsymsLookupName .ipv4ConntrackIn }
    if s2.ptrIpv4ConntrackIn = 0 then (-1, [s, s1, s2])
    else
      let s3 := { s2 with jumpOp := s2.jumpOp.store 0 [0xe9] }
      let hookOffset : BitVec 32 :=
        (a.hookIpv4ConntrackIn - s3.ptrIpv4ConntrackIn - 5).setWidth 32
      let s4 := { s3 with jumpOp := s3.jumpOp.store32 1 hookOffset }
      let s5 := { s4 with savedOp := s4.savedOp.store 0 [0xe9] }
      let origOffset : BitVec 32 :=
        (s5.ptrIpv4ConntrackIn + 5 - (a.stubIpv4ConntrackIn + 5)).setWidth 32
      let s6 := { s5 with savedOp := s5.savedOp.store32 1 origOffset }
      let s7 := { s6 with text := s6.text.poke a.stubIpv4ConntrackIn s6.savedOp optsize }
      let s8 := { s7 with ptrOrigConntrackIn := a.stubIpv4ConntrackIn }
      let s9 := { s8 with text := s8.text.poke s8.ptrIpv4ConntrackIn s8.jumpOp optsize }
      (0, [s, s1, s2, s3, s4, s5, s6, s7, s8, s9])

/-! ## 2. Calls -/

/-- Where the three functions are: they do not overlap, and each has room for a jump. -/
structure Layout extends Addresses where
  conntrackSize : Nat
  stubSize : Nat
  hookSize : Nat
  conntrack_size : 5 < conntrackSize ∧ conntrackSize < 2 ^ 64
  stub_size : 5 ≤ stubSize ∧ stubSize < 2 ^ 64
  hook_size : 5 ≤ hookSize ∧ hookSize < 2 ^ 64
  conntrack_stub : Apart (kallsymsLookupName .ipv4ConntrackIn) conntrackSize
    stubIpv4ConntrackIn stubSize
  conntrack_hook : Apart (kallsymsLookupName .ipv4ConntrackIn) conntrackSize
    hookIpv4ConntrackIn hookSize
  stub_hook : Apart stubIpv4ConntrackIn stubSize hookIpv4ConntrackIn hookSize

namespace Layout

/-- `ipv4_conntrack_in`. -/
abbrev conntrack (L : Layout) : BitVec 64 := L.kallsymsLookupName .ipv4ConntrackIn

/-- `stub_ipv4_conntrack_in`. -/
abbrev stub (L : Layout) : BitVec 64 := L.stubIpv4ConntrackIn

/-- `hook_ipv4_conntrack_in`. -/
abbrev hook (L : Layout) : BitVec 64 := L.hookIpv4ConntrackIn

end Layout

/-- What the CPU runs into on a call. -/
inductive Event
  | jump
  | hook
  /-- The original code of `ipv4_conntrack_in`, from this address on. -/
  | original (entry : BitVec 64)
  /-- Anything else. -/
  | astray
  deriving DecidableEq

/-- What is at `pc`, and where the control goes from there.  The hook calls through its pointer.
`orig` is the text before the module was loaded; the original code is run from an address of
`ipv4_conntrack_in` if nothing of it has been written over from there on. -/
def control (L : Layout) (orig : Text) (s : State) (pc : BitVec 64) :
    Event × Option (BitVec 64) :=
  if pc = L.hook ∧ Intact orig s.text L.hook L.hookSize then
    (.hook, some s.ptrOrigConntrackIn)
  else if pc = L.conntrack ∧ Intact orig s.text L.conntrack L.conntrackSize then
    (.original pc, none)
  else if pc = L.conntrack + 5 ∧ Intact orig s.text (L.conntrack + 5) (L.conntrackSize - 5) then
    (.original pc, none)
  else match decodeJmp s.text pc with
    | some target => (.jump, some target)
    | none => (.astray, none)

/-- The first `n` events of a call that is at `pc`; `view k` is the state in which its `k`-th
transfer of control finds the machine. -/
def call (L : Layout) (orig : Text) (view : Nat → State) : Nat → Nat → BitVec 64 → List Event
  | 0, _, _ => []
  | n + 1, k, pc =>
    match control L orig (view k) pc with
    | (e, none) => [e]
    | (e, some pc') => e :: call L orig view n (k + 1) pc'

/-- The states that a call finds are among those of the init function, in the same order. -/
def Sees (seen : List State) (view : Nat → State) : Prop :=
  ∃ t : Nat → Nat, Monotone t ∧ ∀ k, seen[t k]? = some (view k)

/-- **The hook redirects and returns to the right places**, in every state on the way. -/
structure Redirects (L : Layout) (orig : Text) (seen : List State) : Prop where
  /-- There is a last state, it is what the calls find from then on, and both jumps are in it. -/
  jumps : ∃ s, seen.getLast? = some s ∧ Sees seen (fun _ => s) ∧
    decodeJmp s.text L.conntrack = some L.hook ∧ decodeJmp s.text L.stub = some (L.conntrack + 5)
  /-- Once `ipv4_conntrack_in` is not what it was, the way back is in place. -/
  ready : ∀ s ∈ seen, ¬ Intact orig s.text L.conntrack 5 →
    s.ptrOrigConntrackIn = L.stub ∧ decodeJmp s.text L.stub = some (L.conntrack + 5)
  /-- A call runs the original code once, with or without the hook before it. -/
  calls : ∀ view, Sees seen view → ∀ n, 4 ≤ n →
    call L orig view n 0 L.conntrack = [.original L.conntrack] ∨
    call L orig view n 0 L.conntrack = [.jump, .hook, .jump, .original (L.conntrack + 5)]

/-! ## 3. What the init function does -/

/-- The state that it ends in. -/
structure Armed (L : Layout) (orig : Text) (s : State) : Prop where
  jump : s.jumpOp 0 = 0xe9 ∧ s.jumpOp.load32 1 = (L.hook - (L.conntrack + 5)).setWidth 32
  saved : s.savedOp 0 = 0xe9 ∧ s.savedOp.load32 1 = (L.conntrack + 5 - (L.stub + 5)).setWidth 32
  text : s.text = (orig.poke L.stub s.savedOp 5).poke L.conntrack s.jumpOp 5
  orig : s.ptrOrigConntrackIn = L.stub
  conntrack : s.ptrIpv4ConntrackIn = L.conntrack

variable {L : Layout} {s : State}

/-- The five bytes of an instruction: the opcode, then the displacement. -/
theorem store_opcode (m : ByteMem) (d : BitVec 32) :
    (m.store 0 [0xe9]).store32 1 d 0 = 0xe9 ∧ ((m.store 0 [0xe9]).store32 1 d).load32 1 = d := by
  refine ⟨?_, ByteMem.load32_store32 _ _ _⟩
  rw [ByteMem.store32, ByteMem.patch_of_not_mem _ _ (by omega), ByteMem.store,
    ByteMem.patch_of_mem _ _ (by omega) (by decide)]
  rfl

/-- **All the states of a successful run**: until the last one only the stub has been patched. -/
theorem hookConnInit_seen (hret : (hookConnInit L.toAddresses s).1 = 0) : ∃ before final,
    (hookConnInit L.toAddresses s).2 = before ++ [final] ∧
    (∀ s' ∈ before, s'.text = s.text ∨ ∃ op, s'.text = s.text.poke L.stub op 5) ∧
    Armed L s.text final := by
  unfold hookConnInit at hret ⊢
  simp only at hret ⊢
  split at hret
  · simp at hret
  split at hret
  · simp at hret
  rename_i h1 h2
  rw [if_neg h1, if_neg h2]
  refine ⟨[_, _, _, _, _, _, _, _, _], _, rfl, ?_, ?_, ?_, rfl, rfl, rfl⟩
  · intro s' hs'
    simp only [List.mem_cons, List.not_mem_nil, or_false] at hs'
    rcases hs' with rfl | rfl | rfl | rfl | rfl | rfl | rfl | rfl | rfl
    all_goals first | exact Or.inl rfl | exact Or.inr ⟨_, rfl⟩
  · have hsub : L.hook - (L.conntrack + 5) = L.hook - L.conntrack - 5 := by bv_omega
    rw [hsub]
    exact store_opcode _ _
  · exact store_opcode _ _

/-! ## 4. The text, as patched -/

theorem Layout.hook_ne_conntrack (L : Layout) : L.conntrack ≠ L.hook := by
  have h5 := L.conntrack_size.1
  have h5' := L.hook_size.1
  exact L.conntrack_hook.start_ne (by omega) (by omega)

theorem Layout.hook_ne_behind (L : Layout) : L.conntrack + 5 ≠ L.hook := by
  have h5 := L.conntrack_size.1
  have h5' := L.hook_size.1
  exact (L.conntrack_hook.drop 5).start_ne (by omega) (by omega)

theorem Layout.stub_ne (L : Layout) :
    L.stub ≠ L.hook ∧ L.stub ≠ L.conntrack ∧ L.stub ≠ L.conntrack + 5 := by
  have h5 := L.conntrack_size.1
  have h5' := L.hook_size.1
  have h5'' := L.stub_size.1
  refine ⟨?_, ?_, ?_⟩
  · exact L.stub_hook.start_ne (by omega) (by omega)
  · exact (L.conntrack_stub.start_ne (by omega) (by omega)).symm
  · exact ((L.conntrack_stub.drop 5).start_ne (by omega) (by omega)).symm

/-- What is apart from both patches keeps its bytes. -/
theorem intact_poke {orig t : Text} {op : ByteMem} {a b : BitVec 64} {n : Nat}
    (h : Intact orig t a n) (hn : n < 2 ^ 64) (hab : Apart a n b 5) :
    Intact orig (t.poke b op 5) a n := fun i hi =>
  (bytesAt_poke_apart t op hab hi (by omega)).trans (h i hi)

namespace Armed

variable {orig : Text}

theorem intact (h : Armed L orig s) {a : BitVec 64} {n : Nat} (hn : n < 2 ^ 64)
    (hc : Apart a n L.conntrack 5) (hs : Apart a n L.stub 5) : Intact orig s.text a n := by
  rw [h.text]
  exact intact_poke (intact_poke (fun _ _ => rfl) hn hs) hn hc

/-- The hook's own code is as it was loaded. -/
theorem intact_hook (h : Armed L orig s) : Intact orig s.text L.hook L.hookSize :=
  h.intact L.hook_size.2
    (L.conntrack_hook.symm.mono (Nat.le_refl _) (Nat.le_of_lt L.conntrack_size.1))
    (L.stub_hook.symm.mono (Nat.le_refl _) L.stub_size.1)

/-- So is the original code, behind the jump. -/
theorem intact_behind (h : Armed L orig s) :
    Intact orig s.text (L.conntrack + 5) (L.conntrackSize - 5) := by
  obtain ⟨h5, h64⟩ := L.conntrack_size
  have hstub := L.conntrack_stub.mono (Nat.le_refl _) L.stub_size.1
  refine h.intact (by omega) (fun x hx hx' => ?_) (hstub.drop 5)
  have hy : (x - (L.conntrack + 5)).toNat < L.conntrackSize - 5 := hx
  have hy' : (x - L.conntrack).toNat < 5 := hx'
  bv_omega

/-- The jump at `ipv4_conntrack_in`. -/
theorem decode_conntrack (h : Armed L orig s) (hfit : FitsS32 (L.hook - (L.conntrack + 5))) :
    decodeJmp s.text L.conntrack = some L.hook := by
  rw [h.text]
  exact decodeJmp_poke _ h.jump.1 h.jump.2 hfit

/-- The jump at the stub. -/
theorem decode_stub (h : Armed L orig s) (hfit : FitsS32 (L.conntrack - L.stub)) :
    decodeJmp s.text L.stub = some (L.conntrack + 5) := by
  have hsub : L.conntrack + 5 - (L.stub + 5) = L.conntrack - L.stub := by bv_omega
  have hstub : Apart L.stub 5 L.conntrack 5 :=
    L.conntrack_stub.symm.mono L.stub_size.1 (Nat.le_of_lt L.conntrack_size.1)
  rw [h.text, decodeJmp_congr (intact_poke (fun _ _ => rfl) (by omega) hstub)]
  exact decodeJmp_poke _ h.saved.1 h.saved.2 (hsub ▸ hfit)

end Armed

/-! ## 5. Calls, at any time -/

section

variable {orig : Text}

/-- Where `ipv4_conntrack_in` is as it was, a call runs it. -/
theorem control_original (h : Intact orig s.text L.conntrack L.conntrackSize) :
    control L orig s L.conntrack = (.original L.conntrack, none) := by
  rw [control, if_neg fun hc => L.hook_ne_conntrack hc.1, if_pos ⟨rfl, h⟩]

/-- With the jumps in place, a call goes through the hook and the stub. -/
theorem Armed.call_eq (h : Armed L orig s) (hfit : FitsS32 (L.hook - (L.conntrack + 5)))
    (hfit' : FitsS32 (L.conntrack - L.stub))
    (hno : ¬ Intact orig s.text L.conntrack L.conntrackSize) {view : Nat → State}
    (hview : ∀ k, view k = s) {n : Nat} (hn : 4 ≤ n) : call L orig view n 0 L.conntrack =
      [.jump, .hook, .jump, .original (L.conntrack + 5)] := by
  obtain ⟨hsh, hsc, hsb⟩ := L.stub_ne
  have hbc : L.conntrack + 5 ≠ L.conntrack := by bv_omega
  have h1 : control L orig s L.conntrack = (.jump, some L.hook) := by
    rw [control, if_neg fun hc => L.hook_ne_conntrack hc.1, if_neg fun hc => hno hc.2,
      if_neg fun hc => hbc hc.1.symm, h.decode_conntrack hfit]
  have h2 : control L orig s L.hook = (.hook, some L.stub) := by
    rw [control, if_pos ⟨rfl, h.intact_hook⟩, h.orig]
  have h3 : control L orig s L.stub = (.jump, some (L.conntrack + 5)) := by
    rw [control, if_neg fun hc => hsh hc.1, if_neg fun hc => hsc hc.1,
      if_neg fun hc => hsb hc.1, h.decode_stub hfit']
  have h4 : control L orig s (L.conntrack + 5) = (.original (L.conntrack + 5), none) := by
    rw [control, if_neg fun hc => L.hook_ne_behind hc.1, if_neg fun hc => hbc hc.1,
      if_pos ⟨rfl, h.intact_behind⟩]
  obtain ⟨m, rfl⟩ : ∃ m, n = m + 4 := ⟨n - 4, by omega⟩
  simp only [call, hview, h1, h2, h3, h4]

/-- A call that comes late finds the last state. -/
theorem sees_last (before : List State) (final : State) :
    Sees (before ++ [final]) fun _ => final :=
  ⟨fun _ => before.length, monotone_const, fun _ => List.getElem?_concat_length⟩

/-- A call that finds the last state finds no other one afterwards. -/
theorem Sees.cases {before : List State} {final : State} {view : Nat → State}
    (h : Sees (before ++ [final]) view) : view 0 ∈ before ∨ ∀ k, view k = final := by
  obtain ⟨t, hmono, ht⟩ := h
  rcases Nat.lt_or_ge (t 0) before.length with hlt | hge
  · left
    have h0 := ht 0
    rw [List.getElem?_append_left hlt] at h0
    exact List.mem_of_getElem? h0
  · right
    intro k
    have hk := ht k
    have hle : before.length ≤ t k := hge.trans (hmono (Nat.zero_le k))
    rw [List.getElem?_append_right hle] at hk
    have hmem := List.mem_of_getElem? hk
    exact List.mem_singleton.mp hmem

/-- Until the last write `ipv4_conntrack_in` is as it was. -/
theorem intact_before {s' : State}
    (h : s'.text = orig ∨ ∃ op, s'.text = orig.poke L.stub op 5) :
    Intact orig s'.text L.conntrack L.conntrackSize := by
  rcases h with h | ⟨op, h⟩
  · rw [h]
    exact fun _ _ => rfl
  · rw [h]
    exact intact_poke (fun _ _ => rfl) L.conntrack_size.2
      (L.conntrack_stub.mono (Nat.le_refl _) L.stub_size.1)

end

/-- **The hook redirects and returns to the right places.**  For all addresses from which the two
displacements fit, and whatever the functions' bytes are, both jumps are what they should be, and
in every state on the way a call of `ipv4_conntrack_in` runs the original code exactly once. -/
theorem hookConnInit_redirects (L : Layout) (s : State)
    (hfit : FitsS32 (L.hook - (L.conntrack + 5))) (hfit' : FitsS32 (L.conntrack - L.stub))
    (hret : (hookConnInit L.toAddresses s).1 = 0) :
    Redirects L s.text (hookConnInit L.toAddresses s).2 := by
  obtain ⟨before, final, hseen, hbefore, hfinal⟩ := hookConnInit_seen hret
  rw [hseen]
  refine ⟨⟨final, List.getLast?_concat, sees_last before final, hfinal.decode_conntrack hfit,
    hfinal.decode_stub hfit'⟩, fun s' hs' hno => ?_, fun view hview n hn => ?_⟩
  · rcases List.mem_append.mp hs' with hs' | hs'
    · refine absurd (fun i hi => ?_) hno
      have h5 := L.conntrack_size.1
      exact intact_before (hbefore s' hs') i (by omega)
    · cases List.mem_singleton.mp hs'
      exact ⟨hfinal.orig, hfinal.decode_stub hfit'⟩
  · have hcall : ∀ s', view 0 = s' → Intact s.text s'.text L.conntrack L.conntrackSize →
        call L s.text view n 0 L.conntrack = [.original L.conntrack] := by
      intro s' h0 hint
      obtain ⟨m, rfl⟩ : ∃ m, n = m + 1 := ⟨n - 1, by omega⟩
      simp only [call, h0, control_original hint]
    rcases hview.cases with h0 | hall
    · exact Or.inl (hcall _ rfl (intact_before (hbefore _ h0)))
    · by_cases hint : Intact s.text final.text L.conntrack L.conntrackSize
      · exact Or.inl (hcall _ (hall 0) hint)
      · exact Or.inr (hfinal.call_eq hfit hfit' hint hall hn)

/-- A kernel and a module, with the distances they have on a real machine. -/
def kernelLayout : Layout where
  kallsymsLookupName
    | .textPokeSmp => 0xffffffff81003000
    | .ipv4ConntrackIn => 0xffffffff81600000
  stubIpv4ConntrackIn := 0xffffffffa0000000
  hookIpv4ConntrackIn := 0xffffffffa0000020
  conntrackSize := 64
  stubSize := 32
  hookSize := 32
  conntrack_size := by decide
  stub_size := by decide
  hook_size := by decide
  conntrack_stub := Text.apart_of_le (by decide) (by decide)
  conntrack_hook := Text.apart_of_le (by decide) (by decide)
  stub_hook := Text.apart_of_le (by decide) (by decide)

/-- The module just loaded, all code being `nop`s. -/
def loaded : State where
  savedOp _ := 0
  jumpOp _ := 0
  ptrOrigConntrackIn := 0
  ptrIpv4ConntrackIn := 0
  ptrPokeSmp := 0
  text _ := 0x90

theorem hookConnInit_loaded : (hookConnInit kernelLayout.toAddresses loaded).1 = 0 := rfl

theorem hookConnInit_redirects_loaded :
    Redirects kernelLayout loaded.text (hookConnInit kernelLayout.toAddresses loaded).2 := by
  refine hookConnInit_redirects kernelLayout loaded ?_ ?_ hookConnInit_loaded
  · constructor <;> decide
  · constructor <;> decide

end Hook
