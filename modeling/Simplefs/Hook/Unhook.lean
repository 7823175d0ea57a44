/-
# Taking the hook out

`hook_conn_exit` writes two times five bytes, as `hook_conn_init` did, with the places exchanged:
`saved_op` over `ipv4_conntrack_in` and `jump_op` over the stub.  Neither is what was there: the
init function has not saved a byte, and each of the two is a jump whose displacement was computed
for the other place.
-/
import Simplefs.Hook.Redirect

namespace Hook

open Text

/-- `hook_conn_exit`. -/
def hookConnExit (a : Addresses) (s : State) : State :=
  let s1 := { s with text := s.text.poke s.ptrIpv4ConntrackIn s.savedOp optsize }
  { s1 with text := s1.text.poke a.stubIpv4ConntrackIn s1.jumpOp optsize }

/-- **The patched bytes are back**: those of `ipv4_conntrack_in` and those of the stub. -/
structure Restored (L : Layout) (orig text : Text) : Prop where
  conntrack : Intact orig text L.conntrack optsize
  stub : Intact orig text L.stub optsize

/-- Before the module was loaded, both places held a jump already: with the distance from the stub
to `ipv4_conntrack_in` at the latter, and with the distance from there to the hook, less a jump, at
the stub. -/
structure HeldJumps (L : Layout) (orig : Text) : Prop where
  conntrack : bytesAt orig L.conntrack 0 = 0xe9 ∧
    (bytesAt orig L.conntrack).load32 1 = (L.conntrack - L.stub).setWidth 32
  stub : bytesAt orig L.stub 0 = 0xe9 ∧
    (bytesAt orig L.stub).load32 1 = (L.hook - (L.conntrack + 5)).setWidth 32

/-- Five bytes are the same if the opcode and the displacement are. -/
theorem five_bytes_iff {m m' : ByteMem} :
    (∀ i, i < 5 → m i = m' i) ↔ m 0 = m' 0 ∧ m.load32 1 = m'.load32 1 := by
  constructor
  · intro h
    exact ⟨h 0 (by omega), ByteMem.load32_congr fun i hi => h (1 + i) (by omega)⟩
  · rintro ⟨h0, hload⟩ i hi
    rcases i with _ | i
    · exact h0
    · have := ByteMem.load32_inj hload i (by omega)
      rwa [Nat.add_comm 1] at this

section

variable {L : Layout} {s final : State} {orig : Text}

/-- What the exit function leaves: `saved_op` and `jump_op`, the other way round. -/
theorem Armed.exit (h : Armed L orig final) {i : Nat} (hi : i < 5) :
    bytesAt (hookConnExit L.toAddresses final).text L.conntrack i = final.savedOp i ∧
      bytesAt (hookConnExit L.toAddresses final).text L.stub i = final.jumpOp i := by
  have hapart : Apart L.conntrack 5 L.stub 5 :=
    L.conntrack_stub.mono (Nat.le_of_lt L.conntrack_size.1) L.stub_size.1
  have htext : (hookConnExit L.toAddresses final).text =
      (final.text.poke L.conntrack final.savedOp 5).poke L.stub final.jumpOp 5 := by
    rw [hookConnExit, h.conntrack]
  rw [htext]
  constructor
  · rw [bytesAt_poke_apart _ _ hapart hi (by omega), bytesAt_poke _ _ _ hi (by omega)]
  · exact bytesAt_poke _ _ _ hi (by omega)

/-- The bytes are back exactly if they are those that are written now. -/
theorem Armed.restored_iff (h : Armed L orig final) :
    Restored L orig (hookConnExit L.toAddresses final).text ↔ HeldJumps L orig := by
  have hsub : L.conntrack + 5 - (L.stub + 5) = L.conntrack - L.stub := by bv_omega
  have hconntrack : Intact orig (hookConnExit L.toAddresses final).text L.conntrack 5 ↔
      bytesAt orig L.conntrack 0 = 0xe9 ∧
        (bytesAt orig L.conntrack).load32 1 = (L.conntrack - L.stub).setWidth 32 := by
    rw [← h.saved.1, ← hsub, ← h.saved.2, ← five_bytes_iff]
    exact forall₂_congr fun i hi => by rw [(h.exit hi).1, eq_comm]
  have hstub : Intact orig (hookConnExit L.toAddresses final).text L.stub 5 ↔
      bytesAt orig L.stub 0 = 0xe9 ∧
        (bytesAt orig L.stub).load32 1 = (L.hook - (L.conntrack + 5)).setWidth 32 := by
    rw [← h.jump.1, ← h.jump.2, ← five_bytes_iff]
    exact forall₂_congr fun i hi => by rw [(h.exit hi).2, eq_comm]
  constructor
  · rintro ⟨hc, hs⟩
    exact ⟨hconntrack.mp hc, hstub.mp hs⟩
  · rintro ⟨hc, hs⟩
    exact ⟨hconntrack.mpr hc, hstub.mpr hs⟩

/-- What was meant for the stub is too far from there, by the distance of the two. -/
theorem Armed.exit_astray (h : Armed L orig final) (hfit : FitsS32 (L.conntrack - L.stub)) :
    decodeJmp (hookConnExit L.toAddresses final).text L.conntrack =
      some (L.conntrack + 5 + (L.conntrack - L.stub)) := by
  have hsub : L.conntrack + 5 - (L.stub + 5) = L.conntrack - L.stub := by bv_omega
  have hload : (bytesAt (hookConnExit L.toAddresses final).text L.conntrack).load32 1 =
      final.savedOp.load32 1 := ByteMem.load32_congr fun i hi => (h.exit (by omega)).1
  rw [decodeJmp, (h.exit (by omega)).1, if_pos h.saved.1, hload, h.saved.2, hsub,
    signExtend_setWidth hfit]

/-- The state that a successful init ends in. -/
theorem armed_last (hret : (hookConnInit L.toAddresses s).1 = 0)
    (hlast : (hookConnInit L.toAddresses s).2.getLast? = some final) : Armed L s.text final := by
  obtain ⟨before, last, hseen, -, harmed⟩ := hookConnInit_seen hret
  rw [hseen, List.getLast?_append, List.getLast?_singleton] at hlast
  cases hlast
  exact harmed

end

/-- **Unhooking restores the kernel text exactly when** both places held those two jumps before,
for all addresses and all original bytes. -/
theorem hookConnExit_restored_iff (L : Layout) (s final : State)
    (hret : (hookConnInit L.toAddresses s).1 = 0)
    (hlast : (hookConnInit L.toAddresses s).2.getLast? = some final) :
    Restored L s.text (hookConnExit L.toAddresses final).text ↔ HeldJumps L s.text :=
  (armed_last hret hlast).restored_iff

/-- The state after a load on a machine whose text is `text`. -/
def hookedWith (text : Text) : State :=
  (hookConnInit kernelLayout.toAddresses { loaded with text := text }).2.getLast?.getD loaded

theorem hookedWith_last (text : Text) :
    (hookConnInit kernelLayout.toAddresses { loaded with text := text }).2.getLast? =
      some (hookedWith text) := rfl

/-- The text after the module has come and gone once. -/
def afterwards : Text :=
  (hookConnExit kernelLayout.toAddresses (hookedWith loaded.text)).text

/-- A second time it leaves what it finds: its own two jumps. -/
theorem hookConnExit_restored_iff_afterwards : Restored kernelLayout afterwards
    (hookConnExit kernelLayout.toAddresses (hookedWith afterwards)).text := by
  have harmed : Armed kernelLayout loaded.text (hookedWith loaded.text) :=
    armed_last hookConnInit_loaded (hookedWith_last _)
  refine (hookConnExit_restored_iff kernelLayout { loaded with text := afterwards } _ rfl
    (hookedWith_last _)).mpr ⟨⟨?_, ?_⟩, ?_, ?_⟩
  · exact (harmed.exit (by omega)).1.trans harmed.saved.1
  · exact (ByteMem.load32_congr fun i hi => (harmed.exit (by omega)).1).trans harmed.saved.2
  · exact (harmed.exit (by omega)).2.trans harmed.jump.1
  · exact (ByteMem.load32_congr fun i hi => (harmed.exit (by omega)).2).trans harmed.jump.2

/-- **The first time it does not**: where `ipv4_conntrack_in` began with a `nop` there is a jump
into nowhere. -/
theorem hookConnExit_not_restored :
    ¬ Restored kernelLayout loaded.text afterwards ∧
      decodeJmp afterwards kernelLayout.conntrack = some 0xffffffff62c00005 := by
  have harmed : Armed kernelLayout loaded.text (hookedWith loaded.text) :=
    armed_last hookConnInit_loaded (hookedWith_last _)
  constructor
  · intro h
    have hnop : (0x90 : UInt8) = 0xe9 := (harmed.restored_iff.mp h).conntrack.1
    exact absurd hnop (by decide)
  · refine (harmed.exit_astray ?_).trans (by decide)
    constructor <;> decide

end Hook
