/-
# What an unmount drops

`Vfs.lean` takes the buffers to be one with the device, and says of an unmount that it drops what
failed copies have left in the buffers.  `Buffers.lean` has buffers, flags and a device, and an
unmount writes back what is marked dirty and drops the rest.

The two say the same.  Every block that a file has or may get is clean whenever no call is under
way, since what marks it syncs it, and a copy that fails marks nothing.  So the blocks that are torn
are as they were, on the device too, and the runs of the one level are, in memory, the runs of the
other.
-/
import Simplefs.Survival

namespace Simplefs

open Prog (LockState Passes)

/-! ## 1. The blocks that a call marks -/

/-- The superblock, the inode store and the block that the call stores into. -/
def Op.marks (fs : Fs) : Op → Nat → Prop
  | .create p _ _ => fun b => b < 2 ∨ b = Buf.dataBlock fs p
  | .mkdir p _ _ => fun b => b < 2 ∨ b = Buf.dataBlock fs p
  | .unlink e => fun b => b < 2 ∨ b = Buf.parentBlock fs e
  | .write d _ _ _ => fun b => b < 2 ∨ b = Buf.dataBlock fs d
  | _ => fun _ => False

/-- The buffer is clean, and its block holds `v`. -/
def Buf.Cold (b : Nat) (v : Block) (c : Buf) : Prop := c.dirty b = false ∧ c.disk b = v

section Cold

variable {intr : Site → Bool} {c : Buf} {b : Nat} {v : Block} {marks : Nat → Prop}

theorem Buf.safe_cold (hb : ¬ marks b) (v : Block) :
    Buf.SafeOn marks (fun _ => True) (Buf.Cold b v) :=
  ⟨Prog.Steady.cold hb v, fun _ _ => trivial⟩

/-- The kernel leaves it as it is. -/
theorem Buf.Cold.background {c' : Buf} (hc : c.Cold b v) (h : Buf.Background c c') :
    c'.Cold b v := by
  have hs : Buf.SafeOn (fun _ => False) (fun _ => True) (Buf.Cold b v) := Buf.safe_cold id v
  exact hs.steady.stable c c' hc h

theorem Buf.safe_cold_mem (hb : ¬ marks b) (v : Block) (R : Fs → Prop) :
    Buf.SafeOn marks (fun _ => True) fun c => c.Cold b v ∧ R c.mem :=
  (Buf.safe_cold hb v).and (Prog.Steady.inMemory R)

/-- A create. -/
theorem Buf.cold_create {p : Nat} {name : Name} {mode : BitVec 16}
    (hm : ∀ b, b < 2 → marks b) (hm' : marks (Buf.dataBlock c.mem p)) (hb : ¬ marks b)
    (hc : c.Cold b v) :
    Buf.wpc intr (fun _ => True) (Buf.simplefsCreateFsObject p name mode)
      (fun _ => Buf.Cold b v) c := by
  have hs := Buf.safe_cold hb v
  -- up to the record, no dentry changes
  have hd := Buf.safe_cold_mem hb v fun fs => fs.dentries = c.mem.dentries
  refine Prog.wpc_mono (Buf.wpc_create (R := Buf.Cold b v)
    (B := fun _ _ c' => c'.Cold b v ∧ c'.mem.dentries = c.mem.dentries)
    (D := fun _ _ c' => c'.Cold b v ∧ c'.mem.dentries = c.mem.dentries)
    (E := fun _ _ c' => c'.Cold b v ∧ c'.mem.dentries = c.mem.dentries)
    (A := fun _ _ c' => c'.Cold b v ∧ c'.mem.dentries = c.mem.dentries)
    (Buf.safe_cold_mem hb v fun fs => fs = c.mem)
    (fun _ _ => hd) (fun _ _ => hd) (fun _ _ => hd) (fun _ _ => hd) hm ⟨hc, rfl⟩ (fun _ h => h.2)
    (fun _ _ _ h _ _ _ _ => ⟨h.1, rfl⟩) (fun _ _ _ h _ => h) (fun ino b c' s h hr => ?_)
    (fun _ _ _ h _ _ => h) (fun _ _ _ h _ => h) fun ino b c' h => ?_) (fun _ h => h) ?_
  · obtain ⟨i, -, -, rfl⟩ := addInode_ok hr
    exact h
  · have hblock : marks (Buf.dataBlock c'.mem p) := by
      rw [Buf.dataBlock, h.2]
      exact hm'
    refine Prog.wpc_mono (Buf.wpc_createTail (Buf.safe_cold_mem hb v fun fs => fs = c'.mem) hs hs hs
      hs hs hs hs hm hblock ⟨h.1, rfl⟩ (fun _ h => h.2) (fun _ _ h _ => h.1) (fun _ h _ => h)
      (fun _ _ h _ => h) (fun _ _ h _ => h) (fun _ h _ => h) (fun _ h _ => h) fun _ h => h)
      (fun _ h => h) ?_
    rintro _ c'' (⟨h, -⟩ | h | ⟨-, h⟩) <;> exact h
  · rintro _ c' (⟨h, -⟩ | h)
    · exact h.1
    · exact h

/-- **What a call does not mark stays as it is**, in the buffer's flag and on the device. -/
theorem Op.wpc_cold (op : Op) (hb : ¬ op.marks c.mem b) (hc : c.Cold b v) :
    Buf.wpc intr (fun _ => True) op.bufCode (fun _ => Buf.Cold b v) c := by
  have hs := Buf.safe_cold hb v
  have h0 := Buf.safe_cold_mem hb v fun fs => fs = c.mem
  cases op with
  | iterate d pos => exact Buf.wpc_discard (Buf.wpc_iterate hs hs hc fun _ _ _ h _ => h)
  | lookup p name =>
    refine Buf.wpc_discard (Prog.wpc_mono (Buf.wpc_lookup h0 hs ⟨hc, rfl⟩ (fun _ h => h.2)
      fun _ _ _ _ h _ _ _ _ => h.1) (fun _ h => h) ?_)
    rintro _ c' (h | h)
    · exact h.1
    · exact h
  | create p name mode =>
    have hm : ∀ b, b < 2 → (Op.create p name mode).marks c.mem b := fun _ => Or.inl
    exact Buf.wpc_discard (Buf.cold_create hm (Or.inr rfl) hb hc)
  | mkdir p name mode =>
    have hm : ∀ b, b < 2 → (Op.mkdir p name mode).marks c.mem b := fun _ => Or.inl
    exact Buf.wpc_discard (Buf.cold_create hm (Or.inr rfl) hb hc)
  | unlink e =>
    exact Buf.wpc_unlink h0 (fun _ => hs) (fun _ => hs) (fun _ => hs) (fun _ => hs) (fun _ => hs)
      (fun _ => hs) hs (fun _ => Or.inl) (Or.inr rfl) ⟨hc, rfl⟩ (fun _ h => h.2)
      (fun _ _ _ h _ => h.1) (fun _ _ h _ => h) (fun _ _ _ h _ => h) (fun _ _ h _ => h)
      (fun _ _ h _ => h) (fun _ _ _ h _ => h) (fun _ _ h _ _ => h) (fun _ _ h _ => h)
      fun _ _ _ h _ => h
  | read d ppos len userOk => exact Buf.wpc_discard (Buf.wpc_read hs hc)
  | write d ppos data copied =>
    refine Buf.wpc_discard (Prog.wpc_mono (Buf.wpc_write h0 hs hs hs hs hs hs hs (fun _ => Or.inl)
      (Or.inr rfl) ⟨hc, rfl⟩ (fun _ h => h.2) (fun _ _ h _ => h.1) (fun _ _ h _ => h.1)
      (fun _ h _ _ => h) (fun _ _ h _ => h) (fun _ _ h _ => h) (fun _ h _ => h) fun _ h _ => h)
      (fun _ h => h) ?_)
    rintro _ c' (h | ⟨h, -⟩ | h | h) <;> exact h
  | release d =>
    exact Prog.wpc_inMemory (k := pure) hs hc fun _ _ _ h _ => Prog.wpc_return hs h fun _ h => h

end Cold

/-! ## 2. Failed copies -/

/-- A copy that fails marks nothing. -/
theorem Buf.cold_write_failed {intr : Site → Bool} {c : Buf} {b d ppos copied : Nat} {v : Block}
    {data : List UInt8} {x : Dentry} (hx : c.mem.dentries d = some x)
    (hfail : copied < data.length) (hc : c.Cold b v) :
    Buf.wpc intr (fun _ => True) (Buf.simplefsWrite d ppos data copied)
      (fun _ => Buf.Cold b v) c := by
  have hs : Buf.SafeOn (fun _ => False) (fun _ => True) (Buf.Cold b v) := Buf.safe_cold id v
  refine Buf.wpc_write_failed (hs.and (Prog.Steady.inMemory fun fs => fs = c.mem)) hs
    ⟨hc, rfl⟩ (fun _ h => h.2) fun c' ok s h hr => ?_
  rw [copyFromUser_eq hx] at hr
  split at hr
  · cases hr
    exact ⟨decide_eq_false (by omega), h.1⟩
  · cases hr

/-- A copy that goes through leaves its buffer clean. -/
theorem Buf.clean_write {intr : Site → Bool} {c : Buf} {d ppos copied : Nat} {data : List UInt8}
    {x : Dentry} (hx : c.mem.dentries d = some x) (hok : ¬ copied < data.length)
    (h2 : 2 ≤ Buf.dataBlock c.mem d) :
    Buf.wpc intr (fun _ => True) (Buf.simplefsWrite d ppos data copied)
      (fun _ c' => c'.dirty (Buf.dataBlock c.mem d) = false) c := by
  have hclean : Buf.SafeOn (fun b => b < 2) (fun _ => True) fun c' : Buf =>
      c'.dirty (Buf.dataBlock c.mem d) = false :=
    ⟨Prog.Steady.clean (Nat.not_lt.mpr h2), fun _ _ => trivial⟩
  have hmem : Buf.SafeOn (fun b => b < 2) (fun _ => True) fun c' : Buf => c'.mem = c.mem :=
    ⟨Prog.Steady.inMemory fun s => s = c.mem, fun _ _ => trivial⟩
  have hany : Buf.Safe (fun _ => True) fun _ : Buf => True := ⟨Buf.steady_true, fun _ _ => trivial⟩
  refine Prog.wpc_mono (Buf.wpc_write (T := fun _ => False) hmem hany
    ⟨Prog.Steady.inMemory fun _ => False, fun _ h => h.elim⟩ hclean hclean hclean hclean hclean
    (fun _ h => h) trivial rfl (fun _ h => h) (fun _ _ _ _ => trivial) (fun c' s _ hr => ?_)
    (fun _ _ _ h => h) (fun _ _ h _ => h) (fun _ _ h _ => h) (fun _ h _ => h) fun _ h _ => h)
    (fun _ h => h) ?_
  · rw [copyFromUser_eq hx] at hr
    split at hr
    · have hfull : decide (data.length ≤ copied) = true := decide_eq_true (by omega)
      rw [hfull] at hr
      cases hr
    · cases hr
  · rintro _ c' (h | ⟨h, -⟩ | h | h)
    · exact h.elim
    · exact h
    · exact h
    · exact h

/-- **Between two calls**: what is torn is known in memory, every buffer that a file has or may get
is clean, and of a torn block the device has what was there before. -/
structure Buf.Drops (torn : Nat → Prop) (c : Buf) : Prop where
  torn : ∀ b, torn b ↔ c.mem.torn b ≠ none
  clean : ∀ b, 2 ≤ b → (∀ i, c.mem.dev.graph.dir i → (c.mem.dev.slot i).block ≠ b) →
    c.dirty b = false
  old : ∀ b v, c.mem.torn b = some v → c.disk b = v

section Drops

variable {torn : Nat → Prop} {c c' : Buf} {fs' : Fs} {op : Op} {b : Nat} {lk lk' : LockState Lock}

/-- A torn block is a file's, so its buffer is clean. -/
theorem Buf.Drops.cold (h : c.Drops torn) (hrest : c.AtRest torn) {v : Block}
    (hv : c.mem.torn b = some v) : c.Cold b v := by
  have hb : c.mem.torn b ≠ none := by
    rw [hv]
    exact Option.some_ne_none v
  refine ⟨h.clean b (hrest.inv.dataTorn b hb) fun i hd hib => ?_, h.old b v hv⟩
  have hf := (hrest.files b ((h.torn b).mpr hb)).2 i hd.1 hib
  rw [hd.2] at hf
  cases hf

/-- The device has what the failed copies have not changed. -/
theorem Buf.Drops.disk_eq (h : c.Drops torn) (hrest : c.AtRest torn) (h2 : 2 ≤ b) :
    c.disk b = (c.mem.torn b).getD (c.mem.dev.blocks b) := by
  cases hv : c.mem.torn b with
  | some v => exact h.old b v hv
  | none =>
    have hdisk := hrest.kept.1.block b h2 fun ht => (h.torn b).mp ht hv
    rwa [Buf.device_blocks] at hdisk

/-- **An unmount leaves on the device what `Event.apply` says.** -/
theorem Buf.Drops.flushed (h : c.Drops torn) (hrest : c.AtRest torn) :
    Device.ofBlocks c.flushed = c.mem.flushed := by
  refine congrArg Device.ofBlocks (funext fun b => ?_)
  cases hv : c.mem.torn b with
  | some v =>
    obtain ⟨hclean, hold⟩ := h.cold hrest hv
    rw [Buf.flushed, hclean, if_neg Bool.false_ne_true, hold, Option.getD_some]
  | none =>
    rw [Option.getD_none]
    exact hrest.kept.flushed (Or.inr fun hb => (h.torn b).mp hb hv)

/-- A call other than a write stores into directories only. -/
theorem FsInv.marks_dir {fs : Fs} (hi : FsInv fs Shadow.none) (ha : op.Allowed fs)
    (hdef : op.Defined fs) (hop : ∀ d ppos data copied, op ≠ .write d ppos data copied)
    (hb : op.marks fs b) (h2 : 2 ≤ b) :
    ∃ i, fs.dev.graph.dir i ∧ (fs.dev.slot i).block = b := by
  have hdir : ∀ p x, fs.DirAt p x → (b < 2 ∨ b = Buf.dataBlock fs p) →
      ∃ i, fs.dev.graph.dir i ∧ (fs.dev.slot i).block = b := by
    rintro p x hx (hlt | rfl)
    · omega
    · obtain ⟨hd, hblock⟩ := hi.dir hx
      exact ⟨x.slot, hd, by simp only [hblock, Buf.dataBlock, hx.1]⟩
  cases op with
  | create p name mode =>
    obtain ⟨x, hx, -⟩ := ha
    exact hdir p x hx hb
  | mkdir p name mode =>
    obtain ⟨x, hx, -⟩ := ha
    exact hdir p x hx hb
  | unlink e =>
    obtain ⟨-, y, hy, -⟩ := id ha
    obtain ⟨x, c, hx, hc⟩ := hdef y hy
    have hp : Buf.parentBlock fs e = Buf.dataBlock fs y.parent := by simp only [Buf.parentBlock, hy]
    exact hdir y.parent x (hi.unlinkable ha hy hx hc).dir (hb.imp_right fun h => h.trans hp)
  | write d ppos data copied => exact absurd rfl (hop d ppos data copied)
  | _ => exact hb.elim

/-- Such a call leaves the failed copies where they are. -/
theorem FsInv.torn_call {fs : Fs} (hi : FsInv fs Shadow.none) (ha : op.Allowed fs)
    (hdef : op.Defined fs) (hop : ∀ d ppos data copied, op ≠ .write d ppos data copied)
    (hrun : Prog.run quiet op.code LockState.free fs = (.returned () fs', lk')) :
    fs'.torn = fs.torn := by
  have hcreate : ∀ p name mode, fs.Absent p name →
      (fs.HasFreeEntry p ∧ name.bytes.length ≤ 255) →
      (Prog.run quiet (discard (simplefsCreateFsObject p name mode)) LockState.free fs).1 =
        .returned () fs' → fs'.torn = fs.torn := by
    rintro p name mode ⟨x, hx, -⟩ hd hr
    rcases hi.created_of_run hx hd hr with rfl | ⟨cache, i, b, entry, -, -, rfl⟩ <;> rfl
  cases op with
  | iterate d pos =>
    obtain ⟨x, hx⟩ := ha
    rw [run_iterate hx.1 pos] at hrun
    cases hrun
    rfl
  | lookup p name =>
    obtain ⟨x, c, hx, hc⟩ := hdef
    rw [run_lookup hx hc name rfl (hi.lookup_lt hx hc)] at hrun
    cases hrun
    split <;> rfl
  | create p name mode => exact hcreate p name mode ha hdef (congrArg Prod.fst hrun)
  | mkdir p name mode => exact hcreate p name _ ha hdef (congrArg Prod.fst hrun)
  | unlink e =>
    obtain ⟨y, x, cache, entry, -, -, -, rfl⟩ := hi.unlinked_of_run ha hdef hrun
    rfl
  | read d ppos len userOk =>
    obtain ⟨rfl, -⟩ := run_read hrun
    rfl
  | write d ppos data copied => exact absurd rfl (hop d ppos data copied)
  | release d =>
    cases hrun
    rfl

/-- A call that is no write. -/
theorem Buf.Drops.other (h : c.Drops torn) (hrest : c.AtRest torn) (ha : op.Allowed c.mem)
    (hdef : op.Defined c.mem) (hop : ∀ d ppos data copied, op ≠ .write d ppos data copied)
    (hpass : Passes quiet Buf.Background ⟨op.bufCode, LockState.free, c⟩ ⟨.ret (), lk', c'⟩) :
    c'.Drops torn := by
  have hi := hrest.inv
  have hrun := op.erases.returns hpass
  have hg := hi.call_grows ha hdef hrun
  have htorn := hi.torn_call ha hdef hop hrun
  have hcold : ∀ b v, 2 ≤ b → (∀ i, c.mem.dev.graph.dir i → (c.mem.dev.slot i).block ≠ b) →
      c.Cold b v → c'.Cold b v := by
    intro b v h2 hno hc
    have hnot : ¬ op.marks c.mem b := by
      intro hb
      obtain ⟨i, hd, hib⟩ := hi.marks_dir ha hdef hop hb h2
      exact hno i hd hib
    exact Prog.wpc_returns (Q := fun _ => Buf.Cold b v) hpass (op.wpc_cold hnot hc)
  refine ⟨fun b => by rw [htorn]; exact h.torn b, fun b h2 hno => ?_, fun b v hv => ?_⟩
  · have hwas := hg.not_dir_block hno
    exact (hcold b _ h2 hwas ⟨h.clean b h2 hwas, rfl⟩).1
  · rw [htorn] at hv
    have hb : c.mem.torn b ≠ none := by
      rw [hv]
      exact Option.some_ne_none v
    have hno := (hrest.files.not_dir_block ((h.torn b).mpr hb))
    exact (hcold b v (hi.dataTorn b hb) hno (h.cold hrest hv)).2

section Write

variable {d ppos copied : Nat} {data : List UInt8} {x : Dentry}

/-- A write leaves all blocks but its file's as they are. -/
theorem Buf.cold_write {b : Nat} {v : Block} (hx : c.mem.dentries d = some x) (h2 : 2 ≤ b)
    (hbx : b ≠ x.inode.block)
    (hpass : Passes quiet Buf.Background
      ⟨(Op.write d ppos data copied).bufCode, LockState.free, c⟩ ⟨.ret (), lk', c'⟩)
    (hc : c.Cold b v) : c'.Cold b v := by
  have hnot : ¬ (Op.write d ppos data copied).marks c.mem b := by
    rintro (hlt | rfl)
    · omega
    · exact hbx (by simp only [Buf.dataBlock, hx])
  exact Prog.wpc_returns (Q := fun _ => Buf.Cold b v) hpass (Op.wpc_cold _ hnot hc)

/-- The file's own block: clean, and what it was on the device if the copy fails. -/
theorem Buf.Drops.own (h : c.Drops torn) (hrest : c.AtRest torn)
    (hcur : c.mem.Current Shadow.none d x) (hreg : isReg x.inode.mode = true)
    (hpass : Passes quiet Buf.Background
      ⟨(Op.write d ppos data copied).bufCode, LockState.free, c⟩ ⟨.ret (), lk', c'⟩) :
    c'.dirty x.inode.block = false ∧
      (copied < data.length → c'.disk x.inode.block = c.disk x.inode.block) := by
  have hi := hrest.inv
  have h2 := hi.two_le hcur
  have hblock : Buf.dataBlock c.mem d = x.inode.block := by simp only [Buf.dataBlock, hcur.1]
  have hown : c.dirty x.inode.block = false := by
    refine h.clean _ h2 fun i hd hib => ?_
    have hf := hi.file_block hcur (not_isDir_of_isReg hreg) hd.1 hib
    rw [hd.2] at hf
    cases hf
  by_cases hfail : copied < data.length
  · have hcold := Prog.wpc_returns
      (Q := fun _ => Buf.Cold x.inode.block (c.disk x.inode.block)) hpass
      (Buf.wpc_discard (Buf.cold_write_failed hcur.1 hfail ⟨hown, rfl⟩))
    exact ⟨hcold.1, fun _ => hcold.2⟩
  · have hclean := Prog.wpc_returns hpass
      (Buf.wpc_discard (Buf.clean_write hcur.1 hfail (by rw [hblock]; exact h2)))
    rw [hblock] at hclean
    exact ⟨hclean, fun hlt => absurd hlt hfail⟩

/-- A write. -/
theorem Buf.Drops.write (h : c.Drops torn) (hrest : c.AtRest torn)
    (ha : (Op.write d ppos data copied).Allowed c.mem)
    (hdef : (Op.write d ppos data copied).Defined c.mem)
    (hpass : Passes quiet Buf.Background
      ⟨(Op.write d ppos data copied).bufCode, LockState.free, c⟩ ⟨.ret (), lk', c'⟩) :
    c'.Drops ((Op.write d ppos data copied).torn c.mem torn) := by
  have hi := hrest.inv
  obtain ⟨x, hx, hreg⟩ := id ha
  have hcur : c.mem.Current Shadow.none d x := ⟨hx, hdef.2 x hx, id⟩
  obtain ⟨hclean, hdisk⟩ := h.own hrest hcur hreg hpass
  have hrun := (Op.write d ppos data copied).erases.returns hpass
  have hg := hi.call_grows ha hdef hrun
  have htorn : c'.mem.torn = c.mem.tear x.inode.block (decide (data.length ≤ copied)) := by
    have hend := (hi.run_write hcur hreg hdef.1 copied).1.symm.trans hrun
    rw [← (Prog.Ending.returned.inj (Prod.mk.inj hend).1).2, Fs.torn_written]
  refine ⟨fun b => ?_, fun b h2 hno => ?_, fun b v hv => ?_⟩
  · rw [Op.torn_write hx, htorn]
    by_cases hbx : b = x.inode.block
    · rw [if_pos hbx, hbx, Fs.tear_self]
      by_cases hfail : copied < data.length
      · rw [if_pos hfail]
        exact iff_of_true hfail (Option.some_ne_none _)
      · rw [if_neg hfail]
        exact iff_of_false hfail fun hno => hno rfl
    · rw [if_neg hbx, Fs.tear_ne _ _ hbx]
      exact h.torn b
  · by_cases hbx : b = x.inode.block
    · rw [hbx]
      exact hclean
    · exact (Buf.cold_write hx h2 hbx hpass ⟨h.clean b h2 (hg.not_dir_block hno), rfl⟩).1
  · rw [htorn] at hv
    by_cases hbx : b = x.inode.block
    · rw [hbx, Fs.tear_self] at hv
      by_cases hfail : copied < data.length
      · -- what the device had is what is told of it
        rw [if_pos hfail] at hv
        cases hv
        rw [hbx, hdisk hfail]
        exact h.disk_eq hrest (hi.two_le hcur)
      · rw [if_neg hfail] at hv
        cases hv
    · rw [Fs.tear_ne _ _ hbx] at hv
      have hb : c.mem.torn b ≠ none := by
        rw [hv]
        exact Option.some_ne_none v
      exact (Buf.cold_write hx (hi.dataTorn b hb) hbx hpass (h.cold hrest hv)).2

end Write

/-- **A call.** -/
theorem Buf.Drops.call (h : c.Drops torn) (hrest : c.AtRest torn) (ha : op.Allowed c.mem)
    (hdef : op.Defined c.mem)
    (hpass : Passes quiet Buf.Background ⟨op.bufCode, LockState.free, c⟩ ⟨.ret (), lk', c'⟩) :
    c'.Drops (op.torn c.mem torn) := by
  cases op with
  | write d ppos data copied => exact h.write hrest ha hdef hpass
  | _ => exact h.other hrest ha hdef (fun _ _ _ _ heq => by cases heq) hpass

/-- **A write-back.** -/
theorem Buf.Drops.background (h : c.Drops torn) (hrest : c.AtRest torn)
    (hbg : Buf.Background c c') : c'.Drops torn := by
  have hm := hbg.mem_eq
  refine ⟨fun b => by rw [hm]; exact h.torn b, fun b h2 hno => ?_, fun b v hv => ?_⟩
  · rw [hm] at hno
    have hc : c.Cold b (c.disk b) := ⟨h.clean b h2 hno, rfl⟩
    exact (hc.background hbg).1
  · rw [hm] at hv
    exact ((h.cold hrest hv).background hbg).2

/-- **A mount.** -/
theorem Buf.Drops.mount {disk : Nat → Block} {past : BitVec 64}
    (hpass : Passes quiet Buf.Background
      ⟨Buf.simplefsFillSuper, lk, Buf.blank disk past⟩ ⟨.ret 0, lk', c⟩)
    (htorn : c.mem.torn = fun _ => none) : c.Drops fun _ => False := by
  refine ⟨fun b => ?_, fun b _ _ => ?_, fun b v hv => ?_⟩
  · rw [htorn]
    exact iff_of_false id fun h => h rfl
  · exact (Prog.wpc_returns hpass (Buf.fresh_fillSuper disk past) rfl).2 b
  · rw [htorn] at hv
    cases hv

end Drops

/-! ## 3. Runs -/

/-- The system without its buffers. -/
def BufSys.erased (s : BufSys) : Sys :=
  ⟨s.locks, match s.mnt with
    | .offline disk => .offline (Device.ofBlocks disk)
    | .mounted c => .mounted c.mem⟩

/-- What is known of a system between two calls. -/
def BufSys.Drops (s : BufSys) (torn : Nat → Prop) : Prop :=
  ∀ c, s.mnt = .mounted c → c.Drops torn

section Runs

variable {start : Nat → Block} {s : BufSys} {torn : Nat → Prop} {lk lk' : LockState Lock}

/-- A mount of a device in order attaches its root, and nothing is torn. -/
theorem Device.InOrder.torn_mount {disk : Nat → Block} (h : (Device.ofBlocks disk).InOrder)
    {past : BitVec 64} {ret : Int} {c : Buf}
    (hpass : Passes quiet Buf.Background
      ⟨Buf.simplefsFillSuper, LockState.free, Buf.blank disk past⟩ ⟨.ret ret, lk', c⟩) :
    c.mem.torn = fun _ => none := by
  obtain ⟨imap, hstore⟩ := h.store
  have hrun := Buf.erases_fillSuper.returns hpass
  have hmount := run_fillSuper hstore past (rfl : (LockState.free : LockState Lock).held _ = false)
  obtain ⟨-, hmem⟩ := Prog.Ending.returned.inj (Prod.mk.inj (hmount.symm.trans hrun)).1
  rw [← hmem]
  rfl

theorem QuietRun.drops (hstart : (Device.ofBlocks start).InOrder) (hrun : QuietRun start s torn) :
    s.Drops torn := by
  induction hrun with
  | start => exact fun c hc => by cases hc
  | mount hrun h _ =>
    obtain ⟨hlk, hdev⟩ := hrun.inOrder hstart
    obtain rfl := hlk
    obtain ⟨rfl, -⟩ := Device.InOrder.mount hdev h
    rintro c ⟨⟩
    exact Buf.Drops.mount h (hdev.torn_mount h)
  | umount _ _ => exact fun c hc => by cases hc
  | call hrun ha hdef h ih =>
    obtain ⟨hlk, hrest⟩ := hrun.inOrder hstart
    obtain rfl := hlk
    rintro c' ⟨⟩
    exact (ih _ rfl).call hrest ha hdef h
  | background hrun h ih =>
    obtain ⟨-, hrest⟩ := hrun.inOrder hstart
    rintro c' ⟨⟩
    exact (ih _ rfl).background hrest h

/-- **Without the buffers a run is one of `Vfs.lean`.** -/
theorem QuietRun.erases (hstart : (Device.ofBlocks start).InOrder)
    (hrun : QuietRun start s torn) :
    DefinedRun ⟨LockState.free, .offline (Device.ofBlocks start)⟩ s.erased := by
  induction hrun with
  | start => exact .refl
  | @mount lk lk' disk torn past ret c hrun h ih =>
    obtain ⟨hlk, hdev⟩ := hrun.inOrder hstart
    obtain rfl := hlk
    obtain ⟨rfl, -⟩ := Device.InOrder.mount hdev h
    have hret := Buf.erases_fillSuper.returns h
    have hstep : DefinedStep ⟨LockState.free, .offline (Device.ofBlocks disk)⟩
        ⟨lk', .mounted c.mem⟩ := .mount hret
    rw [if_pos rfl]
    exact ih.tail hstep
  | @umount lk c torn hrun ih =>
    obtain ⟨-, hrest⟩ := hrun.inOrder hstart
    have hflushed := (hrun.drops hstart c rfl).flushed hrest
    have hstep := DefinedStep.umount lk c.mem
    rw [← hflushed] at hstep
    exact ih.tail hstep
  | @call lk lk' c c' torn op hrun ha hdef h ih =>
    exact ih.tail (.call ha hdef (op.erases.returns h))
  | @background lk c c' torn hrun h ih =>
    have hsame : (BufSys.mk lk (.mounted c')).erased = (BufSys.mk lk (.mounted c)).erased :=
      congrArg (fun fs => Sys.mk lk (.mounted fs)) h.mem_eq
    rw [hsame]
    exact ih

/-- **With the buffers put back a run of `Vfs.lean` is one of theirs.** -/
theorem DefinedRun.buffered {s' : Sys} (hstart : (Device.ofBlocks start).InOrder)
    (hrun : DefinedRun ⟨LockState.free, .offline (Device.ofBlocks start)⟩ s') :
    ∃ s torn, QuietRun start s torn ∧ s.erased = s' := by
  induction hrun with
  | refl => exact ⟨_, _, .start, rfl⟩
  | tail _ hstep ih =>
    obtain ⟨⟨lk, mnt⟩, torn, hq, rfl⟩ := ih
    obtain ⟨ev, hallow, hdef, happ⟩ := hstep
    have hrest := hq.inOrder hstart
    cases mnt with
    | offline disk =>
      obtain ⟨hlk, hdev⟩ := hrest
      obtain rfl := hlk
      cases ev with
      | mount past =>
        have happ' : (Event.mount past).apply ⟨LockState.free, .offline (Device.ofBlocks disk)⟩ =
          some _ := happ
        obtain ⟨ret, fs, lk', hret, rfl⟩ := Event.apply_mount_iff.mp happ'
        have hret' : Prog.run quiet simplefsFillSuper LockState.free (Buf.blank disk past).mem =
          (.returned ret fs, lk') := hret
        obtain ⟨c, rfl, hpass⟩ : ∃ c : Buf, c.mem = fs ∧ Passes quiet Buf.Background _ _ :=
          Buf.erases_fillSuper.run hret'
        obtain ⟨rfl, -⟩ := Device.InOrder.mount hdev hpass
        have hmount := hq.mount hpass
        rw [if_pos rfl] at hmount
        rw [if_pos rfl]
        exact ⟨_, _, hmount, rfl⟩
      | umount => cases happ
      | call op intr => cases happ
    | mounted c =>
      obtain ⟨-, hrest⟩ := hrest
      cases ev with
      | mount past => cases happ
      | umount =>
        cases happ
        have hflushed := (hq.drops hstart c rfl).flushed hrest
        exact ⟨_, _, hq.umount, congrArg (fun dev => Sys.mk lk (.offline dev)) hflushed⟩
      | call op intr =>
        obtain ⟨rfl, hd⟩ := hdef op intr c.mem rfl rfl
        have ha := hallow op quiet c.mem rfl rfl
        cases Event.leadsTo (s := ⟨lk, .mounted c.mem⟩) happ with
        | @call _ lk' _ _ _ fs' hcall =>
          obtain ⟨c', rfl, hrun'⟩ := hq.of_call ha hd hcall
          exact ⟨_, _, hrun', rfl⟩

/-- **The two levels have the same runs.** -/
theorem DefinedRun.iff_buffered {s' : Sys} (hstart : (Device.ofBlocks start).InOrder) :
    DefinedRun ⟨LockState.free, .offline (Device.ofBlocks start)⟩ s' ↔
      ∃ s torn, QuietRun start s torn ∧ s.erased = s' := by
  constructor
  · exact DefinedRun.buffered hstart
  · rintro ⟨s, torn, hrun, rfl⟩
    exact hrun.erases hstart

end Runs

end Simplefs
