/-
# Rewriting a file

Consecutive writes that share one `*ppos` from 0 on fill the block from its start, and each leaves
`file_size` where it ends, in memory and in the inode store.  So a file that is rewritten whole is
read back whole, however long it was before.  `simplefs_inode_save` finds the file's slot by its
number, so the inode store has to keep its numbers in place, and the data must not be written over
it.
-/
import Simplefs.Contents

namespace Simplefs

open Prog (run LockState)

/-! ## 1. A rewrite -/

/-- The inode store keeps its numbers in place: slot `k - 1` holds inode number `k` or 0. -/
def Device.NumbersInPlace (dev : Device) : Prop :=
  ∀ i, dev.Live i → (dev.slot i).inodeNo = inoOf i

/-- Consecutive calls of `simplefs_write` on dentry `d` that share one `*ppos`: what each returns,
and the last `*ppos`. -/
def writeChunks (d : Nat) : List (List UInt8) → Nat → Code (List Int × Nat)
  | [], ppos => return ([], ppos)
  | data :: chunks, ppos => do
    let (ret, ppos) ← simplefsWrite d ppos data data.length
    let (rets, ppos) ← writeChunks d chunks ppos
    return (ret :: rets, ppos)

/-- **The file holds the bytes `bytes`**: its size is theirs in memory and in its slot, and a read
of the whole file returns them, through its dentry or on the inode that `simplefs_get_inode`
fetches. -/
structure FileHolds (fs : Fs) (d : Nat) (ino : BitVec 64) (bytes : List UInt8) : Prop where
  memory : ∃ x, fs.dentries d = some x ∧ x.inode.fileSize.toNat = bytes.length
  slot : (fs.dev.slot (slotIndex ino)).fileSize.toNat = bytes.length
  read : ∀ len, bytes.length ≤ len →
    readFile d 0 len true fs = .ok ((.ok bytes, bytes.length), fs)
  fetched : ∃ w, run quiet (simplefsGetInode ino) LockState.free fs =
      (.returned (some w) fs, LockState.free) ∧
    ∀ e y len, fs.dentries e = some y → bytes.length ≤ len →
      (readFile e 0 len true (fs.setDentry e { y with inode := w })).map Prod.fst =
        .ok (.ok bytes, bytes.length)

/-- **The chunks are written and read back.** -/
def RewrittenBy (fs : Fs) (d : Nat) (ino : BitVec 64) (chunks : List (List UInt8)) : Prop :=
  ∃ fs', run quiet (writeChunks d chunks 0) LockState.free fs =
      (.returned (chunks.map fun c => (c.length : Int), chunks.flatten.length) fs',
        LockState.free) ∧
    FileHolds fs' d ino chunks.flatten

/-! ## 2. The invariant -/

/-- The file of dentry `d`, in slot `i`, has been written up to the end of `bytes`. -/
structure HasWritten (fs : Fs) (d i : Nat) (bytes : List UInt8) : Prop where
  inPlace : fs.dev.NumbersInPlace
  live : fs.dev.Live i
  dentry : ∃ x, fs.dentries d = some x ∧ x.inode.inodeNo = inoOf i ∧ x.inode.block ≠ 1 ∧
    ∀ off, off < bytes.length → fs.dev.byte x.inode.block off = bytes.getD off 0

/-- The size and the slot are those of the last write. -/
structure Saved (fs : Fs) (d i size : Nat) : Prop where
  dentry : ∃ x, fs.dentries d = some x ∧ x.inode.fileSize = BitVec.ofNat 64 size ∧
    fs.dev.slot i = x.inode

section Rewriting

variable {fs : Fs} {d i : Nat} {bytes data : List UInt8} {x : Dentry}

/-- The slots, once data is copied into any block but the inode store's. -/
theorem slot_copiedIn_ne_one (hb : x.inode.block ≠ 1) {ppos : Nat}
    (hlen : ppos + data.length ≤ 4096) (copied : Nat) {k : Nat} (hk : k < slotsPerBlock) :
    (fs.copiedIn x ppos data copied).dev.slot k = fs.dev.slot k := by
  have hk' : k < 128 := hk
  have hagree := Device.agreeOff_putData fs.dev x.inode.block ppos (copiedBytes data copied)
  rw [length_copiedBytes] at hagree
  refine Device.slot_congr hagree ?_
  rcases Nat.lt_or_ge x.inode.block 1 with h | h <;> omega

/-- The bytes of the block, once data is copied in after those of `bytes`. -/
theorem byte_copiedIn_append
    (hbytes : ∀ off, off < bytes.length → fs.dev.byte x.inode.block off = bytes.getD off 0)
    {off : Nat} (hoff : off < (bytes ++ data).length) :
    (fs.copiedIn x bytes.length data data.length).dev.byte x.inode.block off =
      (bytes ++ data).getD off 0 := by
  have hdev : (fs.copiedIn x bytes.length data data.length).dev =
      fs.dev.putData x.inode.block bytes.length data := by
    rw [Fs.copiedIn, copiedBytes_of_le (Nat.le_refl _)]
  rw [hdev]
  rw [List.length_append] at hoff
  rcases Nat.lt_or_ge off bytes.length with h | h
  · rw [Device.byte_congr (Device.agreeOff_putData _ _ _ _) (by omega), hbytes off h,
      List.getD_append _ _ _ _ h]
  · obtain ⟨j, rfl⟩ := Nat.exists_eq_add_of_le h
    have hj : j < data.length := by omega
    rw [List.getD_append_right _ _ _ _ h, Nat.add_sub_cancel_left, Device.byte, Device.putData,
      ByteMem.store, ← Nat.add_assoc, ByteMem.patch_add _ _ hj]

/-- **One write** of a rewrite. -/
theorem HasWritten.write (h : HasWritten fs d i bytes) {data : List UInt8}
    (hlen : bytes.length + data.length ≤ 4096) {α : Type} (k : Int × Nat → Code α) :
    ∃ fs', run quiet (simplefsWrite d bytes.length data data.length >>= k) LockState.free fs =
        run quiet (k (data.length, (bytes ++ data).length)) LockState.free fs' ∧
      HasWritten fs' d i (bytes ++ data) ∧ Saved fs' d i (bytes ++ data).length := by
  obtain ⟨hplace, hlive, x, hx, hno, hb, hbytes⟩ := h
  obtain ⟨fs1, hfs1⟩ : ∃ u, u = fs.copiedIn x bytes.length data data.length := ⟨_, rfl⟩
  have hslot : ∀ j, j < slotsPerBlock → fs1.dev.slot j = fs.dev.slot j := fun j hj => by
    rw [hfs1]
    exact slot_copiedIn_ne_one hb hlen _ hj
  have hlive1 : ∀ j, fs1.dev.Live j ↔ fs.dev.Live j := fun j =>
    and_congr_right fun hj => by rw [hslot j hj]
  have hplace1 : fs1.dev.NumbersInPlace := fun j hj => by
    rw [hslot j hj.lt]
    exact hplace j ((hlive1 j).mp hj)
  obtain ⟨x', hx'⟩ : ∃ y, y = x.resized (bytes.length + data.length) := ⟨_, rfl⟩
  have hno' : x'.inode.inodeNo = inoOf i := by rw [hx']; exact hno
  have hd : (fs1.setDentry d x').dentries d = some x' := by
    rw [Fs.setDentry_dentries, if_pos rfl]
  -- the size is saved in the file's own slot
  have hfirst := firstSlot_live hplace1 ((hlive1 i).mpr hlive)
  rw [← hno'] at hfirst
  have hsave : saveInode d (fs1.setDentry d x') = .ok (true,
      { fs1.setDentry d x' with dev := fs1.dev.setSlot i x'.inode }) := saveInode_found hd hfirst
  have hlt := hlive.lt
  refine ⟨{ fs1.setDentry d x' with dev := fs1.dev.setSlot i x'.inode }, ?_, ⟨?_, ?_, ?_⟩, ?_⟩
  · have hfit : Fits bytes.length data := Or.inr hlen
    rw [run_write _ hx rfl rfl, if_pos hfit]
    simp only [← hfs1, ← hx', Nat.lt_irrefl, if_false, quiet, Bool.false_eq_true, hsave, if_true,
      List.length_append]
  · intro j hj
    have hsame := Device.live_setSlot fs1.dev (i := i) (v := x'.inode)
      (by rw [hno', hplace1 i ((hlive1 i).mpr hlive)]) j
    simp only [Device.slot_setSlot]
    split
    · rename_i hji
      rw [hno', hji]
    · exact hplace1 j (hsame.mp hj)
  · refine ⟨hlt, ?_⟩
    simp only [Device.slot_setSlot, if_true, hno']
    exact inoOf_ne_zero hlt
  · refine ⟨x', hd, hno', by rw [hx']; exact hb, fun off hoff => ?_⟩
    have hblock : x'.inode.block = x.inode.block := by rw [hx']; rfl
    have hoff' : off < 4096 := by
      rw [List.length_append] at hoff
      omega
    rw [hblock]
    refine (Device.byte_congr (Device.agreeOff_setSlot _ i _) ?_).trans ?_
    · rcases Nat.lt_or_ge x.inode.block 1 with h | h <;> omega
    · rw [hfs1]
      exact byte_copiedIn_append hbytes hoff
  · refine ⟨x', hd, by rw [hx', List.length_append]; rfl, ?_⟩
    simp only [Device.slot_setSlot, if_true]

/-- **All the writes** of a rewrite. -/
theorem HasWritten.writeChunks {chunks : List (List UInt8)} (h : HasWritten fs d i bytes)
    (hne : chunks ≠ []) (hlen : bytes.length + chunks.flatten.length ≤ 4096) :
    ∃ fs', run quiet (writeChunks d chunks bytes.length) LockState.free fs =
        (.returned (chunks.map fun c => (c.length : Int), (bytes ++ chunks.flatten).length) fs',
          LockState.free) ∧
      HasWritten fs' d i (bytes ++ chunks.flatten) ∧
      Saved fs' d i (bytes ++ chunks.flatten).length := by
  induction chunks generalizing fs bytes with
  | nil => exact absurd rfl hne
  | cons data chunks ih =>
    rw [List.flatten_cons, List.length_append] at hlen
    have hfit : bytes.length + data.length ≤ 4096 := by omega
    obtain ⟨fs1, hrun, h1, hs1⟩ := h.write hfit fun r => do
      let (rets, ppos) ← Simplefs.writeChunks d chunks r.2
      return (r.1 :: rets, ppos)
    have hrun' : run quiet (Simplefs.writeChunks d (data :: chunks) bytes.length) LockState.free
        fs = _ := hrun
    rw [hrun', Prog.run_bind, List.flatten_cons, ← List.append_assoc]
    by_cases hnil : chunks = []
    · subst hnil
      rw [List.flatten_nil, List.append_nil]
      exact ⟨fs1, rfl, h1, hs1⟩
    · obtain ⟨fs2, hrest, h2, hs2⟩ := ih h1 hnil (by rw [List.length_append]; omega)
      refine ⟨fs2, ?_, h2, hs2⟩
      simp only [hrest]
      rfl

/-! ## 3. What is read back -/

/-- A file that has been written, read on any dentry with its inode. -/
theorem HasWritten.readFile (h : HasWritten fs d i bytes) (hs : Saved fs d i bytes.length)
    (hlen : bytes.length ≤ 4096) {fs' : Fs} {e : Nat} {y : Dentry}
    (hy : fs'.dentries e = some y) (hdev : fs'.dev = fs.dev) (hv : y.inode = fs.dev.slot i)
    {len : Nat} (hle : bytes.length ≤ len) :
    readFile e 0 len true fs' = .ok ((.ok bytes, bytes.length), fs') := by
  obtain ⟨-, -, x, hx, -, -, hbytes⟩ := h
  obtain ⟨x', hx', hsize, hslot⟩ := hs
  cases hx.symm.trans hx'
  rw [hslot] at hv
  have hn : y.inode.fileSize.toNat = bytes.length := by
    rw [hv, hsize, BitVec.toNat_ofNat, Nat.mod_eq_of_lt (by omega)]
  have hcontent : fs'.content y = bytes := by
    rw [Fs.content, hn, hv, hdev]
    refine List.ext_getElem (by simp) fun off hoff hoff' => ?_
    rw [List.getElem_map, List.getElem_range, hbytes off hoff', List.getD_eq_getElem _ _ hoff']
  rw [readFile_eq hy (by omega)]
  split
  · rename_i h0
    have hnil : bytes = [] := List.length_eq_zero_iff.mp (by omega)
    rw [hnil]
    rfl
  · rw [contentAt_zero, hcontent, List.take_of_length_le hle, Nat.zero_add]

/-- **A file that has been written holds what was written.** -/
theorem HasWritten.fileHolds (h : HasWritten fs d i bytes) (hs : Saved fs d i bytes.length)
    (hlen : bytes.length ≤ 4096) : FileHolds fs d (inoOf i) bytes := by
  obtain ⟨x, hx, hsize, hslot⟩ := hs.dentry
  have hlt := h.live.lt
  have hn : x.inode.fileSize.toNat = bytes.length := by
    rw [hsize, BitVec.toNat_ofNat, Nat.mod_eq_of_lt (by omega)]
  constructor
  case memory => exact ⟨x, hx, hn⟩
  case slot => rw [slotIndex_inoOf hlt, hslot, hn]
  case read =>
    intro len hle
    exact h.readFile hs hlen hx rfl hslot.symm hle
  case fetched =>
    refine ⟨fs.dev.slot i, ?_, fun e y len hy hle => ?_⟩
    · have hread : readInode (inoOf i) fs = .ok (fs.dev.slot i, fs) := by
        rw [readInode, slotAt_inoOf hlt]
        exact if_pos hlt
      rw [← bind_pure (simplefsGetInode _), run_getInode _ _ (LockState.free_held _)]
      simp only [quiet, Bool.false_eq_true, if_false, hread, Prog.run_pure]
    · have hd : (fs.setDentry e { y with inode := fs.dev.slot i }).dentries e =
          some { y with inode := fs.dev.slot i } := by rw [Fs.setDentry_dentries, if_pos rfl]
      rw [h.readFile hs hlen hd rfl rfl hle]
      rfl

/-- **A complete rewrite is read back exactly.** -/
theorem rewrittenBy {chunks : List (List UInt8)} (hplace : fs.dev.NumbersInPlace)
    (hx : fs.dentries d = some x) (hl : fs.dev.Live (slotIndex x.inode.inodeNo))
    (hno : (fs.dev.slot (slotIndex x.inode.inodeNo)).inodeNo = x.inode.inodeNo)
    (hb : x.inode.block ≠ 1) (hne : chunks ≠ []) (hlen : chunks.flatten.length ≤ 4096) :
    RewrittenBy fs d x.inode.inodeNo chunks := by
  have hino : x.inode.inodeNo = inoOf (slotIndex x.inode.inodeNo) := hno.symm.trans (hplace _ hl)
  have h0 : HasWritten fs d (slotIndex x.inode.inodeNo) [] :=
    ⟨hplace, hl, x, hx, hino, hb, fun off hoff => absurd hoff (Nat.not_lt_zero _)⟩
  obtain ⟨fs', hrun, h1, hs1⟩ := h0.writeChunks hne (by simpa using hlen)
  rw [List.nil_append] at hrun h1 hs1
  refine ⟨fs', hrun, ?_⟩
  have := h1.fileHolds hs1 hlen
  rwa [← hino] at this

end Rewriting

/-- The welcome file, rewritten by two bytes in two writes. -/
theorem rewrittenBy_welcome : RewrittenBy foundFs 1 2#64 [[72], [105]] := by
  have hi := foundFs_inv
  have hcur : foundFs.Current Shadow.none 1 welcomeDentry := ⟨foundFs_welcome, rfl, id⟩
  obtain ⟨hl, -, hs⟩ := hi.live 1 _ hcur
  exact rewrittenBy (fun i h => (hi.store.slots i h).1) foundFs_welcome hl hs.inodeNo.symm
    (by decide) (by decide) (by decide)

/-! ## 4. A file in the inode store -/

/-- The welcome file's inode, with the inode store as its data block. -/
def storeFile : SfsInode := { welcomeInode with dataBlockNumber := 1 }

/-- A fresh image with that inode. -/
def storeDevice : Device := freshDevice.setSlot 1 storeFile

/-- What is mounted is mounted on another device. -/
def Fs.onDevice (fs : Fs) (dev : Device) : Fs := { fs with dev := dev }

/-- It is mounted, its root listed and the welcome file looked up. -/
def storeFs : Fs := (listedFs.onDevice storeDevice).dAdd 0 welcomeName storeFile

theorem storeDevice_slot (i : Nat) :
    storeDevice.slot i = if i = 1 then storeFile else freshDevice.slot i :=
  Device.slot_setSlot _ _ _ _

theorem storeDevice_record (j : Nat) : storeDevice.record 2 j = freshDevice.record 2 j :=
  Device.record_setSlot _ _ j (by omega) (by omega)

/-- What a read of the file's first 33 bytes ends with after a run. -/
def lastByteAfter {α : Type} (r : Prog.Ending Fs Lock Fault α × LockState Lock) : Option UInt8 :=
  match r.1 with
  | .returned _ fs =>
    match readFile 1 0 33 true fs with
    | .ok ((.ok bytes, _), _) => bytes.getLast?
    | _ => none
  | _ => none

/-- It is a state that the code reaches on such an image. -/
theorem storeFs_run :
    DefinedRun ⟨LockState.free, .offline storeDevice⟩ ⟨LockState.free, .mounted storeFs⟩ := by
  have hroot : storeDevice.slot 0 = rootInode := by
    rw [storeDevice_slot, if_neg (by decide), freshDevice.slot_zero]
  have hmap : fillImap storeDevice.slot = .ok 7#64 := by
    refine (fillImap_congr fun i _ => ?_).trans freshDevice.store.fillImap
    rw [storeDevice_slot]
    split
    · rename_i h
      rw [h, freshDevice.slot_one]
      rfl
    · rfl
  have hformat : storeDevice.Formatted :=
    Device.formatted_congr (Device.agreeOff_setSlot _ _ _) (by omega) freshDevice.store.formatted
  have hmounted : mountedFs storeDevice 7#64 0#64 = (freshFs.onDevice storeDevice) := by
    rw [Fs.onDevice, freshFs, mountedFs, mountedFs, hroot, freshDevice.slot_zero]
  have hmount : run quiet simplefsFillSuper LockState.free (Fs.blank storeDevice 0#64) =
      (.returned 0 (freshFs.onDevice storeDevice), LockState.free) := by
    rw [run_fillSuper_of_fillImap hformat hmap 0#64 (LockState.free_held _), hmounted]
  -- the root's block is that of a fresh image, and so is the cache
  have hcache : dirCacheOf (freshFs.onDevice storeDevice) freshRoot =
      dirCacheOf freshFs freshRoot := by
    have hrec : storeDevice.record 2 = freshDevice.record 2 := funext storeDevice_record
    have hfd : freshRoot.fsdata = none := rfl
    have hb : freshRoot.inode.block = 2 := by decide
    rw [dirCacheOf, dirCacheOf, hfd, Option.getD_none, Option.getD_none, hb]
    exact congrArg _ hrec
  have hlist : run quiet (Op.iterate 0 0).code LockState.free (freshFs.onDevice storeDevice) =
      (.returned () (listedFs.onDevice storeDevice), LockState.free) := by
    have hx : (freshFs.onDevice storeDevice).dentries 0 = some freshRoot := freshFs_root.1
    rw [run_iterate hx 0, hcache]
    rfl
  have hget : usedCacheEntryGet (dirCacheOf freshFs freshRoot) welcomeName =
      some ⟨freshDevice.record 2 0, 0⟩ := (usedCacheEntryGet_listed _).trans (if_pos rfl)
  have hslot : slotIndex (freshDevice.record 2 0).inodeNo = 1 := by
    rw [freshDevice.record_zero.1]
    decide
  have hfd : listedRoot.fsdata = some (dirCacheOf freshFs freshRoot) := rfl
  have hx : (listedFs.onDevice storeDevice).dentries 0 = some listedRoot := listedFs_root.1
  have hlookup : run quiet (Op.lookup 0 welcomeName).code LockState.free
      (listedFs.onDevice storeDevice) = _ :=
    run_lookup hx hfd welcomeName rfl fun e he => by
      cases hget.symm.trans he
      rw [hslot]
      decide
  have hv : (listedFs.onDevice storeDevice).dev.slot 1 = storeFile :=
    (storeDevice_slot 1).trans (if_pos rfl)
  rw [hget] at hlookup
  simp only [hslot, hv] at hlookup
  have h1 : DefinedStep ⟨LockState.free, .offline storeDevice⟩ _ := .mount hmount
  have ha : (Op.iterate 0 0).Allowed (freshFs.onDevice storeDevice) := ⟨_, freshFs_root⟩
  have h2 : DefinedStep ⟨LockState.free, .mounted (freshFs.onDevice storeDevice)⟩ _ :=
    .call ha trivial hlist
  have ha' : (Op.lookup 0 welcomeName).Allowed (listedFs.onDevice storeDevice) :=
    ⟨_, listedFs_root, listedFs_noChild welcomeName⟩
  have hdef : (Op.lookup 0 welcomeName).Defined (listedFs.onDevice storeDevice) :=
    ⟨_, _, listedFs_root.1, hfd⟩
  have h3 : DefinedStep ⟨LockState.free, .mounted (listedFs.onDevice storeDevice)⟩ _ :=
    .call ha' hdef hlookup
  exact .tail (.tail (.single h1) h2) h3

/-- **33 bytes, written to a file that lies in the inode store**: saving the inode writes over the
last of them. -/
theorem not_rewrittenBy_storeFs :
    DefinedRun ⟨LockState.free, .offline storeDevice⟩ ⟨LockState.free, .mounted storeFs⟩ ∧
    storeFs.dev.NumbersInPlace ∧ isReg storeFile.mode = true ∧
    storeFs.dev.Live (slotIndex storeFile.inodeNo) ∧
    storeFs.dev.slot (slotIndex storeFile.inodeNo) = storeFile ∧
    ¬ RewrittenBy storeFs 1 storeFile.inodeNo [List.replicate 33 255] := by
  have hindex : slotIndex storeFile.inodeNo = 1 := by decide
  have hslot : storeDevice.slot 1 = storeFile := (storeDevice_slot 1).trans (if_pos rfl)
  rw [hindex]
  refine ⟨storeFs_run, fun i hi => ?_, by decide, ⟨by decide, ?_⟩, hslot, ?_⟩
  · have hi' : storeDevice.Live i := hi
    change (storeDevice.slot i).inodeNo = inoOf i
    by_cases h : i = 1
    · rw [h, hslot]
      rfl
    · have hs := (storeDevice_slot i).trans (if_neg h)
      rw [hs]
      exact (freshDevice.store.slots i ((Device.live_congr hs).mp hi')).1
  · change (storeDevice.slot 1).inodeNo ≠ 0#64
    rw [hslot]
    decide
  · rintro ⟨fs', hrun, hold⟩
    have hbyte : lastByteAfter
        (run quiet (writeChunks 1 [List.replicate 33 255] 0) LockState.free storeFs) = some 0 := by
      decide +kernel
    have hread := hold.read 33 (by decide)
    rw [hrun] at hbyte
    simp only [lastByteAfter, hread] at hbyte
    exact absurd hbyte (by decide)

end Simplefs
