/-
# Rules for calls that may be cut off

One rule for each function of `Buffers.lean`, in the manner of those of `Bounds.lean`: what is
known in front of the function, after each piece of code that stores something, and after each
sync.  Whatever is known at a point has to imply `C`, which is what holds wherever the power may
fail.
-/
import Simplefs.Bounds
import Simplefs.Buffers
import Simplefs.Create

namespace Simplefs

open Prog (wpc wpc_bind wpc_lock wpc_unlock wpc_return wpc_inMemory wpc_look wpc_bread wpc_brelse
  wpc_flush)

namespace Buf

/-- An assertion that holds whatever is written back and whichever of `marks` is marked, and implies
what has to hold throughout. -/
abbrev SafeOn (marks : Nat → Prop) (C P : Buf → Prop) : Prop := Prog.Safe Fs.blocks marks C P

/-- An assertion that holds whatever is marked and written back. -/
abbrev Steady (P : Buf → Prop) : Prop := Prog.Steady Fs.blocks (fun _ => True) P

/-- ... and that implies what has to hold throughout. -/
abbrev Safe (C P : Buf → Prop) : Prop := SafeOn (fun _ => True) C P

/-- At every point of a call `C`, and at its end `Q`. -/
abbrev wpc {α : Type} (intr : Site → Bool) (C : Buf → Prop) (p : BufCode α)
    (Q : α → Buf → Prop) (c : Buf) : Prop := Prog.wpc intr Buf.Background C p Q c

/-- Block `b` of the device is up to date. -/
def Settled (b : Nat) (c : Buf) : Prop := c.disk b = c.mem.blocks b

variable {intr : Site → Bool} {C : Buf → Prop} {c : Buf} {p d : Nat} {name : Name}
  {marks : Nat → Prop}

/-- Block `b` of the device is up to date, or its buffer is dirty. -/
abbrev Due (b : Nat) (c : Buf) : Prop := Buffered.Due Fs.blocks b c

theorem steady_settled (b : Nat) : Prog.Steady Fs.blocks marks (Settled b) :=
  Prog.Steady.settled _ b

/-! ## 1. The helpers -/

/-- `simplefs_sb_sync`. -/
theorem wpc_sbSync {P : Buf → Prop} (hs : SafeOn marks C P) (hm : marks 0) (hP : P c) :
    wpc intr C simplefsSbSync (fun _ c' => P c' ∧ Settled 0 c') c := by
  refine wpc_bread hs hP fun c1 h1 => wpc_flush hs hm h1 fun c2 h2 hset _ => ?_
  have hs' : SafeOn marks C fun c => P c ∧ Settled 0 c := hs.and (steady_settled 0)
  exact wpc_brelse (k := fun _ => pure ()) hs' ⟨h2, hset⟩ fun c3 h3 =>
    wpc_return hs' h3 fun c4 h4 => h4

/-- A piece of code under the two locks of `simplefs_inode_add` and `simplefs_inode_del`, and the
sync of the superblock after it. -/
theorem wpc_nested {site site' : Site} {f : Fs → Except Fault (Unit × Fs)}
    {obs : Unit → Progress → Progress} {P P1 P2 : Buf → Prop} (h0 : SafeOn marks C P)
    (h1 : SafeOn marks C P1) (h2 : SafeOn marks C P2) (hm : ∀ b, b < 2 → marks b)
    (hP : P c)
    (hstore : ∀ c s, P c → f c.mem = .ok ((), s) → P1 { c with mem := s })
    (hsync : ∀ c, P1 c → Due 1 c → Settled 0 c → P2 c) :
    wpc intr C (do
      if ← Prog.lock site .inodesMgmt then
        return
      sbBread 1
      if ← Prog.lock site' .sb then
        return
      Prog.stepObs (Buffered.inMemory f) obs
      markBufferDirty 1
      simplefsSbSync
      brelse 1
      Prog.unlock .sb
      Prog.unlock .inodesMgmt : BufCode Unit)
      (fun _ c' => P2 c' ∨ P c' ∧ (intr site = true ∨ intr site' = true)) c := by
  refine wpc_lock fun i hi => ?_
  cases i with
  | true => exact wpc_return h0 hP fun c' h => Or.inr ⟨h, Or.inl hi⟩
  | false =>
    refine wpc_bread h0 hP fun c1 hc1 => wpc_lock fun i hi' => ?_
    cases i with
    | true => exact wpc_return h0 hc1 fun c' h => Or.inr ⟨h, Or.inr hi'⟩
    | false =>
      refine wpc_inMemory h0 hc1 fun c2 _ s hc2 hf => ?_
      refine Prog.wpc_markDirty h1 (hm 1 (by omega)) (hstore c2 s hc2 hf) fun c3 hc3 hdue => ?_
      refine wpc_bind (wpc_sbSync (h1.and (.due _ 1)) (hm 0 (by omega)) ⟨hc3, hdue⟩) ?_
      intro _ c4 hc4
      refine wpc_brelse h2 (hsync c4 hc4.1.1 hc4.1.2 hc4.2) fun c5 hc5 => wpc_unlock (wpc_unlock ?_)
      exact wpc_return (a := ()) h2 hc5 fun c' h => Or.inl h

/-- `simplefs_inode_add`. -/
theorem wpc_inodeAdd {v : SfsInode} {P P1 P2 : Buf → Prop} (h0 : SafeOn marks C P)
    (h1 : SafeOn marks C P1) (h2 : SafeOn marks C P2) (hm : ∀ b, b < 2 → marks b)
    (hP : P c)
    (hadd : ∀ c s, P c → addInode v c.mem = .ok ((), s) → P1 { c with mem := s })
    (hsync : ∀ c, P1 c → Due 1 c → Settled 0 c → P2 c) :
    wpc intr C (simplefsInodeAdd v)
      (fun _ c' => P2 c' ∨ P c' ∧ (intr .addMgmt = true ∨ intr .addSb = true)) c :=
  wpc_nested h0 h1 h2 hm hP hadd hsync

/-- `simplefs_inode_del`. -/
theorem wpc_inodeDel {ino : BitVec 64} {P P1 P2 : Buf → Prop} (h0 : SafeOn marks C P)
    (h1 : SafeOn marks C P1) (h2 : SafeOn marks C P2) (hm : ∀ b, b < 2 → marks b)
    (hP : P c)
    (hdel : ∀ c s, P c → delInode ino c.mem = .ok ((), s) → P1 { c with mem := s })
    (hsync : ∀ c, P1 c → Due 1 c → Settled 0 c → P2 c) :
    wpc intr C (simplefsInodeDel ino)
      (fun _ c' => P2 c' ∨ P c' ∧ (intr .delMgmt = true ∨ intr .delSb = true)) c :=
  wpc_nested h0 h1 h2 hm hP hdel hsync

/-- `simplefs_sb_get_a_freeblock`: the block that the scan finds is taken, or there is an error. -/
theorem wpc_getAFreeblock {P : Buf → Prop} {P1 P2 : Nat → Buf → Prop} (h0 : SafeOn marks C P)
    (h1 : ∀ b, SafeOn marks C (P1 b)) (h2 : ∀ b, SafeOn marks C (P2 b))
    (hm : ∀ b, b < 2 → marks b) (hP : P c)
    (hmem : ∀ c', P c' → c'.mem = c.mem)
    (htake : ∀ c' b, P c' → intr .getAFreeblock = false →
      freeBlockScan c.mem.dev.freeBlocks = some b → P1 b { c' with mem := c.mem.taken b })
    (hsync : ∀ b c, P1 b c → Settled 0 c → P2 b c) :
    wpc intr C simplefsSbGetAFreeblock
      (fun r c' => (∀ ret, r = .error ret → P c' ∧
        (intr .getAFreeblock = true ∨ freeBlockScan c.mem.dev.freeBlocks = none)) ∧
          ∀ b, r = .ok b → P2 b c') c := by
  have herr : ∀ (ret : Int) c', P c' →
      (intr .getAFreeblock = true ∨ freeBlockScan c.mem.dev.freeBlocks = none) →
      Prog.wpc intr Buf.Background C (pure (.error ret) : BufCode (Except Int Nat))
      (fun r c' => (∀ ret, r = .error ret → P c' ∧
        (intr .getAFreeblock = true ∨ freeBlockScan c.mem.dev.freeBlocks = none)) ∧
          ∀ b, r = .ok b → P2 b c') c' := by
    intro ret c' hc' hwhy
    exact wpc_return h0 hc' fun c2 h => ⟨fun _ _ => ⟨h, hwhy⟩, fun b hb => by cases hb⟩
  refine wpc_lock fun i hi => ?_
  cases i with
  | true => exact wpc_unlock (herr _ c hP (Or.inl hi))
  | false =>
    refine wpc_inMemory h0 hP fun c1 r s hc1 hr => ?_
    rw [hmem c1 hc1] at hr
    by_cases hscan : freeBlockScan c.mem.dev.freeBlocks = none
    · rw [takeFreeBlock_none hscan] at hr
      cases hr
      have hc1' : P { c1 with mem := c.mem } := by
        rw [← hmem c1 hc1]
        exact hc1
      exact wpc_unlock (herr _ _ hc1' (Or.inr hscan))
    · obtain ⟨b, hscan⟩ := Option.ne_none_iff_exists'.mp hscan
      rw [takeFreeBlock_some hscan] at hr
      cases hr
      have htaken := htake c1 b hc1 hi hscan
      refine wpc_bind (wpc_sbSync (h1 b) (hm 0 (by omega)) htaken) fun _ c2 hc2 => wpc_unlock ?_
      refine wpc_return (h2 b) (hsync b c2 hc2.1 hc2.2) fun c3 hc3 => ?_
      refine ⟨fun ret hret => (by cases hret), fun b' hb' => ?_⟩
      cases hb'
      exact hc3

/-- `simplefs_sb_get_objects_count`. -/
theorem wpc_getObjectsCount {P : Buf → Prop} (h0 : SafeOn marks C P) (hP : P c)
    (hmem : ∀ c', P c' → c'.mem = c.mem) :
    wpc intr C simplefsSbGetObjectsCount (fun r c' => P c' ∧
      (∀ ret, r = .error ret → intr .getObjectsCount = true) ∧
        ∀ n, r = .ok n → intr .getObjectsCount = false ∧ n = c.mem.dev.inodesCount) c := by
  refine wpc_lock fun i hi => ?_
  cases i with
  | true => exact wpc_return h0 hP fun _ h => ⟨h, fun _ _ => hi, fun n hn => by cases hn⟩
  | false =>
    refine wpc_look h0 hP fun c1 hc1 => wpc_unlock (wpc_return h0 hc1 fun _ h => ⟨h, ?_, ?_⟩)
    · intro ret hret
      cases hret
    · rintro n ⟨⟩
      exact ⟨hi, by rw [hmem c1 hc1]⟩

/-- `simplefs_get_inode`: what it returns has been in a slot. -/
theorem wpc_getInode {ino : BitVec 64} {P : Buf → Prop} (h0 : SafeOn marks C P) (hP : P c)
    {w : SfsInode}
    (hv : ∀ c, P c → c.mem.dev.slot (slotAt ino) = w) :
    wpc intr C (simplefsGetInode ino) (fun r c' => P c' ∧
      ∀ v, r = some v → slotAt ino < slotsPerBlock ∧ v = w) c := by
  refine wpc_bread h0 hP fun c1 hc1 => wpc_lock fun i _ => ?_
  cases i with
  | true => exact wpc_return h0 hc1 fun _ h => ⟨h, fun v hv => by cases hv⟩
  | false =>
    refine wpc_inMemory h0 hc1 fun c2 r s hc2 hr => ?_
    unfold readInode at hr
    split at hr
    swap
    · cases hr
    rename_i hlt
    cases hr
    refine wpc_unlock (wpc_brelse h0 hc2 fun c3 hc3 => wpc_return h0 hc3 fun c4 hc4 => ⟨hc4, ?_⟩)
    rintro v ⟨⟩
    exact ⟨hlt, hv c2 hc2⟩

/-- `simplefs_inode_save`: it saves, or it returns an error, for a signal or because no slot has the
inode's number. -/
theorem wpc_inodeSave {P P1 P2 F : Buf → Prop} (h0 : SafeOn marks C P)
    (h1 : SafeOn marks C P1) (h2 : SafeOn marks C P2) (hF : SafeOn marks C F)
    (hm : ∀ b, b < 2 → marks b) (hP : P c)
    (hsave : ∀ c s, P c → saveInode d c.mem = .ok (true, s) → P1 { c with mem := s })
    (hsync : ∀ c, P1 c → Settled 1 c → P2 c)
    (hfail : ∀ c, P c → intr .save = true ∨ saveInode d c.mem = .ok (false, c.mem) → F c) :
    wpc intr C (simplefsInodeSave d) (fun ret c' => ret = 0 ∧ P2 c' ∨ ret ≠ 0 ∧ F c') c := by
  refine wpc_bread h0 hP fun c1 hc1 => wpc_lock fun i hi => ?_
  cases i with
  | true =>
    exact wpc_return hF (hfail c1 hc1 (Or.inl hi)) fun _ h => Or.inr ⟨by decide, h⟩
  | false =>
    refine wpc_inMemory h0 hc1 fun c2 r s hc2 hr => ?_
    cases r with
    | false =>
      obtain ⟨x, -, ⟨-, rfl⟩ | ⟨h, -⟩⟩ := saveInode_ok hr
      · refine wpc_unlock (wpc_return hF (hfail c2 hc2 (Or.inr hr)) fun _ h => ?_)
        exact Or.inr ⟨by decide, h⟩
      · cases h
    | true =>
      refine wpc_flush h1 (hm 1 (by omega)) (hsave c2 s hc2 hr) fun c3 hc3 hset _ => ?_
      refine wpc_brelse h2 (hsync c3 hc3 hset) fun c4 hc4 => wpc_unlock ?_
      exact wpc_return h2 hc4 fun _ h => Or.inl ⟨rfl, h⟩

/-! ## 2. The calls -/

/-- What a call returns is dropped. -/
theorem wpc_discard {α : Type} {q : BufCode α} {P : Buf → Prop} (h : wpc intr C q (fun _ => P) c) :
    wpc intr C (discard q) (fun _ => P) c := Prog.wpc_map h

/-- A call that is one piece of code, with or without a buffer that it reads. -/
theorem wpc_reading {α : Type} {f : Fs → Except Fault (α × Fs)} {look : Buf → Bool}
    {bh : Buf → Nat} {P P1 : Buf → Prop} (h0 : SafeOn marks C P) (h1 : SafeOn marks C P1)
    (hP : P c)
    (hstep : ∀ c r s, P c → f c.mem = .ok (r, s) → P1 { c with mem := s }) :
    wpc intr C (do
      if ← Prog.read look then
        let bh ← Prog.read bh
        sbBread bh
        let r ← Prog.step (Buffered.inMemory f)
        brelse bh
        return r
      else
        Prog.step (Buffered.inMemory f) : BufCode α) (fun _ => P1) c := by
  refine wpc_look h0 hP fun c1 hc1 => ?_
  split
  · refine wpc_look h0 hc1 fun c2 hc2 => wpc_bread h0 hc2 fun c3 hc3 => ?_
    refine wpc_inMemory h0 hc3 fun c4 r s hc4 hf => ?_
    refine wpc_brelse h1 (hstep c4 r s hc4 hf) fun c5 hc5 => ?_
    exact wpc_return h1 hc5 fun _ h => h
  · refine wpc_inMemory (k := pure) h0 hc1 fun c2 r s hc2 hf => ?_
    exact wpc_return h1 (hstep c2 r s hc2 hf) fun _ h => h

/-- `simplefs_iterate`. -/
theorem wpc_iterate {pos : Nat} {P P1 : Buf → Prop} (h0 : SafeOn marks C P)
    (h1 : SafeOn marks C P1) (hP : P c)
    (hstep : ∀ c r s, P c → iterate d pos c.mem = .ok (r, s) → P1 { c with mem := s }) :
    wpc intr C (simplefsIterate d pos) (fun _ => P1) c :=
  wpc_reading h0 h1 hP hstep

/-- `simplefs_read`. -/
theorem wpc_read {ppos len : Nat} {userOk : Bool} {P : Buf → Prop} (h0 : SafeOn marks C P)
    (hP : P c) :
    wpc intr C (simplefsRead d ppos len userOk) (fun _ => P) c := by
  refine wpc_reading h0 h0 hP fun c r s hc hr => ?_
  rw [readFile_state hr]
  exact hc

/-- `simplefs_lookup`: it attaches the inode that an entry of the cache leads to, or nothing. -/
theorem wpc_lookup {P P1 : Buf → Prop} (h0 : SafeOn marks C P) (h1 : SafeOn marks C P1) (hP : P c)
    (hdev : ∀ c', P c' → c'.mem = c.mem)
    (hfound : ∀ c' x cache e, P c' → c.mem.dentries p = some x → x.fsdata = some cache →
      usedCacheEntryGet cache name = some e → slotAt e.record.inodeNo < slotsPerBlock →
      P1 { c' with
        mem := c.mem.dAdd p name (c.mem.dev.slot (slotAt e.record.inodeNo)) }) :
    wpc intr C (simplefsLookup p name) (fun _ c' => P c' ∨ P1 c') c := by
  refine wpc_inMemory h0 hP fun c1 r s hc1 hr => ?_
  obtain ⟨rfl, x, cache, hx, hcache, rfl⟩ := lookupEntry_ok hr
  cases he : usedCacheEntryGet cache name with
  | none => exact wpc_return h0 hc1 fun _ h => Or.inl h
  | some e =>
    refine wpc_bind (wpc_getInode h0 hc1 (w := c.mem.dev.slot (slotAt e.record.inodeNo))
      fun c' hc' => by rw [hdev c' hc']) ?_
    rintro v c2 ⟨hc2, hv⟩
    cases v with
    | none => exact wpc_return h0 hc2 fun _ h => Or.inl h
    | some v =>
      obtain ⟨hlt, rfl⟩ := hv v rfl
      refine wpc_inMemory h0 hc2 fun c3 _ s hc3 hr => ?_
      cases hr
      rw [hdev c1 hc1] at hx
      refine wpc_return h1 ?_ fun _ h => Or.inr h
      rw [hdev c3 hc3]
      exact hfound c3 x cache e hc3 hx hcache he hlt

/-- `simplefs_write`, when the copy does not come to its end. -/
theorem wpc_write_failed {ppos copied : Nat} {data : List UInt8} {P T : Buf → Prop}
    (h0 : SafeOn marks C P) (hT : SafeOn marks C T) (hP : P c) (hmem : ∀ c', P c' → c'.mem = c.mem)
    (htear : ∀ c' ok s, P c' → copyFromUser d ppos data copied c.mem = .ok (ok, s) →
      ok = false ∧ T { c' with mem := s }) :
    wpc intr C (simplefsWrite d ppos data copied) (fun _ => T) c := by
  refine wpc_look h0 hP fun c1 hc1 => ?_
  rw [hmem c1 hc1]
  refine wpc_bread h0 hc1 fun c2 hc2 => wpc_inMemory h0 hc2 fun c3 ok s hc3 hr => ?_
  rw [hmem c3 hc3] at hr
  obtain ⟨rfl, hc3'⟩ := htear c3 ok s hc3 hr
  exact wpc_brelse hT hc3' fun c4 hc4 => wpc_return hT hc4 fun _ h => h

/-- `simplefs_write`: `A` is for a copy that went through, `T` for one that did not. -/
theorem wpc_write {ppos copied : Nat} {data : List UInt8} {marks' : Nat → Prop}
    {P A T B D E G F : Buf → Prop}
    (h0 : SafeOn marks C P) (h1 : SafeOn marks' C A) (hT : SafeOn marks C T)
    (h2 : SafeOn marks C B) (h3 : SafeOn marks C D) (h4 : SafeOn marks C E)
    (h5 : SafeOn marks C G) (hF : SafeOn marks C F) (hm : ∀ b, b < 2 → marks b)
    (hm' : marks' (dataBlock c.mem d)) (hP : P c)
    (hmem : ∀ c', P c' → c'.mem = c.mem)
    (hcopy : ∀ c' s, P c' → copyFromUser d ppos data copied c.mem = .ok (true, s) →
      A { c' with mem := s })
    (htear : ∀ c' s, P c' → copyFromUser d ppos data copied c.mem = .ok (false, s) →
      T { c' with mem := s })
    (hsync : ∀ c', A c' → Settled (dataBlock c.mem d) c' →
      c'.dirty (dataBlock c.mem d) = false → B c')
    (hsize : ∀ c s, B c → setFileSize d (ppos + data.length) c.mem = .ok ((), s) →
      D { c with mem := s })
    (hsave : ∀ c s, D c → saveInode d c.mem = .ok (true, s) → E { c with mem := s })
    (hsync' : ∀ c, E c → Settled 1 c → G c)
    (hfail : ∀ c, D c → intr .save = true ∨ saveInode d c.mem = .ok (false, c.mem) → F c) :
    wpc intr C (simplefsWrite d ppos data copied)
      (fun _ c' => T c' ∨ B c' ∧ intr .write = true ∨ F c' ∨ G c') c := by
  refine wpc_look h0 hP fun c1 hc1 => ?_
  rw [hmem c1 hc1]
  refine wpc_bread h0 hc1 fun c2 hc2 => wpc_inMemory h0 hc2 fun c3 ok s hc3 hr => ?_
  rw [hmem c3 hc3] at hr
  cases ok with
  | false =>
    refine wpc_brelse hT (htear c3 s hc3 hr) fun c4 hc4 => ?_
    exact wpc_return hT hc4 fun _ h => Or.inl h
  | true =>
    refine wpc_flush h1 hm' (hcopy c3 s hc3 hr) fun c5 hc5 hset hclean => ?_
    refine wpc_brelse h2 (hsync c5 hc5 hset hclean) fun c6 hc6 => wpc_lock fun i hi => ?_
    cases i with
    | true => exact wpc_return h2 hc6 fun _ h => Or.inr (Or.inl ⟨h, hi⟩)
    | false =>
      refine wpc_inMemory h2 hc6 fun c7 _ s hc7 hr => ?_
      refine wpc_bind (wpc_inodeSave h3 h4 h5 hF hm (hsize c7 s hc7 hr) hsave hsync' hfail) ?_
      rintro ret c8 (⟨-, hc8⟩ | ⟨-, hc8⟩)
      · exact wpc_unlock (wpc_return h5 hc8 fun _ h => Or.inr (Or.inr (Or.inr h)))
      · exact wpc_unlock (wpc_return hF hc8 fun _ h => Or.inr (Or.inr (Or.inl h)))

/-- What is left of a create once its inode has been handed to `simplefs_inode_add`. -/
def createTail (p : Nat) (name : Name) (v : SfsInode) : BufCode Int := do
  let bh ← Prog.read fun c => dataBlock c.mem p
  sbBread bh
  Prog.step (Buffered.inMemory (addRecord p name v.inodeNo))
  markBufferDirty bh
  syncDirtyBuffer bh
  brelse bh
  if ← Prog.lock .createMgmt .inodesMgmt then
    Prog.unlock .childrenUpdate
    return -EINTR
  Prog.step (Buffered.inMemory (countChild p))
  let ret ← simplefsInodeSave p
  if ret ≠ 0 then
    Prog.unlock .inodesMgmt
    Prog.unlock .childrenUpdate
    return ret
  Prog.unlock .inodesMgmt
  Prog.unlock .childrenUpdate
  Prog.step (Buffered.inMemory (attach p name v))
  return 0

/-- The end of a create. -/
theorem wpc_createTail {v : SfsInode} {A B D E G H F R : Buf → Prop}
    (hA : SafeOn marks C A) (h1 : SafeOn marks C B) (h2 : SafeOn marks C D) (h3 : SafeOn marks C E)
    (h4 : SafeOn marks C G) (h5 : SafeOn marks C H) (hF : SafeOn marks C F)
    (hR : SafeOn marks C R) (hm : ∀ b, b < 2 → marks b) (hm' : marks (dataBlock c.mem p))
    (hc : A c)
    (hmem : ∀ c', A c' → c'.mem = c.mem)
    (hrecord : ∀ c' s, A c' → addRecord p name v.inodeNo c.mem = .ok ((), s) →
      B { c' with mem := s })
    (hsync : ∀ c', B c' → Settled (dataBlock c.mem p) c' → D c')
    (hcount : ∀ c s, D c → countChild p c.mem = .ok ((), s) → E { c with mem := s })
    (hsave : ∀ c s, E c → saveInode p c.mem = .ok (true, s) → G { c with mem := s })
    (hsync' : ∀ c, G c → Settled 1 c → H c)
    (hfail : ∀ c, E c → intr .save = true ∨ saveInode p c.mem = .ok (false, c.mem) → F c)
    (hattach : ∀ c, H c → R { c with mem := c.mem.dAdd p name v }) :
    wpc intr C (createTail p name v)
      (fun ret c' => D c' ∧ intr .createMgmt = true ∨ F c' ∨ ret = 0 ∧ R c') c := by
  refine wpc_look hA hc fun c1 hc1 => ?_
  rw [hmem c1 hc1]
  refine wpc_bread hA hc1 fun c2 hc2 => wpc_inMemory hA hc2 fun c3 _ s hc3 hr => ?_
  rw [hmem c3 hc3] at hr
  refine wpc_flush h1 hm' (hrecord c3 s hc3 hr) fun c4 hc4 hset _ => ?_
  refine wpc_brelse h2 (hsync c4 hc4 hset) fun c5 hc5 => wpc_lock fun i hi => ?_
  cases i with
  | true => exact wpc_unlock (wpc_return h2 hc5 fun _ h => Or.inl ⟨h, hi⟩)
  | false =>
    refine wpc_inMemory h2 hc5 fun c6 _ s hc6 hr => ?_
    refine wpc_bind (wpc_inodeSave h3 h4 h5 hF hm (hcount c6 s hc6 hr) hsave hsync' hfail) ?_
    rintro ret c7 (⟨rfl, hc7⟩ | ⟨hret, hc7⟩)
    · rw [if_neg (by decide)]
      refine wpc_unlock (wpc_unlock (wpc_inMemory h5 hc7 fun c8 _ s hc8 hr => ?_))
      cases hr
      exact wpc_return hR (hattach c8 hc8) fun _ h => Or.inr (Or.inr ⟨rfl, h⟩)
    · rw [if_pos hret]
      exact wpc_unlock (wpc_unlock (wpc_return hF hc7 fun _ h => Or.inr (Or.inl h)))

/-- A create up to there: it is turned away, or `A` holds of the number and the block once the block
is taken and synced, and the inode has been handed to `simplefs_inode_add`. -/
theorem wpc_create {mode : BitVec 16} {P R : Buf → Prop} {B D E A : Nat → Nat → Buf → Prop}
    (h0 : SafeOn marks C P) (h1 : ∀ ino b, SafeOn marks C (B ino b))
    (h2 : ∀ ino b, SafeOn marks C (D ino b))
    (h3 : ∀ ino b, SafeOn marks C (E ino b)) (hA : ∀ ino b, SafeOn marks C (A ino b))
    (hm : ∀ b, b < 2 → marks b) (hP : P c)
    (hmem : ∀ c', P c' → c'.mem = c.mem)
    (htake : ∀ c' ino b, P c' → c.mem.CreateStarts mode intr → intr .getAFreeblock = false →
      ffz c.mem.imap = some ino → freeBlockScan c.mem.dev.freeBlocks = some b →
      B ino b { c' with mem := c.mem.taken b })
    (hsync : ∀ ino b c, B ino b c → Settled 0 c → D ino b c)
    (hadd : ∀ ino b c s, D ino b c → addInode (newInode mode ino b) c.mem = .ok ((), s) →
      E ino b { c with mem := s })
    (hsync' : ∀ ino b c, E ino b c → Due 1 c → Settled 0 c → A ino b c)
    (hskip : ∀ ino b c, D ino b c → intr .addMgmt = true ∨ intr .addSb = true → A ino b c)
    (htail : ∀ ino b c, A ino b c →
      wpc intr C (createTail p name (newInode mode ino b)) (fun _ => R) c) :
    wpc intr C (simplefsCreateFsObject p name mode)
      (fun _ c' => P c' ∧ c.mem.TurnedAway mode intr ∨ R c') c := by
  have hret : ∀ (ret : Int) c', P c' → c.mem.TurnedAway mode intr →
      Prog.wpc intr Buf.Background C (pure ret : BufCode Int)
        (fun _ c' => P c' ∧ c.mem.TurnedAway mode intr ∨ R c') c' :=
    fun ret c' h hno => wpc_return h0 h fun _ h => Or.inl ⟨h, hno⟩
  refine wpc_inMemory h0 hP fun c1 _ s hc1 hr => ?_
  obtain rfl := bugOnNoCache_state hr
  refine wpc_lock fun i hi => ?_
  cases i with
  | true =>
    refine hret _ _ hc1 (Or.inl fun hst => ?_)
    rw [hst.1] at hi
    cases hi
  | false =>
    refine wpc_bind (wpc_getObjectsCount h0 hc1 fun c' hc' => (hmem c' hc').trans
      (hmem c1 hc1).symm) fun r c2 hc2 => ?_
    obtain ⟨hc2, herr, hok⟩ := hc2
    cases r with
    | error ret =>
      have hi' := herr ret rfl
      refine wpc_unlock (hret _ _ hc2 (Or.inl fun hst => ?_))
      rw [hst.2.1] at hi'
      cases hi'
    | ok count =>
      obtain ⟨hcount, heq⟩ := hok count rfl
      rw [hmem c1 hc1] at heq
      simp only
      split
      · rename_i hfull
        have hno : ¬ c.mem.CreateStarts mode intr := fun hst =>
          absurd hst.2.2.1 (Nat.not_lt.mpr (heq ▸ hfull))
        exact wpc_unlock (hret _ _ hc2 (Or.inl hno))
      rename_i hfull
      split
      · rename_i hmode
        refine wpc_unlock (hret _ _ hc2 (Or.inl fun hst => ?_))
        rcases hst.2.2.2 with hk | hk <;> simp [hk] at hmode
      rename_i hmode
      refine wpc_inMemory h0 hc2 fun c3 ino s hc3 hr => ?_
      obtain ⟨hino, rfl⟩ := pickInodeNumber_ok hr
      have hkind : isDir (mode.setWidth 32) = true ∨ isReg (mode.setWidth 32) = true := by
        by_contra hno
        rw [not_or, Bool.not_eq_true, Bool.not_eq_true] at hno
        rw [hno.1, hno.2] at hmode
        exact hmode rfl
      have hst : c.mem.CreateStarts mode intr := ⟨hi, hcount, heq ▸ Nat.lt_of_not_le hfull, hkind⟩
      have hm3 : ∀ c', P c' → c'.mem = c3.mem := fun c' hc' =>
        (hmem c' hc').trans (hmem c3 hc3).symm
      rw [hmem c3 hc3] at hino
      refine wpc_bind (wpc_getAFreeblock h0 (h1 ino) (h2 ino) hm hc3 hm3
        (fun c' b hc' hget hb => ?_) (hsync ino)) ?_
      · rw [hmem c3 hc3] at hb ⊢
        exact htake c' ino b hc' hst hget hino hb
      rintro r c4 ⟨herr, hok⟩
      cases r with
      | error ret =>
        obtain ⟨hc4, hwhy⟩ := herr ret rfl
        rw [hmem c3 hc3] at hwhy
        exact wpc_unlock (hret _ _ hc4 (Or.inr hwhy))
      | ok b =>
        refine wpc_bind (wpc_inodeAdd (h2 ino b) (h3 ino b) (hA ino b) hm (hok b rfl)
          (hadd ino b) (hsync' ino b)) fun _ c5 hc5 => ?_
        have hc5' : A ino b c5 := hc5.elim id fun h => hskip ino b c5 h.1 h.2
        exact Prog.wpc_mono (htail ino b c5 hc5') (fun _ h => h) fun _ _ h => Or.inr h

/-- `vfs_unlink`. -/
theorem wpc_unlink {e : Nat} {P R : Buf → Prop}
    {A B D E F G : Nat × BitVec 64 → Buf → Prop} (h0 : SafeOn marks C P)
    (h1 : ∀ r, SafeOn marks C (A r)) (h2 : ∀ r, SafeOn marks C (B r))
    (h3 : ∀ r, SafeOn marks C (D r))
    (h4 : ∀ r, SafeOn marks C (E r)) (h5 : ∀ r, SafeOn marks C (F r))
    (h6 : ∀ r, SafeOn marks C (G r)) (hR : SafeOn marks C R) (hm : ∀ b, b < 2 → marks b)
    (hm' : marks (parentBlock c.mem e)) (hP : P c) (hmem : ∀ c', P c' → c'.mem = c.mem)
    (hrecord : ∀ c' r s, P c' → removeRecord e c.mem = .ok (r, s) →
      A r { c' with mem := s })
    (hsync : ∀ r c', A r c' → Settled (parentBlock c.mem e) c' → B r c')
    (hsave : ∀ r c s, B r c → saveInode r.1 c.mem = .ok (true, s) → D r { c with mem := s })
    (hsync' : ∀ r c, D r c → Settled 1 c → E r c)
    (hskip : ∀ r c, B r c →
      intr .save = true ∨ saveInode r.1 c.mem = .ok (false, c.mem) → E r c)
    (hdel : ∀ r c s, E r c → delInode r.2 c.mem = .ok ((), s) → F r { c with mem := s })
    (hsync'' : ∀ r c, F r c → Due 1 c → Settled 0 c → G r c)
    (hskip' : ∀ r c, E r c → intr .delMgmt = true ∨ intr .delSb = true → G r c)
    (hunhash : ∀ r c y, G r c → c.mem.dentries e = some y →
      R { c with mem := c.mem.setDentry e { y with linked := false } }) :
    wpc intr C (vfsUnlink e) (fun _ => R) c := by
  have hun : wpc intr C (simplefsUnlink e) (fun ret c' => ret = 0 ∧ ∃ r, G r c') c := by
    refine wpc_look h0 hP fun c1 hc1 => ?_
    rw [hmem c1 hc1]
    refine wpc_bread h0 hc1 fun c2 hc2 => wpc_inMemory h0 hc2 fun c3 r s hc3 hr => ?_
    rw [hmem c3 hc3] at hr
    refine wpc_flush (h1 r) hm' (hrecord c3 r s hc3 hr) fun c4 hc4 hset _ => ?_
    refine wpc_brelse (h2 r) (hsync r c4 hc4 hset) fun c5 hc5 => ?_
    refine wpc_bind (wpc_inodeSave (h2 r) (h3 r) (h4 r) (h4 r) hm hc5 (hsave r) (hsync' r)
      (hskip r)) ?_
    intro ret c6 hc6
    have hc6' : E r c6 := hc6.elim And.right And.right
    refine wpc_bind (wpc_inodeDel (h4 r) (h5 r) (h6 r) hm hc6' (hdel r) (hsync'' r)) ?_
    intro _ c7 hc7
    have hc7' : G r c7 := hc7.elim id fun h => hskip' r c7 h.1 h.2
    exact wpc_return (h6 r) hc7' fun _ h => ⟨rfl, r, h⟩
  refine wpc_bind hun ?_
  rintro ret c1 ⟨rfl, r, hc1⟩
  rw [if_pos rfl]
  refine wpc_inMemory (k := pure) (h6 r) hc1 fun c2 _ s hc2 hr => ?_
  obtain ⟨y, hy, hr⟩ := Fs.of_bind_dentry hr
  cases hr
  exact wpc_return hR (hunhash r c2 y hc2 hy) fun _ h => h

/-- A check of the superblock. -/
theorem wpc_check {α : Type} {P : Buf → Prop} {Q : α → Buf → Prop} (f : Device → Bool)
    (h0 : SafeOn marks C P) (hP : P c) {k : Bool → BufCode α}
    (hk : ∀ r c', P c' → wpc intr C (k r) Q c') :
    wpc intr C (Prog.read (fun c => f c.mem.dev) >>= k) Q c :=
  wpc_look h0 hP fun c' hc' => hk (f c'.mem.dev) c' hc'

/-- `simplefs_fill_super`: it changes nothing, or it attaches the root. -/
theorem wpc_fillSuper {P P1 R : Buf → Prop} (h0 : SafeOn marks C P) (h1 : SafeOn marks C P1)
    (hR : SafeOn marks C R) (hP : P c)
    (hmap : ∀ c s, P c → fillImapStep c.mem = .ok ((), s) → P1 { c with mem := s })
    (hdev : ∀ c', P1 c' → c'.mem.dev = c.mem.dev)
    (hroot : ∀ c' s, P1 c' → makeRoot (c.mem.dev.slot 0) c'.mem = .ok ((), s) →
      R { c' with mem := s }) :
    wpc intr C simplefsFillSuper (fun ret c' => ret ≠ 0 ∧ P c' ∨ ret = 0 ∧ R c') c := by
  have hrefuse : ∀ c', P c' → Prog.wpc intr Buf.Background C
      (do brelse 0; return -EPERM : BufCode Int)
      (fun ret c' => ret ≠ 0 ∧ P c' ∨ ret = 0 ∧ R c') c' := fun c' hc' =>
    wpc_brelse h0 hc' fun c2 hc2 => wpc_return h0 hc2 fun _ h => Or.inl ⟨by decide, h⟩
  refine wpc_bread (k := fun _ => _) h0 hP fun c1 hc1 => ?_
  refine wpc_check (fun dev => decide (dev.magic ≠ superMagic)) h0 hc1 fun r c2 hc2 => ?_
  cases r with
  | true => exact hrefuse c2 hc2
  | false =>
  refine wpc_check (fun dev => decide (dev.blockSize ≠ 4096)) h0 hc2 fun r c3 hc3 => ?_
  cases r with
  | true => exact hrefuse c3 hc3
  | false =>
  refine wpc_bread h0 hc3 fun c4 hc4 => wpc_inMemory h0 hc4 fun c5 _ s hc5 hr => ?_
  refine wpc_brelse h1 (hmap c5 s hc5 hr) fun c6 hc6 => ?_
  refine wpc_bind (wpc_getInode h1 hc6 (w := c.mem.dev.slot 0) fun c' hc' => ?_) ?_
  · rw [hdev c' hc']
    rfl
  rintro v c7 ⟨hc7, hv⟩
  cases v with
  | none =>
    refine wpc_inMemory (k := pure) h1 hc7 fun c8 _ s _ hr => ?_
    cases hr
  | some v =>
    obtain ⟨-, rfl⟩ := hv v rfl
    refine wpc_inMemory h1 hc7 fun c8 _ s hc8 hr => ?_
    exact wpc_brelse hR (hroot c8 s hc8 hr) fun c9 hc9 =>
      wpc_return hR hc9 fun _ h => Or.inr ⟨rfl, h⟩

end Buf

/-! ## 3. What is written back

Some blocks of the device are those in memory, the others are as they were. -/

/-- Each block is the one in memory or the one on the device. -/
def Buf.Mixed (c : Buf) (disk : Nat → Block) : Prop :=
  ∀ b, disk b = c.mem.blocks b ∨ disk b = c.disk b

section Mixed

variable {c : Buf} {disk : Nat → Block}

theorem Buf.mixed_writeBack (c : Buf) (b : Nat) : c.Mixed (c.writeBack b).disk := by
  intro b'
  change Function.update c.disk b (c.mem.blocks b) b' = _ ∨ Function.update _ _ _ b' = _
  rw [Function.update_apply]
  split
  · rename_i h
    exact Or.inl (h ▸ rfl)
  · exact Or.inr rfl

theorem Buf.mixed_flushed (c : Buf) : c.Mixed c.flushed := by
  intro b
  rw [Buf.flushed]
  split
  · exact Or.inl rfl
  · exact Or.inr rfl

theorem Buf.Mixed.bytes (h : c.Mixed disk) (b : Nat) :
    (∀ a, a / 4096 = b → Device.ofBlocks disk a = c.mem.dev a) ∨
      ∀ a, a / 4096 = b → Device.ofBlocks disk a = c.device a := by
  refine (h b).imp (fun h a ha => ?_) fun h a ha => Device.ofBlocks_of_eq h ha
  rw [Device.ofBlocks_of_eq h ha]
  exact congrFun (Device.ofBlocks_blocks c.mem.dev) a

theorem Buf.Mixed.super (h : c.Mixed disk) : SameSuper c.mem.dev (Device.ofBlocks disk) ∨
    SameSuper c.device (Device.ofBlocks disk) :=
  (h.bytes 0).imp .of_bytes .of_bytes

theorem Buf.Mixed.slots (h : c.Mixed disk) :
    (∀ i, i < slotsPerBlock → (Device.ofBlocks disk).slot i = c.mem.dev.slot i) ∨
      ∀ i, i < slotsPerBlock → (Device.ofBlocks disk).slot i = c.device.slot i :=
  (h.bytes 1).imp (fun h _ => Device.slot_of_bytes h) fun h _ => Device.slot_of_bytes h

theorem Buf.device_of_settled {b : Nat} (h : Buf.Settled b c) {a : Nat} (ha : a / 4096 = b) :
    c.device a = c.mem.dev a :=
  (Device.ofBlocks_of_eq h ha).trans (congrFun (Device.ofBlocks_blocks c.mem.dev) a)

/-- Once the superblock is synced the two maps are the same. -/
theorem Buf.freeBlocks_of_settled (h : Buf.Settled 0 c) :
    c.device.freeBlocks = c.mem.dev.freeBlocks :=
  ByteMem.load64_congr fun _ _ => Buf.device_of_settled h (by omega)

end Mixed

end Simplefs
