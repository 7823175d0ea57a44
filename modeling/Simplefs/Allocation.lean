/-
# Allocation under interleaving

`simplefs_create_fs_object` chooses an inode number by looking at a bitmap that it only updates
much later, and under another lock; a block is taken under a third one.  However the calls of
any number of threads are interleaved, no number and no block is handed out twice, and no
update of the counts is lost.
-/
import Simplefs.Consistency
import Simplefs.Deadlock

namespace Simplefs

open Prog (LockState Config Reach)

/-! ## 1. What has to hold at every point -/

section Safe

variable {T : Type}

/-- **Allocation is safe at this point of the schedule.** -/
structure AllocSafe (c : Config Fs Progress Lock Site Fault Unit T) : Prop where
  /-- Two creates in progress never have the same inode number, ... -/
  ino_inj : ∀ t u o o' k, c.published t = some o → c.published u = some o' →
    o.ino = some k → o'.ino = some k → t = u
  /-- ... nor the same block. -/
  blk_inj : ∀ t u o o' b, c.published t = some o → c.published u = some o' →
    o.blk = some b → o'.blk = some b → t = u
  /-- Until its inode is in the store, no live inode has the number or the block of a create. -/
  ino_fresh : ∀ t o k, c.published t = some o → o.ino = some k → o.added = false →
    ∀ i, c.s.dev.Live i → (c.s.dev.slot i).inodeNo ≠ BitVec.ofNat 64 k
  blk_fresh : ∀ t o b, c.published t = some o → o.blk = some b → o.added = false →
    ∀ i, c.s.dev.Live i → (c.s.dev.slot i).block ≠ b
  /-- From then on it is the live inode that has them. -/
  added : ∀ t o k b, c.published t = some o → o.ino = some k → o.blk = some b → o.added = true →
    ∃ i, c.s.dev.Live i ∧ (c.s.dev.slot i).inodeNo = BitVec.ofNat 64 k ∧
      (c.s.dev.slot i).block = b
  /-- Two live inodes have different numbers and different blocks. -/
  live_inj : ∀ i j, c.s.dev.Live i → c.s.dev.Live j →
    (c.s.dev.slot i).inodeNo = (c.s.dev.slot j).inodeNo ∨
      (c.s.dev.slot i).block = (c.s.dev.slot j).block → i = j
  /-- While nobody holds the superblock lock, the count and the bitmap are exact. -/
  exact : c.owner .sb = none → c.s.dev.inodesCount.toNat = c.s.dev.liveSlots.card ∧
    ∀ k, 1 ≤ k → k < 64 → (c.s.imap.getLsbD k = true ↔
      ∃ i, c.s.dev.Live i ∧ (c.s.dev.slot i).inodeNo = BitVec.ofNat 64 k)

end Safe

/-! ## 2. What a phase publishes -/

/-- An inode that a directory names is live and no orphan. -/
theorem FsInv.named_live {fs : Fs} {S : Shadow} (hi : FsInv fs S) {d i : Nat} {l : List UInt8}
    (hn : fs.Named d l i) : fs.dev.Live i ∧ ¬ S.orphan i := by
  obtain ⟨x, j, hx, hent⟩ := hn
  obtain ⟨hl, -, ho⟩ := hi.tree.wf.target x.slot j i ⟨(hi.dir hx).1, l, hent⟩
  exact ⟨hl, ho⟩

/-- Only one directory names an inode. -/
theorem FsInv.named_inj {fs : Fs} {S : Shadow} (hi : FsInv fs S) {d d' i : Nat}
    {l l' : List UInt8} (hn : fs.Named d l i) (hn' : fs.Named d' l' i) : d = d' := by
  obtain ⟨x, j, hx, hent⟩ := hn
  obtain ⟨x', j', hx', hent'⟩ := hn'
  obtain ⟨hslot, -⟩ := hi.tree.wf.inj _ _ _ _ _ ⟨(hi.dir hx).1, l, hent⟩ ⟨(hi.dir hx').1, l', hent'⟩
  exact hi.inj d d' x x' (hi.current_of_dirAt hx) (hi.current_of_dirAt hx') hslot

variable {T : Type} {fs : Fs} {G : T → Phase}

/-- **Where the inode of a published number is**: not there yet, in the store under no name, or
named in the directory of the create. -/
theorem Inv.ino (h : Inv fs G) {t : T} {k : Nat} (hk : (G t).view.ino = some k) :
    ∃ i, k = i + 1 ∧
      ((G t).view.added = false ∧ (G t).pick = some i ∧ i < 63 ∧ ¬ fs.dev.Live i ∨
        (G t).view.added = true ∧ fs.dev.Live i ∧
          ((G t).orphan = some i ∨ ∃ d l, (G t).dir = some d ∧ fs.Named d l i)) := by
  have hl := h.loc t
  generalize G t = g at hk hl
  cases g with
  | chosen d name i =>
    cases hk
    exact ⟨i, rfl, Or.inl ⟨rfl, rfl, hl.2⟩⟩
  | alloc d name i b =>
    cases hk
    exact ⟨i, rfl, Or.inl ⟨rfl, rfl, hl.2⟩⟩
  | added d name i v =>
    cases hk
    exact ⟨i, rfl, Or.inr ⟨rfl, hl.2.1, Or.inl rfl⟩⟩
  | found d name i v mine dirty =>
    cases mine with
    | false => cases hk
    | true =>
      cases hk
      exact ⟨i, rfl, Or.inr ⟨rfl, (h.inv.named_live hl.2.1).1, Or.inr ⟨d, _, rfl, hl.2.1⟩⟩⟩
  | made d i b =>
    cases hk
    obtain ⟨⟨l, hn⟩, -⟩ := hl
    exact ⟨i, rfl, Or.inr ⟨rfl, (h.inv.named_live hn).1, Or.inr ⟨d, l, rfl, hn⟩⟩⟩
  | _ => cases hk

/-- **Where a published block is**: pending, or in the slot of the published number. -/
theorem Inv.blk (h : Inv fs G) {t : T} {b : Nat} (hb : (G t).view.blk = some b) :
    ∃ i, (G t).view.ino = some (i + 1) ∧
      ((G t).view.added = false ∧ (G t).pend = some b ∨
        (G t).view.added = true ∧ (fs.dev.slot i).block = b) := by
  have hl := h.loc t
  generalize G t = g at hb hl
  cases g with
  | alloc d name i c =>
    cases hb
    exact ⟨i, rfl, Or.inl ⟨rfl, rfl⟩⟩
  | added d name i v =>
    cases hb
    exact ⟨i, rfl, Or.inr ⟨rfl, congrArg SfsInode.block hl.2.2⟩⟩
  | found d name i v mine dirty =>
    cases mine with
    | false => cases hb
    | true =>
      cases hb
      exact ⟨i, rfl, Or.inr ⟨rfl, congrArg SfsInode.block hl.2.2⟩⟩
  | made d i c =>
    cases hb
    exact ⟨i, rfl, Or.inr ⟨rfl, hl.2⟩⟩
  | _ => cases hb

/-- Published numbers are distinct, when one thread at most is between its choice and its
inode's arrival in the store. -/
theorem Inv.ino_inj (h : Inv fs G) {t u : T} {k : Nat}
    (hexcl : (G t).pick ≠ none → (G u).pick ≠ none → t = u)
    (ht : (G t).view.ino = some k) (hu : (G u).view.ino = some k) : t = u := by
  obtain ⟨i, rfl, hti⟩ := h.ino ht
  obtain ⟨j, hij, huj⟩ := h.ino hu
  obtain rfl : i = j := Nat.succ.inj hij
  rcases hti with ⟨-, hpt, -, hdt⟩ | ⟨-, hlt, hwt⟩
  · rcases huj with ⟨-, hpu, -⟩ | ⟨-, hlu, -⟩
    · exact hexcl (by rw [hpt]; exact Option.some_ne_none i)
        (by rw [hpu]; exact Option.some_ne_none i)
    · exact absurd hlu hdt
  · rcases huj with ⟨-, -, -, hdu⟩ | ⟨-, -, hwu⟩
    · exact absurd hlt hdu
    · rcases hwt with hot | ⟨d, l, hd, hn⟩
      · rcases hwu with hou | ⟨d', l', -, hn'⟩
        · exact h.orphans t u i hot hou
        · exact absurd ⟨t, hot⟩ (h.inv.named_live hn').2
      · rcases hwu with hou | ⟨d', l', hd', hn'⟩
        · exact absurd ⟨u, hou⟩ (h.inv.named_live hn).2
        · exact h.dirs t u d hd (h.inv.named_inj hn hn' ▸ hd')

/-- Published blocks are distinct, under the same condition. -/
theorem Inv.blk_inj (h : Inv fs G) {t u : T} {b : Nat}
    (hexcl : (G t).pick ≠ none → (G u).pick ≠ none → t = u)
    (ht : (G t).view.blk = some b) (hu : (G u).view.blk = some b) : t = u := by
  obtain ⟨i, hti, hbt⟩ := h.blk ht
  obtain ⟨j, huj, hbu⟩ := h.blk hu
  have hlive : ∀ {v : T} {k : Nat}, (G v).view.ino = some (k + 1) → (G v).view.added = true →
      fs.dev.Live k := by
    intro v k hk ha
    obtain ⟨k', hkk, ⟨hna, -⟩ | ⟨-, hl, -⟩⟩ := h.ino hk
    · rw [ha] at hna
      cases hna
    · rwa [Nat.succ.inj hkk]
  rcases hbt with ⟨-, hpt⟩ | ⟨hat, hbt⟩
  · rcases hbu with ⟨-, hpu⟩ | ⟨hau, hbu⟩
    · exact hexcl (Phase.pick_of_pend hpt) (Phase.pick_of_pend hpu)
    · exact absurd hbu ((h.inv.store.pend b ⟨t, hpt⟩).2.2.1 j (hlive huj hau))
  · rcases hbu with ⟨-, hpu⟩ | ⟨hau, hbu⟩
    · exact absurd hbt ((h.inv.store.pend b ⟨u, hpu⟩).2.2.1 i (hlive hti hat))
    · have hij := h.inv.store.block_inj i j (hlive hti hat) (hlive huj hau) (hbt.trans hbu.symm)
      rw [← hij] at huj
      exact h.ino_inj hexcl hti huj

/-! ## 3. Every schedule -/

/-- **An outlined point is safe.** -/
theorem Outlined.safe [DecidableEq T] {c : Config Fs Progress Lock Site Fault Unit T}
    (h : Prog.Outlined (discipline T) c) : AllocSafe c := by
  obtain ⟨G, H, hc⟩ := h
  have hi : Inv c.s G := hc.inv
  have hexcl : ∀ t u, (G t).pick ≠ none → (G u).pick ≠ none → t = u := fun t u ht hu =>
    hc.excl t u .childrenUpdate ⟨rfl, ht⟩ ⟨rfl, hu⟩
  -- what a thread publishes is the view of its phase
  have hview : ∀ t o, c.published t = some o → o = (G t).view := by
    intro t o ho
    obtain ⟨th, hth, rfl⟩ := Option.map_eq_some_iff.mp ho
    exact (hc.run t th hth).2.symm
  have hs := hi.inv.store
  have hno : ∀ i k, c.s.dev.Live i → (c.s.dev.slot i).inodeNo = BitVec.ofNat 64 (k + 1) →
      k < 63 → i = k := by
    intro i k hl hk hk63
    rw [(hs.slots i hl).1] at hk
    exact inoOf_inj hl.lt (by omega) hk
  refine ⟨?_, ?_, ?_, ?_, ?_, ?_, ?_⟩
  · intro t u o o' k ht hu hk hk'
    rw [hview t o ht] at hk
    rw [hview u o' hu] at hk'
    exact hi.ino_inj (hexcl t u) hk hk'
  · intro t u o o' b ht hu hb hb'
    rw [hview t o ht] at hb
    rw [hview u o' hu] at hb'
    exact hi.blk_inj (hexcl t u) hb hb'
  · intro t o k ht hk ha i hl heq
    rw [hview t o ht] at hk ha
    obtain ⟨j, rfl, ⟨-, -, hj, hdead⟩ | ⟨ha', -⟩⟩ := hi.ino hk
    · exact hdead (hno i j hl heq hj ▸ hl)
    · rw [ha] at ha'
      cases ha'
  · intro t o b ht hb ha i hl
    rw [hview t o ht] at hb ha
    obtain ⟨j, -, ⟨-, hp⟩ | ⟨ha', -⟩⟩ := hi.blk hb
    · exact (hs.pend b ⟨t, hp⟩).2.2.1 i hl
    · rw [ha] at ha'
      cases ha'
  · intro t o k b ht hk hb ha
    rw [hview t o ht] at hk hb ha
    obtain ⟨j, hj, ⟨ha', -⟩ | ⟨-, hbj⟩⟩ := hi.blk hb
    · rw [ha] at ha'
      cases ha'
    · cases hk.symm.trans hj
      obtain ⟨i, hij, ⟨ha', -⟩ | ⟨-, hl, -⟩⟩ := hi.ino hj
      · rw [ha] at ha'
        cases ha'
      · obtain rfl : j = i := Nat.succ.inj hij
        exact ⟨j, hl, (hs.slots j hl).1, hbj⟩
  · rintro i j hl hl' (heq | heq)
    · rw [(hs.slots i hl).1, (hs.slots j hl').1] at heq
      exact inoOf_inj hl.lt hl'.lt heq
    · exact hs.block_inj i j hl hl' heq
  · intro _
    refine ⟨?_, fun k h1 hk => ?_⟩
    · rw [hs.count, BitVec.toNat_ofNat]
      exact Nat.mod_eq_of_lt (lt_of_le_of_lt (liveSlots_card_le c.s.dev) (by decide))
    · obtain ⟨i, rfl⟩ : ∃ i, k = i + 1 := ⟨k - 1, by omega⟩
      rw [hs.imap_iff i (by omega)]
      constructor
      · intro hl
        exact ⟨i, hl, (hs.slots i hl).1⟩
      · rintro ⟨j, hl, heq⟩
        exact hno j i hl heq (by omega) ▸ hl

/-- **Allocation is safe in every state of every schedule** of listings, lookups, creates and
unlinks, from a mounted filesystem that a run has reached. -/
theorem Reach.allocSafe {T : Type} [DecidableEq T] {size : Nat} {dev : Device}
    {lk : LockState Lock} {fs : Fs} {c : Config Fs Progress Lock Site Fault Unit T}
    (hmk : mkfs zeroMem size = (0, dev))
    (hrun : DefinedRun ⟨LockState.free, .offline dev⟩ ⟨lk, .mounted fs⟩)
    (hreach : Reach (vfsAdmit T) (Config.quiescent fs) c) : AllocSafe c :=
  Outlined.safe (Reach.inv ((hrun.inv (sysInv_mkfs hmk)).mounted fs rfl) hreach)

/-- Two calls overlap, and one waits for the other. -/
theorem Reach.allocSafe_waiting : ∃ (fs : Fs) (c : Config Fs Progress Lock Site Fault Unit Bool),
    Reach (vfsAdmit Bool) (Config.quiescent fs) c ∧ Prog.WaitsFor c true false ∧
      AllocSafe c := by
  obtain ⟨fs, hfs⟩ := exists_twoDirs
  obtain ⟨c, hr, hw⟩ := hfs.create_waits_for_lookup
  exact ⟨fs, c, hr, hw, Reach.allocSafe mkfs_fresh hfs.run hr⟩

end Simplefs
