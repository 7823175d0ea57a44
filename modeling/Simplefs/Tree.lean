/-
# The directory tree on the device

The name graph (`NameGraph.lean`) that the inode store and the directory blocks spell out:
slot `i` is a node, live if it holds an inode and a directory if its mode says so, and record
`j` of a directory's block, if it is live, is an entry that leads to the slot of its inode
number.

Each way the code writes the device is one of the elementary changes of a name graph, or none.
The store invariant enters only where two blocks have to be different.
-/
import Simplefs.Lib.NameGraph
import Simplefs.Store

namespace Simplefs

/-! ## 1. The graph of a device -/

/-- The node that an inode number names, back and forth. -/
theorem inoOf_slotIndex {ino : BitVec 64} (h : slotIndex ino < 128) :
    inoOf (slotIndex ino) = ino := by
  refine BitVec.eq_of_toNat_eq ?_
  rw [toNat_inoOf h]
  rw [slotIndex, BitVec.toNat_sub] at *
  simp only [BitVec.reduceToNat] at *
  omega

namespace Device

/-- The record at place `j` of slot `i`'s block. -/
def entry (dev : Device) (i j : Nat) : Option (List UInt8 × Nat) :=
  if j < recordsPerBlock ∧ (dev.record (dev.slot i).block j).inodeNo ≠ 0#64 then
    some ((dev.record (dev.slot i).block j).filename,
      slotIndex (dev.record (dev.slot i).block j).inodeNo)
  else none

/-- The name graph of a device. -/
def graph (dev : Device) : NameGraph Nat Nat (List UInt8) where
  live := dev.Live
  dir i := dev.Live i ∧ isDir (dev.slot i).mode = true
  entry := dev.entry

theorem entry_eq_none {dev : Device} {i j : Nat}
    (h : (dev.record (dev.slot i).block j).inodeNo = 0#64) : dev.entry i j = none :=
  if_neg fun hj => hj.2 h

theorem entry_eq_some {dev : Device} {i j : Nat} {r : DirRecord} (hj : j < 15)
    (hr : dev.record (dev.slot i).block j = r) (h : r.inodeNo ≠ 0#64) :
    dev.entry i j = some (r.filename, slotIndex r.inodeNo) := by
  subst hr
  exact if_pos ⟨hj, h⟩

theorem of_entry_eq_some {dev : Device} {i j k : Nat} {l : List UInt8}
    (h : dev.entry i j = some (l, k)) :
    j < 15 ∧ (dev.record (dev.slot i).block j).inodeNo ≠ 0#64 ∧
      (dev.record (dev.slot i).block j).filename = l ∧
      slotIndex (dev.record (dev.slot i).block j).inodeNo = k := by
  unfold entry at h
  split at h
  · rename_i hj
    cases h
    exact ⟨hj.1, hj.2, rfl, rfl⟩
  · cases h

theorem entry_congr {dev dev' : Device} {i j : Nat} (hb : (dev'.slot i).block = (dev.slot i).block)
    (hr : j < 15 → dev'.record (dev.slot i).block j = dev.record (dev.slot i).block j) :
    dev'.entry i j = dev.entry i j := by
  unfold entry
  rw [hb]
  by_cases hj : j < recordsPerBlock
  · rw [hr hj]
  · rw [if_neg fun h => hj h.1, if_neg fun h => hj h.1]

end Device

/-- The directories of the device form a tree of names, and every live inode is a directory or
a regular file.  An orphan is live but named nowhere: a create has yet to name it, or an unlink
has yet to delete it. -/
structure TreeInv (dev : Device) (orphan : Nat → Prop) : Prop where
  wf : dev.graph.WF 0 orphan
  kind : ∀ i, dev.Live i → isDir (dev.slot i).mode = true ∨ isReg (dev.slot i).mode = true

namespace TreeInv

variable {dev dev' : Device} {imap : BitVec 64} {pend orphan orphan' : Nat → Prop}

/-! ## 2. Writes that change no name -/

/-- Numbers, modes and blocks of the slots and the records of the directories are the same. -/
theorem congr (h : TreeInv dev orphan)
    (hslot : ∀ i, i < 128 → (dev'.slot i).inodeNo = (dev.slot i).inodeNo ∧
      (dev'.slot i).mode = (dev.slot i).mode ∧ (dev'.slot i).block = (dev.slot i).block)
    (hrec : ∀ i j, dev.Live i → isDir (dev.slot i).mode = true → j < 15 →
      dev'.record (dev.slot i).block j = dev.record (dev.slot i).block j)
    (ho : ∀ k, orphan' k ↔ orphan k) : TreeInv dev' orphan' := by
  have hlive : ∀ i, dev'.Live i ↔ dev.Live i := fun i =>
    and_congr_right fun hi => by rw [(hslot i hi).1]
  have hsame : NameGraph.Same dev.graph dev'.graph :=
    { live := hlive
      dir := by
        intro i
        constructor
        · rintro ⟨hl, hd⟩
          rw [(hslot i hl.lt).2.1] at hd
          exact ⟨(hlive i).mp hl, hd⟩
        · rintro ⟨hl, hd⟩
          rw [← (hslot i hl.lt).2.1] at hd
          exact ⟨(hlive i).mpr hl, hd⟩
      entry := by
        intro i hi j
        exact Device.entry_congr (hslot i hi.1.lt).2.2 (hrec i j hi.1 hi.2) }
  refine ⟨h.wf.congr hsame ho, ?_⟩
  intro i hi
  rw [(hslot i hi.lt).2.1]
  exact h.kind i ((hlive i).mp hi)

/-- `simplefs_sb_get_a_freeblock`. -/
theorem setFreeBlocks (h : TreeInv dev orphan) (hs : StoreInv dev imap pend) (w : BitVec 64) :
    TreeInv (dev.setFreeBlocks w) orphan := by
  refine h.congr ?_ ?_ fun _ => Iff.rfl
  · intro i _
    rw [Device.slot_setFreeBlocks]
    exact ⟨rfl, rfl, rfl⟩
  · intro i j hi _ _
    exact Device.record_setFreeBlocks dev w j (by have := (hs.block i hi).1; omega)

/-- `simplefs_inode_save`. -/
theorem save (h : TreeInv dev orphan) (hs : StoreInv dev imap pend) {i : Nat} {v : SfsInode}
    (hi : i < 128) (hno : v.inodeNo = (dev.slot i).inodeNo) (hm : v.mode = (dev.slot i).mode)
    (hb : v.block = (dev.slot i).block) : TreeInv (dev.setSlot i v) orphan := by
  refine h.congr ?_ ?_ fun _ => Iff.rfl
  · intro k _
    rw [Device.slot_setSlot]
    split
    · rename_i hk
      rw [hno, hm, hb, hk]
      exact ⟨rfl, rfl, rfl⟩
    · exact ⟨rfl, rfl, rfl⟩
  · intro k j hk _ _
    exact Device.record_setSlot dev v j hi (hs.block k hk).1

/-- A write inside the block of a file reaches no directory. -/
theorem write_block (h : TreeInv dev orphan) (hs : StoreInv dev imap pend) {i lo hi : Nat}
    (hl : dev.Live i) (hf : isDir (dev.slot i).mode = false) (hagree : AgreeOff lo hi dev dev')
    (hlo : 4096 * (dev.slot i).block ≤ lo) (hhi : hi ≤ 4096 * (dev.slot i).block + 4096) :
    TreeInv dev' orphan := by
  have h2 := (hs.block i hl).1
  refine h.congr ?_ ?_ fun _ => Iff.rfl
  · intro k hk
    rw [Device.slot_congr hagree (by omega)]
    exact ⟨rfl, rfl, rfl⟩
  · intro k j hk hd hj
    have hne : (dev.slot k).block ≠ (dev.slot i).block := by
      intro heq
      rw [hs.block_inj k i hk hl heq, hf] at hd
      cases hd
    refine Device.record_congr hagree ?_
    rcases Nat.lt_or_gt_of_ne hne with hlt | hgt
    · right; omega
    · left; omega

/-! ## 3. Adding and deleting an inode -/

/-- **`simplefs_inode_add`**: the new inode is an orphan, and its block has no live record. -/
theorem add (h : TreeInv dev orphan) (hs : StoreInv dev imap pend) {i : Nat} {v : SfsInode}
    (hi : i < 63) (hdead : ¬ dev.Live i) (hno : v.inodeNo = inoOf i) (hb : pend v.block)
    (hm : isDir v.mode = true ∨ isReg v.mode = true) (ho : ∀ k, orphan' k ↔ k = i ∨ orphan k) :
    TreeInv (dev.addAt i v) orphan' := by
  obtain ⟨hb3, -, -, hbz⟩ := hs.pend _ hb
  have hv0 : v.inodeNo ≠ 0#64 := by rw [hno]; exact inoOf_ne_zero (by omega)
  have hlive := Device.live_addAt dev (show i < 128 by omega) hv0
  have hslot : ∀ k, k ≠ i → (dev.addAt i v).slot k = dev.slot k := by
    intro k hk
    rw [Device.slot_addAt, if_neg hk]
  have hself : (dev.addAt i v).slot i = v := by rw [Device.slot_addAt, if_pos rfl]
  have hsame :
      NameGraph.Same (dev.graph.addNode i (isDir v.mode = true)) (dev.addAt i v).graph := by
    constructor
    case live => exact hlive
    case dir =>
      intro k
      by_cases hk : k = i
      · subst hk
        simp only [NameGraph.addNode, Device.graph, if_true, hself]
        exact and_iff_right ((hlive k).mpr (Or.inl rfl))
      · simp only [NameGraph.addNode, Device.graph, if_neg hk, hslot k hk]
        exact and_congr_left fun _ => (hlive k).trans (or_iff_right hk)
    case entry =>
      intro k hk j
      by_cases hki : k = i
      · subst hki
        simp only [NameGraph.addNode, if_true]
        by_cases hj : j < 15
        · refine Device.entry_eq_none ?_
          rw [hself, Device.record_addAt dev v j (by omega) (by omega),
            Device.record_of_zeroBlock hbz hj, DirRecord.inodeNo_zero]
        · exact if_neg fun h => hj h.1
      · simp only [NameGraph.addNode, Device.graph, if_neg hki] at hk ⊢
        refine Device.entry_congr (by rw [hslot k hki]) fun _ => ?_
        exact Device.record_addAt dev v j (by omega) (hs.block k hk.1).1
  refine ⟨(h.wf.addNode hdead ho).congr hsame fun _ => Iff.rfl, ?_⟩
  intro k hk
  by_cases hki : k = i
  · rw [hki, hself]; exact hm
  · rw [hslot k hki]; exact h.kind k (((hlive k).mp hk).resolve_left hki)

/-- **`simplefs_inode_del`** of a file that nothing names any more. -/
theorem del (h : TreeInv dev orphan) (hs : StoreInv dev imap pend) {i : Nat} (hi : orphan i)
    (hf : isDir (dev.slot i).mode = false) (ho : ∀ k, orphan' k ↔ orphan k ∧ k ≠ i) :
    TreeInv (dev.delAt i) orphan' := by
  have hil : i < 128 := (h.wf.orphan_live i hi).1.1
  have hlive := Device.live_delAt dev i
  have hslot : ∀ k, k ≠ i → (dev.delAt i).slot k = dev.slot k := by
    intro k hk
    rw [Device.slot_delAt, if_neg hk]
  have hsame : NameGraph.Same (dev.graph.removeNode i) (dev.delAt i).graph := by
    constructor
    case live => exact hlive
    case dir =>
      intro k
      constructor
      · rintro ⟨hl, hd⟩
        obtain ⟨hki, hl⟩ := (hlive k).mp hl
        rw [hslot k hki] at hd
        exact ⟨hki, hl, hd⟩
      · rintro ⟨hki, hl, hd⟩
        rw [← hslot k hki] at hd
        exact ⟨(hlive k).mpr ⟨hki, hl⟩, hd⟩
    case entry =>
      rintro k ⟨hki, hk⟩ j
      refine Device.entry_congr (by rw [hslot k hki]) fun _ => ?_
      exact Device.record_delAt dev j hil (hs.block k hk.1).1
  have hdir : ¬ dev.graph.dir i := by
    rintro ⟨-, hd⟩
    rw [hf] at hd
    cases hd
  refine ⟨(h.wf.removeNode hi hdir ho).congr hsame fun _ => Iff.rfl, ?_⟩
  intro k hk
  obtain ⟨hki, hk⟩ := (hlive k).mp hk
  rw [hslot k hki]
  exact h.kind k hk

/-! ## 4. Adding and removing a record -/

/-- A change of record `j` of directory `d`'s block, and of nothing else on the device that a
directory or a slot is read from, is a change of one entry. -/
theorem same_setEntry (hs : StoreInv dev imap pend) {d j : Nat} {e : Option (List UInt8 × Nat)}
    (hd : dev.graph.dir d) (hslot : ∀ i, i < 128 → dev'.slot i = dev.slot i)
    (hrec : ∀ b i, 2 ≤ b → i < 15 → ¬ (b = (dev.slot d).block ∧ i = j) →
      dev'.record b i = dev.record b i)
    (he : dev'.entry d j = e) : NameGraph.Same (dev.graph.setEntry d j e) dev'.graph := by
  have hlive : ∀ i, dev'.Live i ↔ dev.Live i := fun i =>
    and_congr_right fun hi => by rw [hslot i hi]
  constructor
  case live => exact hlive
  case dir =>
    intro i
    constructor
    · rintro ⟨hl, hm⟩
      rw [hslot i hl.lt] at hm
      exact ⟨(hlive i).mp hl, hm⟩
    · rintro ⟨hl, hm⟩
      rw [← hslot i hl.lt] at hm
      exact ⟨(hlive i).mpr hl, hm⟩
  case entry =>
    rintro n ⟨hn, -⟩ i
    simp only [NameGraph.setEntry]
    split
    · rename_i heq
      rw [heq.1, heq.2]
      exact he
    · rename_i hne
      refine Device.entry_congr (by rw [hslot n hn.lt]) fun hi => ?_
      refine hrec _ i (hs.block n hn).1 hi fun heq => hne ⟨?_, heq.2⟩
      exact hs.block_inj n d hn hd.1 heq.1

/-- **`create`'s record**: an orphan gets its name. -/
theorem putRecord (h : TreeInv dev orphan) (hs : StoreInv dev imap pend) {d j k : Nat}
    {name : List UInt8} (hd : dev.graph.dir d) (hj : j < 15)
    (hfree : (dev.record (dev.slot d).block j).inodeNo = 0#64) (hk : orphan k)
    (hn : name.length ≤ 255) (h0 : 0 ∉ name)
    (hnew : ∀ i, i < 15 → (dev.record (dev.slot d).block i).inodeNo ≠ 0#64 →
      (dev.record (dev.slot d).block i).filename ≠ name)
    (ho : ∀ n, orphan' n ↔ orphan n ∧ n ≠ k) :
    TreeInv (dev.putRecord (dev.slot d).block j (inoOf k) name) orphan' := by
  have hb2 := (hs.block d hd.1).1
  have hk128 : k < 128 := (h.wf.orphan_live k hk).1.1
  have hn263 : name.length ≤ 263 := by omega
  have hslot : ∀ i, i < 128 →
      (dev.putRecord (dev.slot d).block j (inoOf k) name).slot i = dev.slot i := fun i hi =>
    Device.slot_congr (Device.agreeOff_putRecord dev _ j _ hn263) (by omega)
  have hentry : (dev.putRecord (dev.slot d).block j (inoOf k) name).entry d j = some (name, k) := by
    have hino := Device.inodeNo_putRecord dev (dev.slot d).block j (inoOf k) hn
    have hname := Device.filename_putRecord dev (dev.slot d).block j (inoOf k) hn263 h0
    rw [← hslot d hd.1.lt] at hino hname
    rw [Device.entry_eq_some hj rfl (by
      rw [hslot d hd.1.lt] at hino ⊢
      rw [hino]
      exact inoOf_ne_zero hk128)]
    rw [hslot d hd.1.lt] at hino hname ⊢
    rw [hino, hname, slotIndex_inoOf hk128]
  have hsame := same_setEntry hs hd hslot (fun b i _ hi hne =>
    Device.record_putRecord_ne dev (inoOf k) hn263 hj hi hne) hentry
  refine ⟨(h.wf.link hd (Device.entry_eq_none hfree) ?_ hk ho).congr hsame fun _ => Iff.rfl, ?_⟩
  · intro i n he
    obtain ⟨hi, hne, hname, -⟩ := Device.of_entry_eq_some he
    exact hnew i hi hne hname
  · intro i hi
    have hi' := hi.lt
    rw [hslot i hi']
    exact h.kind i ((hsame.live i).mp hi)

/-- **`unlink`'s record**: what it named becomes an orphan. -/
theorem clearRecord (h : TreeInv dev orphan) (hs : StoreInv dev imap pend) {d j k : Nat}
    (hn : dev.graph.Names d j k) (ho : ∀ n, orphan' n ↔ n = k ∨ orphan n) :
    TreeInv (dev.clearRecord (dev.slot d).block j) orphan' := by
  have hd := hn.1
  have hb2 := (hs.block d hd.1).1
  have hj : j < 15 := by
    obtain ⟨-, l, he⟩ := hn
    exact (Device.of_entry_eq_some he).1
  have hslot : ∀ i, i < 128 → (dev.clearRecord (dev.slot d).block j).slot i = dev.slot i :=
    fun i hi => Device.slot_congr (Device.agreeOff_clearRecord dev _ j) (by omega)
  have hentry : (dev.clearRecord (dev.slot d).block j).entry d j = none := by
    refine Device.entry_eq_none ?_
    rw [hslot d hd.1.lt, Device.record_clearRecord dev hj hj, if_pos ⟨rfl, rfl⟩,
      DirRecord.inodeNo_zero]
  have hsame := same_setEntry hs hd hslot (fun b i _ hi hne => by
    rw [Device.record_clearRecord dev hj hi, if_neg hne]) hentry
  refine ⟨(h.wf.drop hn ho).congr hsame fun _ => Iff.rfl, ?_⟩
  intro i hi
  rw [hslot i hi.lt]
  exact h.kind i ((hsame.live i).mp hi)

end TreeInv

end Simplefs
