/-
# What a power failure leaves of the tree

simplefs has no journal, but it writes in an order.  Each function syncs the block that it has
changed before it goes on, except that `simplefs_inode_add` and `simplefs_inode_del` sync the
superblock and leave the inode store dirty.  So an unlink takes the name from the device before it
takes the inode, and a create puts the name there before it is sure that the inode is.

Here this is followed through each uninterrupted call of the cases the source handles, the kernel
writing back what it likes: between two calls the device holds the tree that is in memory, and in
the middle of one it shows the tree from before it or the one from after it, except that the slot
of the inode that a create makes may still have what was there before, and that a file that is
written may still have its old size (`Op.Leaves`).
-/
import Simplefs.Accounts
import Simplefs.WriteBacks

namespace Simplefs

open Prog (LockState Steady)

/-! ## 1. An unlink -/

section Unlink

variable {torn : Nat → Prop} {fs : Fs} {c : Buf} {e : Nat} {x y : Dentry} {cache : DirCache}
  {entry : CacheEntry}

/-- The record is cleared in the directory's block. -/
theorem Fs.Unlinkable.agreeOff (h15 : entry.entryNo < 15) :
    AgreeOff (4096 * x.inode.block) (4096 * x.inode.block + 4096) fs.dev
      (fs.unrecorded y.parent x cache entry).dev := fun a ha =>
  Device.agreeOff_clearRecord fs.dev x.inode.block entry.entryNo a (by omega)

/-- What is alive after it was alive before. -/
theorem Fs.Unlinkable.was_live (hu : fs.Unlinkable e y x cache) (hi : FsInv fs Shadow.none)
    (h15 : entry.entryNo < 15) {k : Nat} (hk : (fs.unlinked e y x cache entry).dev.Live k) :
    fs.dev.Live k ∧ k ≠ y.slot := by
  have hslot := hu.slot_unlinked hi h15 hk.lt
  by_cases hky : k = y.slot
  · rw [if_pos hky] at hslot
    exact absurd (congrArg SfsInode.inodeNo hslot) hk.2
  · rw [if_neg hky] at hslot
    refine ⟨?_, hky⟩
    by_cases hkx : k = x.slot
    · exact hkx ▸ (hi.dir hu.dir).1.1
    · rw [if_neg hkx] at hslot
      exact (Device.live_congr hslot).mp hk

/-- The directory stays, with one child less. -/
theorem Fs.Unlinkable.slot_dir (hu : fs.Unlinkable e y x cache) (hi : FsInv fs Shadow.none)
    (h15 : entry.entryNo < 15) :
    (fs.unlinked e y x cache entry).dev.slot x.slot = (x.without cache entry).inode ∧
      (fs.unlinked e y x cache entry).dev.Live x.slot := by
  have hslot := hu.slot_unlinked hi h15 (hu.lt_slots hi).1
  rw [if_neg (Ne.symm (hu.slot_ne hi)), if_pos rfl] at hslot
  refine ⟨hslot, (hu.lt_slots hi).1, ?_⟩
  rw [hslot]
  change x.inode.inodeNo ≠ 0#64
  rw [hi.inodeNo_eq (hi.current_of_dirAt hu.dir)]
  exact inoOf_ne_zero (hu.lt_slots hi).1

/-- **What may have been in a slot may be there afterwards.** -/
theorem Fs.Unlinkable.slots (hu : fs.Unlinkable e y x cache) (hi : FsInv fs Shadow.none)
    (h15 : entry.entryNo < 15) {k : Nat} (hk : k < slotsPerBlock) {v : SfsInode}
    (hv : fs.dev.Slots k v) : (fs.unlinked e y x cache entry).dev.Slots k v := by
  have hslot := hu.slot_unlinked hi h15 hk
  by_cases hky : k = y.slot
  · -- the file
    obtain ⟨hyl, -, hsame⟩ := hi.live e y hu.cur
    refine ⟨fun hl => absurd hky (hu.was_live hi h15 hl).2, fun _ => ?_⟩
    rw [hky] at hv
    rw [(hv.1 hyl).same.mode, ← hsame.mode, hu.file]
  rw [if_neg hky] at hslot
  by_cases hkx : k = x.slot
  · -- its directory
    obtain ⟨hx, hxl⟩ := hu.slot_dir hi h15
    subst hkx
    refine ⟨fun _ => ?_, fun hdead => absurd hxl hdead⟩
    refine (hv.1 (hi.dir hu.dir).1.1).trans ?_
    rw [hx, hi.clean _ x (hi.current_of_dirAt hu.dir) id]
    have hdir : isDir (x.without cache entry).inode.mode = true := hu.dir.2.2
    exact ⟨⟨rfl, rfl, rfl⟩, fun hf => by rw [hdir] at hf; cases hf⟩
  · rw [if_neg hkx] at hslot
    have hl : (fs.unlinked e y x cache entry).dev.Live k ↔ fs.dev.Live k := Device.live_congr hslot
    rw [Device.Slots, hl, hslot]
    exact hv

/-- The slots are such on the way, whether the directory has been saved or not ... -/
theorem Fs.Unlinkable.slots_record (hu : fs.Unlinkable e y x cache) (hi : FsInv fs Shadow.none)
    (h15 : entry.entryNo < 15) (hplain : fs.dev.Plain) (saved : Bool) {k : Nat}
    (hk : k < slotsPerBlock) : (fs.unlinked e y x cache entry).dev.Slots k
      ((fs.unlinkedRecord y.parent x cache entry saved).dev.slot k) := by
  rw [hu.slot_unlinkedRecord hi h15 saved hk]
  split
  · rename_i h
    obtain ⟨hx, hxl⟩ := hu.slot_dir hi h15
    rw [h.2]
    refine ⟨fun _ => ?_, fun hdead => absurd hxl hdead⟩
    rw [hx]
    exact .refl _
  · exact hu.slots hi h15 hk (hplain k hk)

/-- ... and at the end. -/
theorem Fs.Unlinkable.plain (hu : fs.Unlinkable e y x cache) (hi : FsInv fs Shadow.none)
    (h15 : entry.entryNo < 15) (hplain : fs.dev.Plain) :
    (fs.unlinked e y x cache entry).dev.Plain := by
  intro k hk
  refine ⟨fun _ => .refl _, fun hdead => ?_⟩
  by_cases hky : k = y.slot
  · rw [hu.slot_unlinked hi h15 hk, if_pos hky]
    rfl
  · have hrec := (hu.slots_record hi h15 hplain true hk).2 hdead
    rw [hu.slot_unlinkedRecord hi h15 true hk] at hrec
    rw [hu.slot_unlinked hi h15 hk, if_neg hky]
    simpa using hrec

/-- What is left of it is already there once the record is gone. -/
theorem Fs.Unlinkable.holds (hu : fs.Unlinkable e y x cache) (hi : FsInv fs Shadow.none)
    (h15 : entry.entryNo < 15) (hplain : fs.dev.Plain) (saved : Bool) :
    Device.Holds torn (fs.unlinked e y x cache entry).dev.Slots
      (fs.unlinkedRecord y.parent x cache entry saved).dev
      (fs.unlinked e y x cache entry).dev := by
  obtain ⟨hx128, hy128⟩ := hu.lt_slots hi
  refine ⟨fun b h2 _ => ?_, fun k hk => hu.slots_record hi h15 hplain saved hk⟩
  change _ = ((fs.unlinkedRecord y.parent x cache entry true).dev.delAt y.slot).blocks b
  rw [Device.blocks_delAt _ hy128 h2]
  cases saved with
  | true => rfl
  | false => exact (Device.blocks_setSlot _ _ hx128 (by omega)).symm

/-- The deletion of its inode. -/
theorem Fs.Unlinkable.delInode (hu : fs.Unlinkable e y x cache) (hi : FsInv fs Shadow.none)
    (fs' : Fs) : Simplefs.delInode y.inode.inodeNo fs' = .ok ((), fs'.deleted y.slot) := by
  obtain ⟨hyl, -, -⟩ := hi.live e y hu.cur
  rw [hi.inodeNo_eq hu.cur, delInode_eq (hi.store.slots _ hyl).2]
  rfl

/-- The pieces of an unlink and its syncs: the record is gone in `u1`, the inode of the directory
saved in `u2`, and that of the file gone in `u3`.  What is left to see is already there in `u1`. -/
theorem Buf.wpc_unlink_synced {C : Buf → Prop} {u1 u2 u3 : Fs} {r : Nat × BitVec 64} {B : Nat}
    {S S1 : Nat → SfsInode → Prop} (hB : Buf.parentBlock c.mem e = B)
    (hrecord : removeRecord e c.mem = .ok (r, u1)) (hsave : saveInode r.1 u1 = .ok (true, u2))
    (hdel : delInode r.2 u2 = .ok ((), u3)) (hy : u3.dentries e = some y)
    (h1 : u1.dev.blocks 0 = c.mem.dev.blocks 0 ∧ u1.dev.blocks 1 = c.mem.dev.blocks 1)
    (h2 : u2.dev.blocks 0 = u1.dev.blocks 0)
    (hstart : ∀ k, k < slotsPerBlock → S k (c.mem.dev.slot k))
    (hpend : Device.Holds (fun b => torn b ∨ b = B) S u1.dev c.mem.dev)
    (hunrec : Device.Holds torn S1 u1.dev u3.dev) (hsaved : Device.Holds torn S1 u2.dev u3.dev)
    (hgone : ∀ k, k < slotsPerBlock → S1 k (u3.dev.slot k))
    (hS : ∀ k v, k < slotsPerBlock → S k v → S1 k v)
    (hbefore : ∀ c' : Buf, Device.Holds torn S c'.device c.mem.dev → C c')
    (hafter : ∀ c' : Buf, Device.Holds torn S1 c'.device u3.dev → C c')
    (hd : Device.Holds torn S c.device c.mem.dev) (hup : c.Up) :
    Buf.wpc quiet C (Buf.vfsUnlink e) (fun _ => Buf.At
      (fun s => s = u3.setDentry e { y with linked := false }) torn S1 u3.dev Buf.Up) c := by
  have hgone' : ∀ s : Fs, s.dev = u3.dev → Device.Holds torn S1 s.dev u3.dev := fun s h => by
    rw [h]
    exact .of_slots hgone
  have hpend' : ∀ r', ∀ s, s = u1 ∧ r' = r →
      Device.Holds (fun b => torn b ∨ b = B) S s.dev c.mem.dev := fun r' s h => by
    rw [h.1]
    exact hpend
  have hunrec' : ∀ r', ∀ s, s = u1 ∧ r' = r → Device.Holds torn S1 s.dev u3.dev := fun r' s h => by
    rw [h.1]
    exact hunrec
  have hsaved' : ∀ r', ∀ s, s = u2 ∧ r' = r → Device.Holds torn S1 s.dev u3.dev := fun r' s h => by
    rw [h.1]
    exact hsaved
  refine Prog.wpc_mono (Buf.wpc_unlink
    (P := Buf.At (fun s => s = c.mem) torn S c.mem.dev Buf.Up)
    (A := fun r' => Buf.Between (fun s => s = u1 ∧ r' = r) torn S S1 c.mem.dev u3.dev Buf.Up)
    (B := fun r' => Buf.At (fun s => s = u1 ∧ r' = r) torn S1 u3.dev Buf.Up)
    (D := fun r' => Buf.At (fun s => s = u2 ∧ r' = r) torn S1 u3.dev (Buf.Due 0))
    (E := fun r' => Buf.At (fun s => s = u2 ∧ r' = r) torn S1 u3.dev Buf.Up)
    (F := fun r' => Buf.At (fun s => s = u3 ∧ r' = r) torn S1 u3.dev fun _ => True)
    (G := fun r' => Buf.At (fun s => s = u3 ∧ r' = r) torn S1 u3.dev Buf.Up)
    (R := Buf.At (fun s => s = u3.setDentry e { y with linked := false }) torn S1 u3.dev Buf.Up)
    (Buf.safe_at Buf.steady_up (fun s h => by rw [h]; exact .of_slots hstart) hbefore)
    (fun r' => Buf.safe_pending Buf.steady_up (hpend' r') (hunrec' r') hS hbefore hafter)
    (fun r' => Buf.safe_at Buf.steady_up (hunrec' r') hafter)
    (fun r' => Buf.safe_at (Prog.Steady.due _ 0) (hsaved' r') hafter)
    (fun r' => Buf.safe_at Buf.steady_up (hsaved' r') hafter)
    (fun r' => Buf.safe_at Buf.steady_true (fun s h => hgone' s (congrArg Fs.dev h.1)) hafter)
    (fun r' => Buf.safe_at Buf.steady_up (fun s h => hgone' s (congrArg Fs.dev h.1)) hafter)
    (Buf.safe_at Buf.steady_up (fun s h => hgone' s (by rw [h]; rfl)) hafter)
    (fun _ _ => trivial) trivial ⟨⟨rfl, hd⟩, hup⟩ (fun c' h => h.1.1)
    ?_ ?_ ?_ (fun _ _ hc' => hc'.saved) ?_ ?_ (fun _ _ hc' => hc'.synced) ?_ ?_)
    (fun _ h => h) fun _ _ h => h
  · intro c' r' s hc' hr
    rw [hrecord] at hr
    cases hr
    exact hc'.change ⟨rfl, rfl⟩ fun _ hu => by rw [hu]; exact h1
  · intro r' c' hc' hset
    rw [hB] at hset
    exact hc'.synced hset (hpend' r') (hunrec' r') hS
  · intro r' c' s hc' hr
    obtain ⟨hm, rfl⟩ := hc'.1.1
    rw [hm, hsave] at hr
    cases hr
    exact hc'.save ⟨rfl, rfl⟩ fun _ hu => by rw [hu.1]; exact h2
  · rintro r' c' hc' (hf | hf)
    · cases hf
    · obtain ⟨hm, rfl⟩ := hc'.1.1
      rw [hm, hsave] at hf
      cases hf
  · rintro r' c' s ⟨⟨⟨hm, rfl⟩, hd'⟩, -⟩ hr
    rw [hm, hdel] at hr
    cases hr
    exact ⟨⟨⟨rfl, rfl⟩, hd'⟩, trivial⟩
  · rintro r' c' - (hf | hf) <;> cases hf
  · intro r' c' y' hc' hy'
    have hm := hc'.1.1.1
    rw [hm, hy] at hy'
    cases hy'
    exact hc'.step (by rw [hm]) fun _ hu => by rw [hu.1, hm]; exact ⟨rfl, rfl⟩

/-- **An unlink**: the name goes from the device before the inode does. -/
theorem Fs.Unlinkable.kept (hu : fs.Unlinkable e y x cache) (hi : FsInv fs Shadow.none)
    (hget : usedCacheEntryGet cache y.name = some entry) (h15 : entry.entryNo < 15)
    (hi' : FsInv (fs.unlinked e y x cache entry) Shadow.none) (hplain : fs.dev.Plain)
    (hm : c.mem = fs) (hk : c.Kept torn) :
    Buf.wpc quiet
      (fun c' => (Op.unlink e).Leaves torn fs (fs.unlinked e y x cache entry) c'.device)
      (Buf.vfsUnlink e) (fun _ c' => c'.mem = fs.unlinked e y x cache entry ∧ c'.Kept torn) c := by
  subst hm
  have hpar : e ≠ y.parent := by
    intro he
    exact hu.slot_ne hi (by rw [Option.some.inj (hu.cur.1.symm.trans (he ▸ hu.dir.1))])
  have hy : ((c.mem.unlinkedRecord y.parent x cache entry true).deleted y.slot).dentries e =
      some y := (Fs.setDentry_dentries _ _ _ _).trans ((if_neg hpar).trans hu.cur.1)
  have hagree : AgreeOff (4096 * x.inode.block) (4096 * x.inode.block + 4096) c.mem.dev
      (c.mem.unrecorded y.parent x cache entry).dev := Fs.Unlinkable.agreeOff h15
  have hB := hu.two_le_block hi
  have hblock : Buf.parentBlock c.mem e = x.inode.block := by
    simp only [Buf.parentBlock, Buf.dataBlock, hu.cur.1, hu.dir.1]
  have hafter : ∀ d : Device, Device.Holds torn (c.mem.unlinked e y x cache entry).dev.Slots d
      (c.mem.unlinked e y x cache entry).dev →
      (Op.unlink e).Leaves torn c.mem (c.mem.unlinked e y x cache entry) d := fun d h =>
    .after ((hi'.shows_kept h).mono (fun _ => id) fun _ hl => hl.2)
      fun i hl hno => absurd (hu.was_live hi h15 hl).1 hno
  refine Prog.wpc_mono (Buf.wpc_unlink_synced hblock (removeRecord_eq (hu.hasEntryOf hi hget))
    (hu.saveInode hi hget) (hu.delInode hi _) hy (Device.blocks_zero_one hB hagree)
    (Device.blocks_setSlot _ _ (hu.lt_slots hi).1 (by decide)) hplain
    (Device.holds_of_agreeOff hB hagree hplain) (hu.holds hi h15 hplain false)
    (hu.holds hi h15 hplain true) (hu.plain hi h15 hplain)
    (fun k v hk => hu.slots hi h15 hk) (fun _ => hi.leaves_before _ _) (fun _ => hafter _)
    hk.1 hk.2) (fun _ h => h) ?_
  rintro _ c' ⟨⟨hm, hd⟩, hup⟩
  exact ⟨hm, by rw [hm]; exact hd, hup⟩

end Unlink

/-! ## 2. A create -/

section Create

variable {C : Buf → Prop} {torn : Nat → Prop} {S : Nat → SfsInode → Prop} {fs : Fs} {c : Buf}
  {p i b : Nat} {x : Dentry} {cache : DirCache} {entry : CacheEntry} {name : Name}
  {mode : BitVec 16}

/-- In the middle of a call a slot may have what it had before or what it has afterwards. -/
def Device.Either (dev dev' : Device) (i : Nat) (v : SfsInode) : Prop :=
  dev.Slots i v ∨ dev'.Slots i v

theorem Fs.blocks_taken (fs : Fs) (b : Nat) {b' : Nat} (hb : 1 ≤ b') :
    (fs.taken b).dev.blocks b' = fs.dev.blocks b' :=
  Device.blocks_congr (Device.agreeOff_setFreeBlocks fs.dev _) (by omega)

/-- The block is taken, and nothing that was there is touched ... -/
theorem Fs.holds_taken (hplain : fs.dev.Plain) (b : Nat) :
    Device.Holds torn fs.dev.Slots (fs.taken b).dev fs.dev := by
  refine ⟨fun b' h2 _ => fs.blocks_taken b (by omega), fun k hk => ?_⟩
  rw [Fs.taken, Device.slot_setFreeBlocks]
  exact hplain k hk

/-- The pieces of the end of a create and its two syncs: the record in `u1`, the number of children
in `u2` and the saved inode of the directory in `u3`.  Until the first sync is done the device may
still be `dev`. -/
theorem Buf.wpc_createTail_synced {u1 u2 u3 : Fs} {v : SfsInode} {dev : Device} {B : Nat}
    {S3 : Nat → SfsInode → Prop} (hB : Buf.dataBlock c.mem p = B)
    (hrecord : addRecord p name v.inodeNo c.mem = .ok ((), u1))
    (hcount : countChild p u1 = .ok ((), u2)) (hsave : saveInode p u2 = .ok (true, u3))
    (h1 : u1.dev.blocks 0 = c.mem.dev.blocks 0 ∧ u1.dev.blocks 1 = c.mem.dev.blocks 1)
    (h2 : u2.dev = u1.dev) (h3 : u3.dev.blocks 0 = u2.dev.blocks 0)
    (hstart : Device.Holds torn S c.mem.dev dev)
    (hpend : Device.Holds (fun b => torn b ∨ b = B) S u1.dev dev)
    (hrec : Device.Holds torn S u1.dev u3.dev)
    (hS : ∀ k v, k < slotsPerBlock → S3 k v → S k v)
    (hslots3 : ∀ k, k < slotsPerBlock → S3 k (u3.dev.slot k))
    (hC : ∀ c' : Buf, Device.Holds torn S c'.device dev → C c')
    (hC' : ∀ c' : Buf, Device.Holds torn S c'.device u3.dev → C c')
    (hd : Device.Holds torn S c.device dev) (hup : c.Up) :
    Buf.wpc quiet C (Buf.createTail p name v)
      (fun _ => Buf.At (fun s => s = u3.dAdd p name v) torn S3 u3.dev Buf.Up) c := by
  have hpend' : ∀ s, s = u1 → Device.Holds (fun b => torn b ∨ b = B) S s.dev dev :=
    fun s h => by rw [h]; exact hpend
  have hrec' : ∀ s : Fs, s.dev = u1.dev → Device.Holds torn S s.dev u3.dev :=
    fun s h => by rw [h]; exact hrec
  have hend : ∀ s : Fs, s.dev = u3.dev → Device.Holds torn S3 s.dev u3.dev := fun s h => by
    rw [h]
    exact .of_slots hslots3
  have hnew : ∀ c' : Buf, Device.Holds torn S3 c'.device u3.dev → C c' := fun c' h =>
    hC' c' (h.mono (fun _ => id) hS)
  refine Prog.wpc_mono (Buf.wpc_createTail
    (A := Buf.At (fun s => s = c.mem) torn S dev Buf.Up)
    (B := Buf.Between (fun s => s = u1) torn S S dev u3.dev Buf.Up)
    (D := Buf.At (fun s => s = u1) torn S u3.dev Buf.Up)
    (E := Buf.At (fun s => s = u2) torn S u3.dev Buf.Up)
    (G := Buf.At (fun s => s = u3) torn S u3.dev (Buf.Due 0))
    (H := Buf.At (fun s => s = u3) torn S3 u3.dev Buf.Up)
    (F := fun _ => False)
    (R := Buf.At (fun s => s = u3.dAdd p name v) torn S3 u3.dev Buf.Up)
    (Buf.safe_at Buf.steady_up (fun s h => by rw [h]; exact hstart) hC)
    (Buf.safe_pending Buf.steady_up hpend' (fun s h => hrec' s (congrArg Fs.dev h))
      (fun _ _ _ => id) hC hC')
    (Buf.safe_at Buf.steady_up (fun s h => hrec' s (congrArg Fs.dev h)) hC')
    (Buf.safe_at Buf.steady_up (fun s h => hrec' s ((congrArg Fs.dev h).trans h2)) hC')
    (Buf.safe_at (Prog.Steady.due _ 0)
      (fun s h => (hend s (congrArg Fs.dev h)).mono (fun _ => id) hS) hC')
    (Buf.safe_at Buf.steady_up (fun s h => hend s (congrArg Fs.dev h)) hnew) Buf.safe_false
    (Buf.safe_at Buf.steady_up (fun s h => hend s (by rw [h]; rfl)) hnew)
    (fun _ _ => trivial) trivial ⟨⟨rfl, hd⟩, hup⟩ (fun c' h => h.1.1) ?_ ?_ ?_ ?_ ?_ ?_ ?_)
    (fun _ h => h) ?_
  · intro c' s hc' hr
    rw [hrecord] at hr
    cases hr
    exact hc'.change rfl fun _ hu => by rw [hu]; exact h1
  · intro c' hc' hset
    rw [hB] at hset
    exact hc'.synced hset hpend' (fun s h => hrec' s (congrArg Fs.dev h)) fun _ _ _ => id
  · intro c' s hc' hr
    rw [hc'.1.1, hcount] at hr
    cases hr
    exact hc'.step rfl fun _ hu => by rw [hu, h2]; exact ⟨rfl, rfl⟩
  · intro c' s hc' hr
    rw [hc'.1.1, hsave] at hr
    cases hr
    exact hc'.save rfl fun _ hu => by rw [hu]; exact h3
  · -- the store is synced, and with it the new inode
    rintro c' ⟨⟨hm, hd'⟩, hdue⟩ hset
    exact ⟨⟨hm, Buf.settle_slots hd' hset (by rw [hm]; exact hslots3)⟩, hdue, Or.inr hset⟩
  · rintro c' ⟨⟨hm, -⟩, -⟩ (hf | hf)
    · cases hf
    · rw [hm, hsave] at hf
      cases hf
  · rintro c' ⟨⟨hm, hd'⟩, hup'⟩
    exact ⟨⟨by rw [hm], hd'⟩, hup'⟩
  · rintro ret c' (⟨-, hf⟩ | hf | ⟨-, hc'⟩)
    · cases hf
    · exact hf.elim
    · exact hc'

namespace Fs.SoundAt

variable (hs : fs.SoundAt p x cache) (hp : Picked fs cache name i b entry)
  (hdir : isDir x.inode.mode = true) (hl : fs.dev.Live x.slot) (hplain : fs.dev.Plain)

include hs hp hl

theorem slot_new (mode : BitVec 16) :
    (created fs p x cache entry name mode i b).dev.slot i = newInode mode (i + 1) b ∧
      (created fs p x cache entry name mode i b).dev.Live i := by
  have hlt := hs.room_of_keeps hp.entry hp.keeps
  have hi : i < 128 := by
    have := hp.lt
    omega
  have hslot : (created fs p x cache entry name mode i b).dev.slot i = _ := hs.slot_created hlt hi
  rw [if_neg fun h : i = x.slot => hp.dead (h ▸ hl), if_pos rfl] at hslot
  refine ⟨hslot, hi, ?_⟩
  rw [hslot]
  exact inoOf_ne_zero hi

/-- What was alive stays alive, and the directory is the same directory. -/
theorem sameFile_created (hdir : isDir x.inode.mode = true) (mode : BitVec 16) {k : Nat}
    (hk : fs.dev.Live k) :
    ((created fs p x cache entry name mode i b).dev.slot k).SameFile (fs.dev.slot k) := by
  rw [hs.slot_created (hs.room_of_keeps hp.entry hp.keeps) hk.lt]
  split
  · rename_i hkx
    rw [hkx, hs.disk hl]
    exact ⟨⟨rfl, rfl, rfl⟩, fun hf => by rw [hdir] at hf; cases hf⟩
  · rw [if_neg fun hki : k = i => hp.dead (hki ▸ hk)]
    exact .refl _

omit hl in
/-- In the slots there is one inode more. -/
theorem slots_created (mode : BitVec 16) {k : Nat} (hk : k < slotsPerBlock)
    (hkx : k ≠ x.slot) (hki : k ≠ i) :
    (created fs p x cache entry name mode i b).dev.slot k = fs.dev.slot k := by
  rw [hs.slot_created (hs.room_of_keeps hp.entry hp.keeps) hk, if_neg hkx, if_neg hki]

include hplain

theorem plain_created (hdir : isDir x.inode.mode = true) (mode : BitVec 16) :
    (created fs p x cache entry name mode i b).dev.Plain := by
  intro k hk
  refine ⟨fun _ => .refl _, fun hdead => ?_⟩
  have hki : k ≠ i := fun h => hdead (by rw [h]; exact (hs.slot_new hp hl mode).2)
  have hkl : ¬ fs.dev.Live k := fun h => hdead
    ((Device.live_congr_no (hs.sameFile_created hp hl hdir mode h).same.inodeNo).mpr h)
  rw [hs.slots_created hp mode hk (fun h => hkl (h ▸ hl)) hki]
  exact (hplain k hk).2 hkl

/-- The inode is in its slot ... -/
theorem slots_added (mode : BitVec 16) {k : Nat} (hk : k < slotsPerBlock) :
    fs.dev.Either (created fs p x cache entry name mode i b).dev k
      ((fs.added mode i b).dev.slot k) := by
  rw [slot_added]
  split
  · rename_i hki
    obtain ⟨hnew, hlive⟩ := hs.slot_new hp hl mode
    rw [hki]
    refine Or.inr ⟨fun _ => ?_, fun hdead => absurd hlive hdead⟩
    rw [hnew]
    exact .refl _
  · exact Or.inl (hplain k hk)

theorem holds_added (mode : BitVec 16) :
    Device.Holds torn (fs.dev.Either (created fs p x cache entry name mode i b).dev)
      (fs.added mode i b).dev fs.dev := by
  have hi : i < 128 := by
    have := hp.lt
    omega
  exact ⟨fun b' h2 _ => (Device.blocks_addAt _ _ hi h2).trans (fs.blocks_taken b (by omega)),
    fun k => hs.slots_added hp hl hplain mode⟩

omit hl hplain in
/-- ... and then the record is written in the directory's block. -/
theorem agreeOff_recorded (mode : BitVec 16) :
    AgreeOff (4096 * x.inode.block) (4096 * x.inode.block + 4096) (fs.added mode i b).dev
      ((fs.added mode i b).recorded p x cache entry name (inoOf i)).dev :=
  have hlt := hs.room_of_keeps hp.entry hp.keeps
  Device.agreeOff_putRecord_block (fs.added mode i b).dev x.inode.block (inoOf i) hlt.1 hlt.2

theorem holds_pending (mode : BitVec 16) :
    Device.Holds (fun b => torn b ∨ b = x.inode.block)
      (fs.dev.Either (created fs p x cache entry name mode i b).dev)
      ((fs.added mode i b).recorded p x cache entry name (inoOf i)).dev fs.dev :=
  (Device.holds_of_agreeOff hs.block.1 (hs.agreeOff_recorded hp mode)
    fun _ => hs.slots_added hp hl hplain mode).trans (hs.holds_added hp hl hplain mode)

/-- From there on only the inodes are missing. -/
theorem holds_recorded (mode : BitVec 16) :
    Device.Holds torn (fs.dev.Either (created fs p x cache entry name mode i b).dev)
      ((fs.added mode i b).recorded p x cache entry name (inoOf i)).dev
      (created fs p x cache entry name mode i b).dev :=
  have hpend : Device.Holds (fun b => False ∨ b = x.inode.block) _ _ _ :=
    hs.holds_pending hp hl hplain mode
  ⟨fun b' h2 _ => (Device.blocks_setSlot _ _ hs.number.1 (by omega)).symm, hpend.slot⟩

omit hplain in
/-- The parent's inode is found. -/
theorem saveInode_created (mode : BitVec 16) :
    saveInode p ((fs.added mode i b).counted p x cache entry name (inoOf i)) =
      .ok (true, { (fs.added mode i b).counted p x cache entry name (inoOf i) with
        dev := ((fs.added mode i b).counted p x cache entry name (inoOf i)).dev.setSlot x.slot
          { x.inode with fileSize := x.inode.fileSize + 1 } }) := by
  have h := hs.saveInode_counted mode b (inoOf i) hp.lt (hs.room_of_keeps hp.entry hp.keeps)
  cases hsave : saveInode p ((fs.added mode i b).counted p x cache entry name (inoOf i)) with
  | error err =>
    rw [hsave] at h
    exact absurd hl h
  | ok r =>
    obtain ⟨_ | _, fs'⟩ := r
    · rw [hsave] at h
      exact absurd hl h
    · rw [hsave] at h
      rw [h.2]

include hdir

/-- The end of a create: once the store is synced the device has its inode too. -/
theorem wpc_tail
    (hC : ∀ c' : Buf, Device.Holds torn
      (fs.dev.Either (created fs p x cache entry name mode i b).dev) c'.device fs.dev → C c')
    (hC' : ∀ c' : Buf, Device.Holds torn
      (fs.dev.Either (created fs p x cache entry name mode i b).dev) c'.device
      (created fs p x cache entry name mode i b).dev → C c')
    (hA : c.At (fun s => s = fs.added mode i b) torn
      (fs.dev.Either (created fs p x cache entry name mode i b).dev) fs.dev Buf.Up) :
    Buf.wpc quiet C (Buf.createTail p name (newInode mode (i + 1) b))
      (fun _ c' => c'.mem = created fs p x cache entry name mode i b ∧ c'.Kept torn) c := by
  obtain ⟨⟨hm, hd⟩, hup⟩ := hA
  have hlt := hs.room_of_keeps hp.entry hp.keeps
  have hx0 : (fs.added mode i b).dentries p = some x := hs.dentry
  have hx1 : ((fs.added mode i b).recorded p x cache entry name (inoOf i)).dentries p =
      some { x with
        fsdata := some ⟨cache.dirChildrenCount, cacheEntryInsert cache.used
          ⟨((fs.added mode i b).dev.putRecord x.inode.block entry.entryNo (inoOf i)
            name.bytes).record x.inode.block entry.entryNo, entry.entryNo⟩,
          listDel entry cache.free⟩ } :=
    (Fs.setDentry_dentries _ _ _ _).trans (if_pos rfl)
  have hblock : Buf.dataBlock c.mem p = x.inode.block := by simp only [Buf.dataBlock, hm, hx0]
  have hcount : countChild p ((fs.added mode i b).recorded p x cache entry name (inoOf i)) =
      .ok ((), (fs.added mode i b).counted p x cache entry name (inoOf i)) := countChild_eq hx1
  refine Prog.wpc_mono (Buf.wpc_createTail_synced hblock ?_ hcount
    (hs.saveInode_created hp hl mode) ?_ rfl
    (Device.blocks_setSlot _ _ hs.number.1 (by decide)) ?_ (hs.holds_pending hp hl hplain mode)
    (hs.holds_recorded hp hl hplain mode) (fun _ _ _ => Or.inr)
    (hs.plain_created hp hl hplain hdir mode) hC hC' hd hup) (fun _ h => h) ?_
  · rw [hm]
    exact addRecord_eq hx0 hs.fsdata hp.entry hlt
  · rw [hm]
    exact Device.blocks_zero_one hs.block.1 (hs.agreeOff_recorded hp mode)
  · rw [hm]
    exact hs.holds_added hp hl hplain mode
  · rintro _ c' ⟨⟨hm', hd'⟩, hup'⟩
    exact ⟨hm', by rw [hm']; exact hd', hup'⟩

omit hp in
/-- **A create**: it is turned away, or the name is on the device before the inode is sure to be. -/
theorem wpc_created (hpick : ffz fs.imap = some (i + 1))
    (hp : ∀ b, freeBlockScan fs.dev.freeBlocks = some b → Picked fs cache name i b entry)
    (hC : ∀ c' : Buf, Device.Holds torn fs.dev.Slots c'.device fs.dev → C c')
    (hC' : ∀ b (c' : Buf), freeBlockScan fs.dev.freeBlocks = some b → fs.CreateStarts mode quiet →
      Device.Holds torn (fs.dev.Either (created fs p x cache entry name mode i b).dev) c'.device
          fs.dev ∨
        Device.Holds torn (fs.dev.Either (created fs p x cache entry name mode i b).dev) c'.device
          (created fs p x cache entry name mode i b).dev → C c')
    (hm : c.mem = fs) (hk : c.Kept torn) :
    Buf.wpc quiet C (Buf.simplefsCreateFsObject p name mode)
      (fun _ c' => c'.Kept torn ∧ (c'.mem = fs ∧ fs.TurnedAway mode quiet ∨
        ∃ b, freeBlockScan fs.dev.freeBlocks = some b ∧
          c'.mem = created fs p x cache entry name mode i b)) c := by
  subst hm
  -- `Q` says which number and which block have been taken
  obtain ⟨Q, hQ⟩ : ∃ Q : Nat → Nat → Prop, ∀ ino b, Q ino b ↔ ino = i + 1 ∧
      freeBlockScan c.mem.dev.freeBlocks = some b ∧ c.mem.CreateStarts mode quiet :=
    ⟨_, fun _ _ => .rfl⟩
  obtain ⟨S, hS⟩ : ∃ S : Nat → Nat → SfsInode → Prop, ∀ b, S b = c.mem.dev.Either
    (created c.mem p x cache entry name mode i b).dev := ⟨_, fun _ => rfl⟩
  have hadded : ∀ ino b s, s = c.mem.added mode i b ∧ Q ino b →
      Device.Holds torn (S b) s.dev c.mem.dev := by
    rintro ino b s ⟨rfl, hq⟩
    rw [hS]
    exact hs.holds_added (hp b ((hQ ino b).mp hq).2.1) hl hplain mode
  have hmid : ∀ ino b (c' : Buf), c'.mem = c.mem.added mode i b ∧ Q ino b →
      Device.Holds torn (S b) c'.device c.mem.dev → C c' := by
    rintro ino b c' ⟨-, hq⟩ h
    obtain ⟨-, hb, hst⟩ := (hQ ino b).mp hq
    exact hC' b c' hb hst (Or.inl (hS b ▸ h))
  refine Prog.wpc_mono (Buf.wpc_create
    (P := Buf.At (fun s => s = c.mem) torn c.mem.dev.Slots c.mem.dev Buf.Up)
    (B := fun ino b => Buf.At (fun s => s = c.mem.taken b ∧ Q ino b) torn c.mem.dev.Slots
      c.mem.dev (Buf.Due 1))
    (D := fun ino b => Buf.At (fun s => s = c.mem.taken b ∧ Q ino b) torn c.mem.dev.Slots
      c.mem.dev Buf.Up)
    (E := fun ino b => Buf.At (fun s => s = c.mem.added mode i b ∧ Q ino b) torn (S b)
      c.mem.dev fun _ => True)
    (A := fun ino b => Buf.At (fun s => s = c.mem.added mode i b ∧ Q ino b) torn (S b)
      c.mem.dev Buf.Up)
    (R := fun c' => c'.Kept torn ∧ ∃ b, freeBlockScan c.mem.dev.freeBlocks = some b ∧
      c'.mem = created c.mem p x cache entry name mode i b)
    ?_ ?_ ?_ ?_ ?_ (fun _ _ => trivial) ⟨⟨rfl, hk.1⟩, hk.2⟩ (fun c' h => h.1.1)
    ?_ ?_ ?_ ?_ ?_ ?_) (fun _ h => h) ?_
  · exact Buf.safe_at Buf.steady_up (fun s h => by rw [h]; exact .of_slots hplain) hC
  · exact fun ino b => Buf.safe_at (Prog.Steady.due _ 1)
      (fun s h => h.1 ▸ Fs.holds_taken hplain b) hC
  · exact fun ino b => Buf.safe_at Buf.steady_up (fun s h => h.1 ▸ Fs.holds_taken hplain b) hC
  · exact fun ino b => Buf.safe_at_of Buf.steady_true (hadded ino b) (hmid ino b)
  · exact fun ino b => Buf.safe_at_of Buf.steady_up (hadded ino b) (hmid ino b)
  · rintro c' ino b ⟨⟨hm, hd⟩, hup⟩ hst - hino hb
    refine ⟨⟨⟨rfl, (hQ ino b).mpr ⟨?_, hb, hst⟩⟩, hd⟩, Buf.due_store hup.2 ?_⟩
    · exact Option.some.inj (hino.symm.trans hpick)
    · rw [hm]
      exact Fs.blocks_taken _ b (Nat.le_refl 1)
  · rintro ino b c' ⟨hm, hdue⟩ hset
    exact ⟨hm, Or.inr hset, hdue⟩
  · rintro ino b c' s ⟨⟨⟨hm, hq⟩, hd⟩, hup⟩ hr
    obtain ⟨rfl, hb, hst⟩ := (hQ ino b).mp hq
    have hadd : addInode (newInode mode (i + 1) b) (c.mem.taken b) =
        .ok ((), c.mem.added mode i b) := addInode_eq (hp b hb).lt rfl
    rw [hm, hadd] at hr
    cases hr
    refine ⟨⟨⟨rfl, hq⟩, ?_⟩, trivial⟩
    rw [hS]
    exact hd.mono (fun _ => id) fun k v _ => Or.inl
  · rintro ino b c' ⟨hm, -⟩ hdue hset
    exact ⟨hm, Or.inr hset, hdue⟩
  · rintro ino b c' - (hf | hf) <;> cases hf
  · rintro ino b c' ⟨⟨⟨hm, hq⟩, hd⟩, hup⟩
    obtain ⟨rfl, hb, hst⟩ := (hQ ino b).mp hq
    refine Prog.wpc_mono (hs.wpc_tail (hp b hb) hdir hl hplain
      (fun c' h => hC' b c' hb hst (Or.inl h)) (fun c' h => hC' b c' hb hst (Or.inr h))
      ⟨⟨hm, hS b ▸ hd⟩, hup⟩) (fun _ h => h) ?_
    rintro _ c'' ⟨hm', hk'⟩
    exact ⟨hk', b, hb, hm'⟩
  · rintro _ c' (⟨⟨⟨hm, hd⟩, hup⟩, haway⟩ | ⟨hk', hend⟩)
    · exact ⟨⟨by rw [hm]; exact hd, hup⟩, Or.inl ⟨hm, haway⟩⟩
    · exact ⟨hk', Or.inr hend⟩

omit hplain in
/-- **What that leaves.** -/
theorem leaves {op : Op} {d : Device} (hfree : ¬ torn b) (htorn : op.torn fs torn = torn)
    (h : Device.Holds torn (fs.dev.Either (created fs p x cache entry name mode i b).dev) d fs.dev ∨
      Device.Holds torn (fs.dev.Either (created fs p x cache entry name mode i b).dev) d
        (created fs p x cache entry name mode i b).dev) :
    op.Leaves torn fs (created fs p x cache entry name mode i b) d := by
  have halive : ∀ k, fs.dev.Live k →
      (created fs p x cache entry name mode i b).dev.Live k ∧
        2 ≤ ((created fs p x cache entry name mode i b).dev.slot k).block := by
    intro k hk
    have hsame := (hs.sameFile_created hp hl hdir mode hk).same
    exact ⟨(Device.live_congr_no hsame.inodeNo).mpr hk,
      by rw [hsame.block]; exact (hs.store.block k hk).1⟩
  rcases h with h | h
  · -- the directory is as it was
    refine .before ((h.shows fun k hk => ⟨hk, (hs.store.block k hk).1, fun v hv => ?_⟩).mono
      (fun _ => Or.inl) fun _ => id)
    rcases hv with hv | hv
    · exact hv.1 hk
    · exact (hv.1 (halive k hk).1).trans (hs.sameFile_created hp hl hdir mode hk)
  · -- it has the name
    refine .after ?_ fun k hk hno => ?_
    · rw [htorn]
      refine h.shows fun k hk => ⟨hk.2, (halive k hk.1).2, fun v hv => ?_⟩
      rcases hv with hv | hv
      · exact (hv.1 hk.1).trans (hs.sameFile_created hp hl hdir mode hk.1).symm
      · exact hv.1 hk.2
    · rcases h.slot k hk.1 with hv | hv
      · exact Or.inr (hv.2 hno)
      have hki : k = i := by
        by_contra hki
        by_cases hkx : k = x.slot
        · exact hno (hkx ▸ hl)
        · exact hno ((Device.live_congr (hs.slots_created hp mode hk.1 hkx hki)).mp hk)
      have hone : Device.Holds torn
          (fun j v => j = k → v.SameFile
            ((created fs p x cache entry name mode i b).dev.slot j)) d
          (created fs p x cache entry name mode i b).dev :=
        ⟨h.block, fun j _ hj => by rw [hj]; exact hv.1 hk⟩
      obtain ⟨h3, h34, -⟩ := hs.store.high.scan_some hp.block
      have hblock : ((created fs p x cache entry name mode i b).dev.slot k).block = b := by
        rw [hki, (hs.slot_new hp hl mode).1]
        exact block_newInode mode (i + 1) (by omega)
      have hshows : Device.Shows torn (fun j => j = k) d
          (created fs p x cache entry name mode i b).dev := by
        refine hone.shows fun j hj => ?_
        subst hj
        exact ⟨hk, by omega, fun v hv => hv rfl⟩
      exact Or.inl (hshows.node k rfl (by rwa [hblock]))

end Fs.SoundAt

end Create

/-! ## 3. A write -/

section Write

variable {torn : Nat → Prop} {fs : Fs} {c : Buf} {d ppos copied : Nat} {x : Dentry}
  {data : List UInt8}

theorem agreeOff_copiedIn (hlen : ppos + data.length ≤ 4096) :
    AgreeOff (4096 * x.inode.block) (4096 * x.inode.block + 4096) fs.dev
      (fs.copiedIn x ppos data copied).dev := by
  have hagree := Device.agreeOff_putData fs.dev x.inode.block ppos (copiedBytes data copied)
  rw [length_copiedBytes] at hagree
  exact fun a ha => hagree a (by omega)

/-- The block of a linked file. -/
theorem FsInv.two_le (hi : FsInv fs Shadow.none) (hx : fs.Current Shadow.none d x) :
    2 ≤ x.inode.block := by
  obtain ⟨hl, -, hsame⟩ := hi.live d x hx
  rw [hsame.block]
  exact (hi.store.block x.slot hl).1

/-- The copy touches no slot. -/
theorem FsInv.slots_copiedIn (hi : FsInv fs Shadow.none) (hx : fs.Current Shadow.none d x)
    {k : Nat} (hk : k < slotsPerBlock) {v : SfsInode} :
    (fs.copiedIn x ppos data copied).dev.Slots k v ↔ fs.dev.Slots k v :=
  Device.Slots.congr (fun _ => slot_copiedIn (hi.two_le hx) ppos data copied) hk

theorem FsInv.live_copiedIn (hi : FsInv fs Shadow.none) (hx : fs.Current Shadow.none d x)
    (k : Nat) : (fs.copiedIn x ppos data copied).dev.Live k ↔ fs.dev.Live k := by
  have hslot : k < 128 → (fs.copiedIn x ppos data copied).dev.slot k = fs.dev.slot k :=
    slot_copiedIn (hi.two_le hx) ppos data copied
  exact ⟨fun h => (Device.live_congr (hslot h.lt)).mp h,
    fun h => (Device.live_congr (hslot h.lt)).mpr h⟩

theorem FsInv.plain_copiedIn (hi : FsInv fs Shadow.none) (hx : fs.Current Shadow.none d x)
    (hplain : fs.dev.Plain) : (fs.copiedIn x ppos data copied).dev.Plain := by
  intro k hk
  rw [slot_copiedIn (hi.two_le hx) ppos data copied hk]
  exact (hi.slots_copiedIn hx hk).mpr (hplain k hk)

/-- The size is one that a slot may have afterwards. -/
theorem Device.plain_setSlot {dev : Device} (hplain : dev.Plain) {k : Nat}
    {v : SfsInode} (hno : v.inodeNo ≠ 0#64) : (dev.setSlot k v).Plain := by
  intro j hj
  refine ⟨fun _ => .refl _, fun hdead => ?_⟩
  have hslot := Device.slot_setSlot dev k j v
  by_cases hjk : j = k
  · rw [if_pos hjk] at hslot
    exact absurd ⟨hj, by rw [hslot]; exact hno⟩ hdead
  · rw [if_neg hjk] at hslot
    rw [hslot]
    exact (hplain j hj).2 fun hl => hdead ((Device.live_congr hslot).mpr hl)

/-- Until the block is synced it may be what it was. -/
theorem FsInv.holds_copiedIn (hi : FsInv fs Shadow.none) (hx : fs.Current Shadow.none d x)
    (hlen : ppos + data.length ≤ 4096) (hplain : fs.dev.Plain) :
    Device.Holds (fun b => torn b ∨ b = x.inode.block) fs.dev.Slots
      (fs.copiedIn x ppos data copied).dev fs.dev :=
  Device.holds_of_agreeOff (hi.two_le hx) (agreeOff_copiedIn hlen) hplain

theorem FsInv.blocks_copiedIn (hi : FsInv fs Shadow.none) (hx : fs.Current Shadow.none d x)
    (hlen : ppos + data.length ≤ 4096) :
    (fs.copiedIn x ppos data copied).dev.blocks 0 = fs.dev.blocks 0 ∧
      (fs.copiedIn x ppos data copied).dev.blocks 1 = fs.dev.blocks 1 :=
  Device.blocks_zero_one (hi.two_le hx) (agreeOff_copiedIn hlen)

theorem Op.torn_write (hx : fs.dentries d = some x) (b : Nat) :
    (Op.write d ppos data copied).torn fs torn b ↔
      if b = x.inode.block then copied < data.length else torn b := by
  change (if b = Buf.dataBlock fs d then copied < data.length else torn b) ↔ _
  simp only [Buf.dataBlock, hx]

/-- **A copy that fails** stays in the buffer, unless the buffer is dirty for another reason. -/
theorem FsInv.wpc_tear (hi : FsInv fs Shadow.none) (hx : fs.Current Shadow.none d x)
    (hlen : ppos + data.length ≤ 4096) (hplain : fs.dev.Plain) (hfail : copied < data.length)
    (hm : c.mem = fs) (hk : c.Kept torn) :
    Buf.wpc quiet (fun c' => (Op.write d ppos data copied).Leaves torn fs
        (fs.written d x ppos data copied) c'.device) (Buf.simplefsWrite d ppos data copied)
      (fun _ c' => c'.mem = fs.written d x ppos data copied ∧
        c'.Kept ((Op.write d ppos data copied).torn fs torn)) c := by
  subst hm
  have hblocks : (c.mem.copiedIn x ppos data copied).dev.blocks 0 = c.mem.dev.blocks 0 ∧
      (c.mem.copiedIn x ppos data copied).dev.blocks 1 = c.mem.dev.blocks 1 :=
    hi.blocks_copiedIn hx hlen
  have hfit : Fits ppos data := Or.inr hlen
  have hcopy : copyFromUser d ppos data copied c.mem =
      .ok (false, c.mem.copiedIn x ppos data copied) := by
    rw [copyFromUser_eq hx.1, if_pos hfit, decide_eq_false (by omega)]
  have hwritten : c.mem.written d x ppos data copied = c.mem.copiedIn x ppos data copied :=
    if_pos hfail
  have htorn : ∀ b, torn b ∨ b = x.inode.block →
      (Op.write d ppos data copied).torn c.mem torn b := by
    intro b hb
    rw [Op.torn_write hx.1]
    split
    · exact hfail
    · rename_i hne
      exact hb.resolve_right hne
  have hmem : Device.Holds (fun b => torn b ∨ b = x.inode.block) c.mem.dev.Slots
      (c.mem.copiedIn x ppos data copied).dev c.mem.dev := hi.holds_copiedIn hx hlen hplain
  have hback : ∀ b, b ≠ x.inode.block → c.mem.dev.blocks b =
      (c.mem.copiedIn x ppos data copied).dev.blocks b := fun b hb =>
    (Device.blocks_congr (agreeOff_copiedIn hlen) (by omega)).symm
  have hC : ∀ c' : Buf, Device.Holds (fun b => torn b ∨ b = x.inode.block) c.mem.dev.Slots
      c'.device c.mem.dev → (Op.write d ppos data copied).Leaves torn c.mem
        (c.mem.written d x ppos data copied) c'.device := fun c' h =>
    .before ((hi.shows_kept h).mono (fun b hb => Or.inr (htorn b hb)) fun _ => id)
  have hbefore := Buf.safe_at Buf.steady_up
    (fun s (h : s = c.mem) => by rw [h]; exact Device.Holds.of_slots hplain)
    fun c' h => hC c' (h.mono (fun _ => Or.inl) fun _ _ _ => id)
  refine Prog.wpc_mono (Buf.wpc_write_failed
    (P := Buf.At (fun s => s = c.mem) torn c.mem.dev.Slots c.mem.dev Buf.Up)
    (T := Buf.At (fun s => s = c.mem.copiedIn x ppos data copied)
      (fun b => torn b ∨ b = x.inode.block) c.mem.dev.Slots
      (c.mem.copiedIn x ppos data copied).dev Buf.Up)
    hbefore ?_ ⟨⟨rfl, hk.1⟩, hk.2⟩ (fun c' h => h.1.1) ?_) (fun _ h => h) ?_
  · refine Buf.safe_at Buf.steady_up (fun s h => ?_) fun c' h => hC c' (h.trans hmem)
    rw [h]
    exact .of_slots hmem.slot
  · rintro c' ok s ⟨⟨hm, hd⟩, hup⟩ hr
    rw [hcopy] at hr
    cases hr
    refine ⟨rfl, ⟨rfl, fun b h2 ht => ?_, hd.slot⟩, hup.store ?_ ?_⟩
    · exact (hd.block b h2 fun htb => ht (Or.inl htb)).trans (hback b fun hb => ht (Or.inr hb))
    · rw [hm]
      exact hblocks.1
    · rw [hm]
      exact hblocks.2
  · rintro _ c' ⟨⟨hm, hd⟩, hup⟩
    rw [hwritten]
    refine ⟨hm, ?_, hup⟩
    rw [hm]
    exact hd.mono htorn fun k v hk => (hi.slots_copiedIn hx hk).mpr

/-! ### A copy that goes through -/

theorem FsInv.live_resaved (hi : FsInv fs Shadow.none) (hx : fs.Current Shadow.none d x) {n k : Nat}
    (hk : ((fs.copiedIn x ppos data copied).resaved d x n).dev.Live k) : fs.dev.Live k := by
  by_cases hkx : k = x.slot
  · rw [hkx]
    exact (hi.live d x hx).1
  · have hslot : ((fs.copiedIn x ppos data copied).resaved d x n).dev.slot k =
        (fs.copiedIn x ppos data copied).dev.slot k :=
      (Device.slot_setSlot _ _ _ _).trans (if_neg hkx)
    exact (hi.live_copiedIn hx k).mp ((Device.live_congr hslot).mp hk)

theorem FsInv.plain_resaved (hi : FsInv fs Shadow.none) (hx : fs.Current Shadow.none d x)
    (hplain : fs.dev.Plain) (n : Nat) :
    ((fs.copiedIn x ppos data copied).resaved d x n).dev.Plain := by
  refine Device.plain_setSlot (hi.plain_copiedIn hx hplain) ?_
  obtain ⟨hl, -, hsame⟩ := hi.live d x hx
  change x.inode.inodeNo ≠ 0#64
  rw [hsame.inodeNo]
  exact hl.2

theorem FsInv.blocks_resaved (hi : FsInv fs Shadow.none) (hx : fs.Current Shadow.none d x)
    (n : Nat) {b : Nat} (hb : b ≠ 1) :
    ((fs.copiedIn x ppos data copied).resaved d x n).dev.blocks b =
      (fs.copiedIn x ppos data copied).dev.blocks b :=
  Device.blocks_setSlot _ _ (hi.live d x hx).1.lt hb

/-- Such a write mends its block. -/
theorem Op.torn_write_ok (hx : fs.dentries d = some x) (hok : ¬ copied < data.length) (b : Nat) :
    (Op.write d ppos data copied).torn fs torn b ↔ torn b ∧ b ≠ x.inode.block := by
  rw [Op.torn_write hx]
  split
  · rename_i h
    exact ⟨fun hc => absurd hc hok, fun hc => absurd h hc.2⟩
  · rename_i h
    exact ⟨fun hb => ⟨hb, h⟩, And.left⟩

/-- The data is on the device, the size may not be. -/
theorem FsInv.leaves_data {fs' : Fs} {dv : Device} (hi : FsInv fs Shadow.none)
    (hx : fs.Current Shadow.none d x) (hf : isDir x.inode.mode = false)
    (hlen : ppos + data.length ≤ 4096)
    (h : Device.Holds ((Op.write d ppos data copied).torn fs torn)
      (fs.copiedIn x ppos data copied).dev.Slots dv (fs.copiedIn x ppos data copied).dev) :
    (Op.write d ppos data copied).Leaves torn fs fs' dv :=
  .rewritten rfl hx.1 (((hi.copiedIn hx hf hlen copied).shows_kept h).mono (fun _ => id)
    fun k => (hi.live_copiedIn hx k).mpr)

/-- The same while the block may still be torn: a torn block tells nothing apart. -/
theorem FsInv.leaves_flushed {fs' : Fs} {dv : Device} (hi : FsInv fs Shadow.none)
    (hx : fs.Current Shadow.none d x) (hf : isDir x.inode.mode = false)
    (hlen : ppos + data.length ≤ 4096) (hplain : fs.dev.Plain) (hok : ¬ copied < data.length)
    (h : Device.Holds torn fs.dev.Slots dv (fs.copiedIn x ppos data copied).dev) :
    (Op.write d ppos data copied).Leaves torn fs fs' dv := by
  by_cases ht : torn x.inode.block
  · have hmem : Device.Holds torn fs.dev.Slots (fs.copiedIn x ppos data copied).dev fs.dev :=
      (hi.holds_copiedIn hx hlen hplain).mono (fun b hb => hb.elim id fun hb => hb ▸ ht)
        fun _ _ _ => id
    exact hi.leaves_before _ _ (h.trans hmem)
  · refine hi.leaves_data hx hf hlen (h.mono (fun b hb => ?_) fun k v hk =>
      (hi.slots_copiedIn hx hk).mpr)
    exact (Op.torn_write_ok hx.1 hok b).mpr ⟨hb, fun h => ht (h ▸ hb)⟩

/-- The size is there too. -/
theorem FsInv.leaves_resaved {dv : Device} (hi : FsInv fs Shadow.none)
    (hx : fs.Current Shadow.none d x) (hf : isDir x.inode.mode = false)
    (hlen : ppos + data.length ≤ 4096) (n : Nat)
    (h : Device.Holds ((Op.write d ppos data copied).torn fs torn)
      ((fs.copiedIn x ppos data copied).resaved d x n).dev.Slots dv
      ((fs.copiedIn x ppos data copied).resaved d x n).dev) :
    (Op.write d ppos data copied).Leaves torn fs
      ((fs.copiedIn x ppos data copied).resaved d x n) dv := by
  have hi3 := ((hi.copiedIn hx hf hlen copied).resize
    (show (fs.copiedIn x ppos data copied).Current Shadow.none d x from hx) n).2
  exact .after ((hi3.shows_kept h).mono (fun _ => id) fun k hk => hk.2)
    fun k hk hno => absurd (hi.live_resaved hx hk) hno

/-- The pieces of such a write and its two syncs, from `u0` over the data in `u1` and the size in
`u2` to the saved inode in `u3`. -/
theorem Buf.wpc_write_synced {C : Buf → Prop} {torn' : Nat → Prop} {u1 u2 u3 : Fs} {B : Nat}
    {S S1 S3 : Nat → SfsInode → Prop} (hB : Buf.dataBlock c.mem d = B)
    (hcopy : copyFromUser d ppos data copied c.mem = .ok (true, u1))
    (hsize : setFileSize d (ppos + data.length) u1 = .ok ((), u2))
    (hsave : saveInode d u2 = .ok (true, u3))
    (h1 : u1.dev.blocks 0 = c.mem.dev.blocks 0 ∧ u1.dev.blocks 1 = c.mem.dev.blocks 1)
    (h2 : u2.dev = u1.dev) (h3 : ∀ b, b ≠ 1 → u3.dev.blocks b = u1.dev.blocks b)
    (hstart : ∀ k, k < slotsPerBlock → S k (c.mem.dev.slot k))
    (hpend : Device.Holds (fun b => torn b ∨ b = B) S u1.dev c.mem.dev)
    (hS : ∀ k v, k < slotsPerBlock → S k v → S1 k v)
    (hmend : ∀ b, torn b ∧ b ≠ B → torn' b)
    (hslots1 : ∀ k, k < slotsPerBlock → S1 k (u1.dev.slot k))
    (hslots3 : ∀ k, k < slotsPerBlock → S3 k (u3.dev.slot k))
    (hbefore : ∀ c' : Buf, Device.Holds torn S c'.device c.mem.dev → C c')
    (hflushed : ∀ c' : Buf, Device.Holds torn S c'.device u1.dev → C c')
    (hdata : ∀ c' : Buf, Device.Holds torn' S1 c'.device u1.dev → C c')
    (hafter : ∀ c' : Buf, Device.Holds torn' S3 c'.device u3.dev → C c')
    (hd : Device.Holds torn S c.device c.mem.dev) (hup : c.Up) :
    Buf.wpc quiet C (Buf.simplefsWrite d ppos data copied)
      (fun _ => Buf.At (fun s => s = u3) torn' S3 u3.dev Buf.Up) c := by
  have hpend' : ∀ s, s = u1 → Device.Holds (fun b => torn b ∨ b = B) S s.dev c.mem.dev :=
    fun s h => by rw [h]; exact hpend
  have hflush : ∀ s, s = u1 → Device.Holds torn S s.dev u1.dev := fun s h => by
    rw [h]
    exact .of_slots hpend.slot
  have hdata1 : ∀ s : Fs, s.dev = u1.dev → Device.Holds torn' S1 s.dev u1.dev := fun s h => by
    rw [h]
    exact .of_slots hslots1
  have hblocks3 : ∀ s, s = u3 → ∀ b, 2 ≤ b → ¬ torn' b → s.dev.blocks b = u1.dev.blocks b :=
    fun s h b hb _ => by rw [h]; exact h3 b (by omega)
  have hafter3 : ∀ s, s = u3 → Device.Holds torn' S3 s.dev u3.dev := fun s h => by
    rw [h]
    exact .of_slots hslots3
  refine Prog.wpc_mono (Buf.wpc_write
    (P := Buf.At (fun s => s = c.mem) torn S c.mem.dev Buf.Up)
    (T := fun _ => False)
    (A := Buf.Between (fun s => s = u1) torn S S c.mem.dev u1.dev Buf.Up)
    (B := Buf.At (fun s => s = u1) torn' S1 u1.dev Buf.Up)
    (D := Buf.At (fun s => s = u2) torn' S1 u1.dev Buf.Up)
    (E := Buf.Between (fun s => s = u3) torn' S1 S3 u1.dev u3.dev (Buf.Due 0))
    (G := Buf.At (fun s => s = u3) torn' S3 u3.dev Buf.Up)
    (F := fun _ => False)
    ?_ (Buf.safe_pending Buf.steady_up hpend' hflush (fun _ _ _ => id) hbefore hflushed)
    Buf.safe_false
    (Buf.safe_at Buf.steady_up (fun s h => hdata1 s (congrArg Fs.dev h)) hdata)
    (Buf.safe_at Buf.steady_up (fun s h => hdata1 s ((congrArg Fs.dev h).trans h2)) hdata)
    (Buf.safe_store (Prog.Steady.due _ 0) hblocks3 hafter3 hdata hafter)
    (Buf.safe_at Buf.steady_up hafter3 hafter) Buf.safe_false (fun _ _ => trivial) trivial
    ⟨⟨rfl, hd⟩, hup⟩ (fun c' h => h.1.1) ?_ ?_ ?_ ?_ ?_ ?_ ?_) (fun _ h => h) ?_
  · exact Buf.safe_at Buf.steady_up (fun s h => by rw [h]; exact .of_slots hstart) hbefore
  · intro c' s hc' hr
    rw [hcopy] at hr
    cases hr
    exact hc'.change rfl fun _ hu => by rw [hu]; exact h1
  · rintro c' s - hr
    rw [hcopy] at hr
    cases hr
  · -- what is synced is not torn
    rintro c' hc' hset -
    rw [hB] at hset
    obtain ⟨⟨hm, hd'⟩, hup'⟩ := hc'.synced hset hpend' hflush fun _ _ _ => id
    rw [← hm] at hd'
    have hwhole := (Buf.settle_torn hd' hset).mono hmend hS
    rw [hm] at hwhole
    exact ⟨⟨hm, hwhole⟩, hup'⟩
  · intro c' s hc' hr
    rw [hc'.1.1, hsize] at hr
    cases hr
    exact hc'.step rfl fun _ hu => by rw [hu, h2]; exact ⟨rfl, rfl⟩
  · rintro c' s ⟨⟨hm, hd'⟩, hup'⟩ hr
    rw [hm, hsave] at hr
    cases hr
    refine ⟨⟨rfl, Or.inl hd'⟩, Buf.due_store hup'.1 ?_⟩
    rw [hm, h2]
    exact h3 0 (by decide)
  · rintro c' ⟨⟨hm, hd'⟩, hdue⟩ hset
    exact ⟨⟨hm, Buf.settle_store (hblocks3 _ hm) (hafter3 _ hm) hd' hset⟩, hdue, Or.inr hset⟩
  · rintro c' ⟨⟨hm, -⟩, -⟩ (hf | hf)
    · cases hf
    · rw [hm, hsave] at hf
      cases hf
  · rintro _ c' (hf | ⟨-, hf⟩ | hf | hc')
    · exact hf.elim
    · cases hf
    · exact hf.elim
    · exact hc'

/-- **The data is there before the size**, and mends the block. -/
theorem FsInv.wpc_rewrite (hi : FsInv fs Shadow.none) (hx : fs.Current Shadow.none d x)
    (hreg : isReg x.inode.mode = true) (hlen : ppos + data.length ≤ 4096)
    (hplain : fs.dev.Plain) (hok : ¬ copied < data.length) (hm : c.mem = fs) (hk : c.Kept torn) :
    Buf.wpc quiet (fun c' => (Op.write d ppos data copied).Leaves torn fs
        (fs.written d x ppos data copied) c'.device) (Buf.simplefsWrite d ppos data copied)
      (fun _ c' => c'.mem = fs.written d x ppos data copied ∧
        c'.Kept ((Op.write d ppos data copied).torn fs torn)) c := by
  subst hm
  have hf := not_isDir_of_isReg hreg
  have hfit : Fits ppos data := Or.inr hlen
  have hblock : Buf.dataBlock c.mem d = x.inode.block := by simp only [Buf.dataBlock, hx.1]
  have hcopy : copyFromUser d ppos data copied c.mem =
      .ok (true, c.mem.copiedIn x ppos data copied) := by
    rw [copyFromUser_eq hx.1, if_pos hfit, decide_eq_true (by omega)]
  have hx1 : (c.mem.copiedIn x ppos data copied).Current Shadow.none d x := hx
  have hsave := ((hi.copiedIn hx hf hlen copied).resize hx1 (ppos + data.length)).1
  have hwritten : c.mem.written d x ppos data copied =
      (c.mem.copiedIn x ppos data copied).resaved d x (ppos + data.length) := if_neg hok
  rw [hwritten]
  refine Prog.wpc_mono (Buf.wpc_write_synced hblock hcopy (setFileSize_eq hx1.1) hsave
    (hi.blocks_copiedIn hx hlen) rfl (fun b => hi.blocks_resaved hx _) hplain
    (hi.holds_copiedIn hx hlen hplain) (fun k v hk => (hi.slots_copiedIn hx hk).mpr)
    (fun b => (Op.torn_write_ok hx.1 hok b).mpr) (hi.plain_copiedIn hx hplain)
    (hi.plain_resaved hx hplain _) (fun _ => hi.leaves_before _ _)
    (fun _ => hi.leaves_flushed hx hf hlen hplain hok) (fun _ => hi.leaves_data hx hf hlen)
    (fun _ => hi.leaves_resaved hx hf hlen _) hk.1 hk.2) (fun _ h => h) ?_
  rintro _ c' ⟨⟨hm, hd⟩, hup⟩
  exact ⟨hm, by rw [hm]; exact hd, hup⟩

end Write

/-! ## 4. Every call -/

section Calls

variable {torn : Nat → Prop} {fs' : Fs} {c : Buf} {lk' : LockState Lock} {p : Nat} {name : Name}
  {mode : BitVec 16}

/-- `simplefs_create_fs_object`, for a file or a directory. -/
theorem FsInv.create_kept {op : Op} (hi : FsInv c.mem Shadow.none) (ha : c.mem.Absent p name)
    (hdef : c.mem.HasFreeEntry p ∧ name.bytes.length ≤ 255) (hplain : c.mem.dev.Plain)
    (hmend : ∀ b, freeBlockScan c.mem.dev.freeBlocks = some b → ¬ torn b) (hk : c.Kept torn)
    (htorn : op.torn c.mem torn = torn)
    (hcode : op.bufCode = discard (Buf.simplefsCreateFsObject p name mode))
    (hrun : Prog.run quiet op.code LockState.free c.mem = (.returned () fs', lk')) :
    Buf.wpc quiet (fun c' => op.Leaves torn c.mem fs' c'.device) op.bufCode
      (fun _ c' => c'.Kept (op.torn c.mem torn)) c := by
  obtain ⟨x, hx, -⟩ := ha
  obtain ⟨⟨x', cache, hx', hc, hfree⟩, hname⟩ := hdef
  cases hx.1.symm.trans hx'
  have hs := hi.soundAt hx hc
  have hl := (hi.dir hx).1.1
  obtain ⟨i, hpick, hi63, hdead⟩ := hs.pick
  obtain ⟨entry, l, hel⟩ := List.exists_cons_of_ne_nil hfree
  have he : freeCacheEntryGet cache = some entry := by rw [freeCacheEntryGet, hel, List.head?_cons]
  have hp : ∀ b, freeBlockScan c.mem.dev.freeBlocks = some b →
      Fs.SoundAt.Picked c.mem cache name i b entry := fun b hb =>
    ⟨hi63, hdead, hb, he, Or.inl hname⟩
  -- what the call does in memory
  obtain ⟨c1, hc1, hpass⟩ : ∃ c1 : Buf, c1.mem = _ ∧ Prog.Passes quiet Buf.Background _ _ :=
    op.erases.run hrun
  rw [hcode] at hpass ⊢
  rw [htorn]
  have hend := Prog.wpc_returns hpass (Buf.wpc_discard (hs.wpc_created (C := fun _ => True) hx.2.2
    hl hplain hpick hp (fun _ _ => trivial) (fun _ _ _ _ _ => trivial) rfl hk))
  rw [hc1] at hend
  refine Prog.wpc_mono (Buf.wpc_discard (hs.wpc_created hx.2.2 hl hplain hpick hp
    (fun c' => hi.leaves_before op fs') (fun b c' hb hst h => ?_) rfl hk)) (fun _ h => h)
    fun _ _ h => h.1
  rcases hend.2 with ⟨-, haway⟩ | ⟨b', hb', rfl⟩
  · rcases haway with haway | haway | haway
    · exact absurd hst haway
    · cases haway
    · rw [haway] at hb
      cases hb
  · cases hb.symm.trans hb'
    exact hs.leaves (hp b hb) hx.2.2 hl (hmend b hb) htorn h

/-- **Every call keeps what the device holds.** -/
theorem FsInv.call_kept {op : Op} (hi : FsInv c.mem Shadow.none) (ha : op.Allowed c.mem)
    (hdef : op.Defined c.mem) (hplain : c.mem.dev.Plain)
    (hmend : ∀ b, freeBlockScan c.mem.dev.freeBlocks = some b → ¬ torn b) (hk : c.Kept torn)
    (hrun : Prog.run quiet op.code LockState.free c.mem = (.returned () fs', lk')) :
    Buf.wpc quiet (fun c' => op.Leaves torn c.mem fs' c'.device) op.bufCode
      (fun _ c' => c'.Kept (op.torn c.mem torn)) c := by
  -- what is known all along in a call that writes nothing
  have hs : ∀ R : Fs → Prop, (∀ s, R s → s.dev = c.mem.dev) →
      Buf.Safe (fun c' => op.Leaves torn c.mem fs' c'.device)
        (Buf.At R torn c.mem.dev.Slots c.mem.dev Buf.Up) := fun R hR =>
    Buf.safe_at Buf.steady_up (fun s h => by rw [hR s h]; exact .of_slots hplain)
      fun c' => hi.leaves_before op fs'
  have h0 := hs (fun s => s = c.mem) fun s h => h ▸ rfl
  have h1 := hs (fun s => s.dev = c.mem.dev) fun s h => h
  have hP : c.At (fun s => s = c.mem) torn c.mem.dev.Slots c.mem.dev Buf.Up := ⟨⟨rfl, hk.1⟩, hk.2⟩
  have hend : ∀ c' : Buf, c'.At (fun s => s.dev = c.mem.dev) torn c.mem.dev.Slots c.mem.dev Buf.Up →
      c'.Kept torn := fun c' h => ⟨by rw [h.1.1]; exact h.1.2, h.2⟩
  have hstore : ∀ (c' : Buf) s, c'.At (fun s => s = c.mem) torn c.mem.dev.Slots c.mem.dev Buf.Up →
      s.dev = c.mem.dev →
      (c'.store s).At (fun s => s.dev = c.mem.dev) torn c.mem.dev.Slots c.mem.dev Buf.Up :=
    fun c' s ⟨⟨hm, hd⟩, hup⟩ h => ⟨⟨h, hd⟩, hup.store (by rw [h, hm]) (by rw [h, hm])⟩
  cases op with
  | iterate d pos =>
    obtain ⟨x, hx⟩ := ha
    refine Prog.wpc_mono (Buf.wpc_discard (Buf.wpc_iterate h0 h1 hP fun c' r s hc' hr => ?_))
      (fun _ h => h) fun _ => hend
    rw [hc'.1.1, iterate_eq hx.1 pos] at hr
    cases hr
    exact hstore c' _ hc' rfl
  | lookup p name =>
    refine Prog.wpc_mono (Buf.wpc_discard (Prog.wpc_mono (Buf.wpc_lookup h0 h1 hP
      (fun c' h => h.1.1) fun c' x cache e hc' _ _ _ _ => ?_) (fun _ h => h) ?_))
      (fun _ h => h) fun _ => hend
    · exact hstore c' _ hc' rfl
    · rintro _ c' (h | h)
      · exact ⟨⟨congrArg Fs.dev h.1.1, h.1.2⟩, h.2⟩
      · exact h
  | create p name mode => exact hi.create_kept ha hdef hplain hmend hk rfl rfl hrun
  | mkdir p name mode => exact hi.create_kept ha hdef hplain hmend hk rfl rfl hrun
  | unlink e =>
    obtain ⟨y, x, cache, entry, hu, hget, h15, rfl⟩ := hi.unlinked_of_run ha hdef hrun
    refine Prog.wpc_mono (hu.kept hi hget h15 (hi.call ha hdef hrun).2 hplain rfl hk)
      (fun _ h => h) ?_
    exact fun _ c' h => h.2
  | read d ppos len userOk =>
    exact Prog.wpc_mono (Buf.wpc_discard (Buf.wpc_read h0 hP)) (fun _ h => h) fun _ c' h =>
      ⟨by rw [h.1.1]; exact h.1.2, h.2⟩
  | write d ppos data copied =>
    obtain ⟨x, hx, hreg⟩ := ha
    have hcur : c.mem.Current Shadow.none d x := ⟨hx, hdef.2 x hx, id⟩
    have hwritten := (hi.run_write hcur hreg hdef.1 copied).1.symm.trans hrun
    cases hwritten
    by_cases hcp : copied < data.length
    · exact Prog.wpc_mono (Buf.wpc_discard (hi.wpc_tear hcur hdef.1 hplain hcp rfl hk))
        (fun _ h => h) fun _ _ h => h.2
    · exact Prog.wpc_mono (Buf.wpc_discard (hi.wpc_rewrite hcur hreg hdef.1 hplain hcp rfl hk))
        (fun _ h => h) fun _ _ h => h.2
  | release d =>
    refine Prog.wpc_inMemory (k := pure) h0 hP fun c' r s hc' hr => ?_
    cases hr
    exact Prog.wpc_return h1 (hstore c' _ hc' (by rw [hc'.1.1])) fun _ => hend _

end Calls

end Simplefs
