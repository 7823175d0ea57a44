/-
# The directory cache

A dentry of a directory carries in `d_fsdata` a `struct simplefs_dir_cache`: two lists of
entries, `used` and `free`, one entry for each of the 15 records of the directory's data block.
`dir_cache_build` fills it from the block; afterwards `create` moves an entry from `free` to
its place in `used` (`cache_entry_insert`) and `unlink` moves one from `used` to the head of
`free`.

`Agrees` says what the cache is for: `used` lists exactly the live records, in order, and
`free` the numbers of the others, in any order.  Building establishes it and the two moves
keep it, against the corresponding change of the block.
-/
import Mathlib.Data.List.Sort
import Simplefs.Layout

namespace Simplefs

/-- A path component as the VFS hands it over: no NUL in it.  `/` and the length do not matter
here, and nothing in simplefs looks at them. -/
@[ext] structure Name where
  bytes : List UInt8
  noNul : 0 ∉ bytes
  deriving DecidableEq

/-- The root's name is empty. -/
theorem Name.noNul_nil : (0 : UInt8) ∉ ([] : List UInt8) := List.not_mem_nil

/-- `struct simplefs_cache_entry`, less its list links: the entry is in the list that holds
it. -/
@[ext] structure CacheEntry where
  record : DirRecord
  entryNo : Nat

/-- `struct simplefs_dir_cache`. -/
structure DirCache where
  dirChildrenCount : BitVec 64
  used : List CacheEntry
  free : List CacheEntry

/-- `simplefs_cache_alloc`, the allocation succeeding. -/
def simplefsCacheAlloc : DirCache := ⟨0, [], []⟩

/-- One turn of the loop of `dir_cache_build`.  A free entry's record is whatever the slab
held; nothing reads it before `create` overwrites it, and zero stands for it here. -/
def dirCacheBuildStep (records : Nat → DirRecord) (c : DirCache) (i : Nat) : DirCache :=
  if (records i).inodeNo ≠ 0#64 then { c with used := c.used ++ [⟨records i, i⟩] }
  else { c with free := c.free ++ [⟨DirRecord.zero, i⟩] }

/-- `dir_cache_build`, the allocations succeeding. -/
def dirCacheBuild (c : DirCache) (records : Nat → DirRecord) : DirCache :=
  (List.range recordsPerBlock).foldl (dirCacheBuildStep records) c

/-- `used_cache_entry_get`. -/
def usedCacheEntryGet (c : DirCache) (name : Name) : Option CacheEntry :=
  c.used.find? fun e => e.record.filename == name.bytes

/-- `free_cache_entry_get`.  On an empty list `list_first_entry` makes an entry out of the list
head itself; there is no such entry, and `none` stands for it. -/
def freeCacheEntryGet (c : DirCache) : Option CacheEntry := c.free.head?

/-- `list_del`: entries are told apart by their number. -/
def listDel (e : CacheEntry) (l : List CacheEntry) : List CacheEntry :=
  l.eraseP fun x => x.entryNo == e.entryNo

/-- The loop of `cache_entry_insert` and its `list_add_tail`: before the first entry with a
greater number, or at the tail. -/
def cacheEntryInsert (l : List CacheEntry) (e : CacheEntry) : List CacheEntry :=
  match l with
  | [] => [e]
  | x :: l => if e.entryNo < x.entryNo then e :: x :: l else x :: cacheEntryInsert l e

/-! ## 1. Lists of entries with increasing numbers -/

/-- Strictly increasing entry numbers. -/
def Increasing (l : List CacheEntry) : Prop := l.Pairwise fun e f => e.entryNo < f.entryNo

theorem Increasing.nodup {l : List CacheEntry} (h : Increasing l) : l.Nodup :=
  h.imp fun hlt heq => absurd hlt (by rw [heq]; exact Nat.lt_irrefl _)

/-- An increasing list is determined by its members. -/
theorem Increasing.eq_of_mem_iff {l l' : List CacheEntry} (h : Increasing l)
    (h' : Increasing l') (hm : ∀ e, e ∈ l ↔ e ∈ l') : l = l' := by
  have hperm : l.Perm l' := (List.perm_ext_iff_of_nodup h.nodup h'.nodup).mpr hm
  exact hperm.eq_of_pairwise (fun _ _ _ _ h1 h2 => absurd h1 (Nat.lt_asymm h2)) h h'

theorem mem_cacheEntryInsert {l : List CacheEntry} {e x : CacheEntry} :
    x ∈ cacheEntryInsert l e ↔ x = e ∨ x ∈ l := by
  induction l with
  | nil => simp [cacheEntryInsert]
  | cons y l ih =>
    rw [cacheEntryInsert]
    split
    · rw [List.mem_cons]
    · rw [List.mem_cons, ih, List.mem_cons]; exact or_left_comm

theorem Increasing.cacheEntryInsert {l : List CacheEntry} {e : CacheEntry} (h : Increasing l)
    (hne : ∀ x ∈ l, x.entryNo ≠ e.entryNo) : Increasing (cacheEntryInsert l e) := by
  induction l with
  | nil => exact List.pairwise_singleton _ _
  | cons y l ih =>
    rw [Increasing, List.pairwise_cons] at h
    obtain ⟨hy, hl⟩ := h
    rw [Simplefs.cacheEntryInsert]
    split
    · rename_i hlt
      refine List.pairwise_cons.mpr ⟨?_, List.pairwise_cons.mpr ⟨hy, hl⟩⟩
      intro x hx
      rcases List.mem_cons.mp hx with rfl | hx
      · exact hlt
      · exact Nat.lt_trans hlt (hy x hx)
    · rename_i hge
      have hye : y.entryNo ≠ e.entryNo := hne y List.mem_cons_self
      refine List.pairwise_cons.mpr ⟨?_, ih hl fun x hx => hne x (List.mem_cons_of_mem _ hx)⟩
      intro x hx
      rcases mem_cacheEntryInsert.mp hx with rfl | hx
      · omega
      · exact hy x hx

theorem Increasing.listDel {l : List CacheEntry} (h : Increasing l) (e : CacheEntry) :
    Increasing (listDel e l) := List.Pairwise.sublist List.eraseP_sublist h

/-- With increasing numbers, `list_del` removes the one entry of that number. -/
theorem Increasing.mem_listDel {l : List CacheEntry} (h : Increasing l) {e x : CacheEntry} :
    x ∈ Simplefs.listDel e l ↔ x ∈ l ∧ x.entryNo ≠ e.entryNo := by
  induction l with
  | nil => simp [Simplefs.listDel]
  | cons y l ih =>
    rw [Increasing, List.pairwise_cons] at h
    obtain ⟨hy, hl⟩ := h
    rw [Simplefs.listDel, List.eraseP_cons]
    by_cases heq : y.entryNo = e.entryNo
    · rw [beq_iff_eq.mpr heq, cond_true]
      constructor
      · intro hx
        have := hy x hx
        exact ⟨List.mem_cons_of_mem _ hx, by omega⟩
      · rintro ⟨hx, hne⟩
        rcases List.mem_cons.mp hx with rfl | hx
        · exact absurd heq hne
        · exact hx
    · rw [beq_eq_false_iff_ne.mpr heq, cond_false, List.mem_cons, List.mem_cons]
      change x = y ∨ x ∈ Simplefs.listDel e l ↔ _
      rw [ih hl]
      constructor
      · rintro (rfl | ⟨hx, hxe⟩)
        · exact ⟨Or.inl rfl, heq⟩
        · exact ⟨Or.inr hx, hxe⟩
      · rintro ⟨rfl | hx, hxe⟩
        · exact Or.inl rfl
        · exact Or.inr ⟨hx, hxe⟩

/-! ## 2. What the cache is for -/

/-- The entries of the live records, front to back. -/
def liveEntries (records : Nat → DirRecord) : List CacheEntry :=
  ((List.range recordsPerBlock).filter fun i => (records i).inodeNo ≠ 0#64).map
    fun i => ⟨records i, i⟩

/-- The numbers of the records that are not live. -/
def freeNumbers (records : Nat → DirRecord) : List Nat :=
  (List.range recordsPerBlock).filter fun i => (records i).inodeNo = 0#64

/-- **The cache agrees with the block**: `used` lists exactly the live records, in order, and
`free` the other record numbers, each once. -/
structure DirCache.Agrees (c : DirCache) (records : Nat → DirRecord) : Prop where
  used : c.used = liveEntries records
  free : (c.free.map CacheEntry.entryNo).Perm (freeNumbers records)

theorem mem_liveEntries {records : Nat → DirRecord} {e : CacheEntry} :
    e ∈ liveEntries records ↔
      e.entryNo < recordsPerBlock ∧ (records e.entryNo).inodeNo ≠ 0#64 ∧
        e.record = records e.entryNo := by
  simp only [liveEntries, List.mem_map, List.mem_filter, List.mem_range, decide_eq_true_eq]
  constructor
  · rintro ⟨i, ⟨hi, hl⟩, rfl⟩
    exact ⟨hi, hl, rfl⟩
  · rintro ⟨hi, hl, hr⟩
    exact ⟨e.entryNo, ⟨hi, hl⟩, CacheEntry.ext hr.symm rfl⟩

theorem mem_freeNumbers {records : Nat → DirRecord} {i : Nat} :
    i ∈ freeNumbers records ↔ i < recordsPerBlock ∧ (records i).inodeNo = 0#64 := by
  simp [freeNumbers]

theorem increasing_liveEntries (records : Nat → DirRecord) : Increasing (liveEntries records) := by
  rw [Increasing, liveEntries, List.pairwise_map]
  exact List.Pairwise.filter _ List.pairwise_lt_range

theorem nodup_freeNumbers (records : Nat → DirRecord) : (freeNumbers records).Nodup :=
  List.Nodup.filter _ List.nodup_range

/-- Agreement only depends on the 15 records of the block. -/
theorem liveEntries_congr {r r' : Nat → DirRecord} (h : ∀ i, i < recordsPerBlock → r' i = r i) :
    liveEntries r' = liveEntries r := by
  refine (increasing_liveEntries r').eq_of_mem_iff (increasing_liveEntries r) fun e => ?_
  rw [mem_liveEntries, mem_liveEntries]
  exact and_congr_right fun hi => by rw [h _ hi]

theorem freeNumbers_congr {r r' : Nat → DirRecord} (h : ∀ i, i < recordsPerBlock → r' i = r i) :
    freeNumbers r' = freeNumbers r :=
  List.filter_congr fun i hi => by rw [h i (List.mem_range.mp hi)]

theorem DirCache.Agrees.congr {c : DirCache} {r r' : Nat → DirRecord} (hc : c.Agrees r)
    (h : ∀ i, i < recordsPerBlock → r' i = r i) : c.Agrees r' :=
  ⟨by rw [hc.used, liveEntries_congr h], by rw [freeNumbers_congr h]; exact hc.free⟩

/-! ## 3. Building -/

/-- The loop of `dir_cache_build`, over any sublist of record numbers. -/
theorem foldl_dirCacheBuildStep (records : Nat → DirRecord) : ∀ (l : List Nat) (c : DirCache),
    l.foldl (dirCacheBuildStep records) c =
      { c with
        used := c.used ++ (l.filter fun i => (records i).inodeNo ≠ 0#64).map fun i => ⟨records i, i⟩
        free := c.free ++ (l.filter fun i => (records i).inodeNo = 0#64).map
          fun i => ⟨DirRecord.zero, i⟩ }
  | [], c => by simp
  | i :: l, c => by
    rw [List.foldl_cons, foldl_dirCacheBuildStep records l, dirCacheBuildStep]
    by_cases h : (records i).inodeNo = 0#64 <;> simp [h]

theorem dirCacheBuild_used (c : DirCache) (records : Nat → DirRecord) :
    (dirCacheBuild c records).used = c.used ++ liveEntries records := by
  rw [dirCacheBuild, foldl_dirCacheBuildStep, liveEntries]

theorem dirCacheBuild_free (c : DirCache) (records : Nat → DirRecord) :
    (dirCacheBuild c records).free.map CacheEntry.entryNo
      = c.free.map CacheEntry.entryNo ++ freeNumbers records := by
  rw [dirCacheBuild, foldl_dirCacheBuildStep, freeNumbers]
  simp [Function.comp_def]

/-- **A cache just built agrees with the block it was built from.** -/
theorem dirCacheBuild_agrees (records : Nat → DirRecord) :
    (dirCacheBuild simplefsCacheAlloc records).Agrees records where
  used := by rw [dirCacheBuild_used, simplefsCacheAlloc, List.nil_append]
  free := by rw [dirCacheBuild_free, simplefsCacheAlloc, List.map_nil, List.nil_append]

/-! ## 4. The two moves -/

namespace DirCache.Agrees

variable {c : DirCache} {r r' : Nat → DirRecord}

theorem free_entry (hc : c.Agrees r) {e : CacheEntry} (he : e ∈ c.free) :
    e.entryNo < recordsPerBlock ∧ (r e.entryNo).inodeNo = 0#64 :=
  mem_freeNumbers.mp (hc.free.mem_iff.mp (List.mem_map_of_mem he))

theorem used_entry (hc : c.Agrees r) {e : CacheEntry} (he : e ∈ c.used) :
    e.entryNo < recordsPerBlock ∧ (r e.entryNo).inodeNo ≠ 0#64 ∧ e.record = r e.entryNo :=
  mem_liveEntries.mp (hc.used ▸ he)

/-- The two lists together hold one entry for each record. -/
theorem entryNo_perm (hc : c.Agrees r) :
    ((c.used ++ c.free).map CacheEntry.entryNo).Perm (List.range recordsPerBlock) := by
  have hused : c.used.map CacheEntry.entryNo =
      (List.range recordsPerBlock).filter fun i => (r i).inodeNo ≠ 0#64 := by
    rw [hc.used, liveEntries, List.map_map]
    exact List.map_id _
  have hfree : (c.free.map CacheEntry.entryNo).Perm
      ((List.range recordsPerBlock).filter fun i => !decide ((r i).inodeNo ≠ 0#64)) := by
    refine hc.free.trans (List.Perm.of_eq (List.filter_congr fun i _ => ?_))
    rw [decide_not, Bool.not_not]
  rw [List.map_append, hused]
  exact (List.Perm.append_left _ hfree).trans (List.filter_append_perm _ _)

/-- A directory with a record that is not live has a free entry. -/
theorem free_ne_nil_iff (hc : c.Agrees r) :
    c.free ≠ [] ↔ ∃ i, i < recordsPerBlock ∧ (r i).inodeNo = 0#64 := by
  constructor
  · intro h
    obtain ⟨e, l, hl⟩ := List.exists_cons_of_ne_nil h
    have he := hc.free_entry (e := e) (by rw [hl]; exact List.mem_cons_self)
    exact ⟨e.entryNo, he⟩
  · rintro ⟨i, hi⟩ hnil
    have := hc.free.mem_iff.mpr (mem_freeNumbers.mpr hi)
    rw [hnil] at this
    exact absurd this List.not_mem_nil

/-- **`create`'s move.**  Record `e.entryNo` becomes live; its entry, with a copy of the new
record, goes from the head of `free` to its place in `used`. -/
theorem take (hc : c.Agrees r) {e e' : CacheEntry} {l : List CacheEntry}
    (hfree : c.free = e :: l) (hno : e'.entryNo = e.entryNo)
    (hlive : (r' e.entryNo).inodeNo ≠ 0#64) (hrec : e'.record = r' e.entryNo)
    (hsame : ∀ i, i < recordsPerBlock → i ≠ e.entryNo → r' i = r i) :
    (⟨c.dirChildrenCount, cacheEntryInsert c.used e', l⟩ : DirCache).Agrees r' := by
  have hmem : e ∈ c.free := by rw [hfree]; exact List.mem_cons_self
  obtain ⟨hlt, hzero⟩ := hc.free_entry hmem
  have hinc : Increasing c.used := hc.used ▸ increasing_liveEntries r
  have hne : ∀ x ∈ c.used, x.entryNo ≠ e'.entryNo := by
    intro x hx heq
    obtain ⟨-, hx, -⟩ := hc.used_entry hx
    rw [heq, hno] at hx
    exact hx hzero
  refine ⟨(hinc.cacheEntryInsert hne).eq_of_mem_iff (increasing_liveEntries r') fun x => ?_, ?_⟩
  · rw [mem_cacheEntryInsert, hc.used, mem_liveEntries, mem_liveEntries]
    constructor
    · rintro (rfl | ⟨hx, hl, hxr⟩)
      · rw [hno]; exact ⟨hlt, hlive, hrec⟩
      · have hxe : x.entryNo ≠ e.entryNo := by rintro h; rw [h] at hl; exact hl hzero
        rw [hsame _ hx hxe]; exact ⟨hx, hl, hxr⟩
    · rintro ⟨hx, hl, hxr⟩
      by_cases hxe : x.entryNo = e.entryNo
      · exact Or.inl (CacheEntry.ext (by rw [hxr, hxe, hrec]) (by rw [hxe, hno]))
      · rw [hsame _ hx hxe] at hl hxr; exact Or.inr ⟨hx, hl, hxr⟩
  · have hnd : (c.free.map CacheEntry.entryNo).Nodup :=
      hc.free.nodup_iff.mpr (nodup_freeNumbers r)
    rw [hfree, List.map_cons, List.nodup_cons] at hnd
    refine (List.perm_ext_iff_of_nodup hnd.2 (nodup_freeNumbers r')).mpr fun i => ?_
    have hi : i ∈ freeNumbers r ↔ i = e.entryNo ∨ i ∈ l.map CacheEntry.entryNo := by
      rw [← hc.free.mem_iff, hfree, List.map_cons, List.mem_cons]
    rw [mem_freeNumbers] at hi ⊢
    constructor
    · intro hil
      obtain ⟨hi15, hi0⟩ := hi.mpr (Or.inr hil)
      have hie : i ≠ e.entryNo := by rintro rfl; exact hnd.1 hil
      exact ⟨hi15, by rw [hsame i hi15 hie]; exact hi0⟩
    · rintro ⟨hi15, hi0⟩
      have hie : i ≠ e.entryNo := by rintro rfl; exact hlive hi0
      rw [hsame i hi15 hie] at hi0
      exact (hi.mp ⟨hi15, hi0⟩).resolve_left hie

/-- **`unlink`'s move.**  Record `e.entryNo` is cleared; its entry goes from `used` to the head
of `free`. -/
theorem give (hc : c.Agrees r) {e : CacheEntry} (he : e ∈ c.used)
    (hdead : (r' e.entryNo).inodeNo = 0#64)
    (hsame : ∀ i, i < recordsPerBlock → i ≠ e.entryNo → r' i = r i) (n : BitVec 64) :
    (⟨n, listDel e c.used, e :: c.free⟩ : DirCache).Agrees r' := by
  obtain ⟨hlt, hlive, hrec⟩ := hc.used_entry he
  have hinc : Increasing c.used := hc.used ▸ increasing_liveEntries r
  refine ⟨(hinc.listDel e).eq_of_mem_iff (increasing_liveEntries r') fun x => ?_, ?_⟩
  · rw [hinc.mem_listDel, hc.used, mem_liveEntries, mem_liveEntries]
    constructor
    · rintro ⟨⟨hx, hl, hxr⟩, hxe⟩
      rw [hsame _ hx hxe]; exact ⟨hx, hl, hxr⟩
    · rintro ⟨hx, hl, hxr⟩
      have hxe : x.entryNo ≠ e.entryNo := by rintro h; rw [h] at hl; exact hl hdead
      rw [hsame _ hx hxe] at hl hxr
      exact ⟨⟨hx, hl, hxr⟩, hxe⟩
  · have hnd : (c.free.map CacheEntry.entryNo).Nodup :=
      hc.free.nodup_iff.mpr (nodup_freeNumbers r)
    have hnot : e.entryNo ∉ c.free.map CacheEntry.entryNo := by
      rw [hc.free.mem_iff, mem_freeNumbers]
      exact fun h => hlive h.2
    refine (List.perm_ext_iff_of_nodup (List.nodup_cons.mpr ⟨hnot, hnd⟩)
      (nodup_freeNumbers r')).mpr fun i => ?_
    rw [List.mem_cons, hc.free.mem_iff, mem_freeNumbers, mem_freeNumbers]
    by_cases hie : i = e.entryNo
    · subst hie; exact iff_of_true (Or.inl rfl) ⟨hlt, hdead⟩
    · constructor
      · rintro (h | ⟨hi15, hi0⟩)
        · exact absurd h hie
        · exact ⟨hi15, by rw [hsame i hi15 hie]; exact hi0⟩
      · rintro ⟨hi15, hi0⟩
        exact Or.inr ⟨hi15, by rw [← hsame i hi15 hie]; exact hi0⟩

/-! ## 5. Looking a name up -/

/-- **The cache answers for the block**: `used_cache_entry_get` finds what a front-to-back scan
of the live records finds. -/
theorem usedCacheEntryGet_eq (hc : c.Agrees r) (name : Name) :
    usedCacheEntryGet c name = ((List.range recordsPerBlock).find? fun i =>
      (r i).inodeNo ≠ 0#64 ∧ (r i).filename = name.bytes).map fun i => ⟨r i, i⟩ := by
  rw [usedCacheEntryGet, hc.used, liveEntries, List.find?_map, List.find?_filter]
  refine congrArg (Option.map _) (congrArg (fun p => List.find? p _) (funext fun i => ?_))
  simp only [Function.comp_apply, Bool.decide_and, decide_not, beq_eq_decide, Bool.decide_eq_true]

theorem usedCacheEntryGet_some (hc : c.Agrees r) {name : Name} {e : CacheEntry}
    (h : usedCacheEntryGet c name = some e) :
    e ∈ c.used ∧ e.entryNo < recordsPerBlock ∧ (r e.entryNo).inodeNo ≠ 0#64 ∧
      e.record = r e.entryNo ∧ (r e.entryNo).filename = name.bytes := by
  have hmem : e ∈ c.used := List.mem_of_find?_eq_some h
  have hname : e.record.filename = name.bytes := by simpa using List.find?_some h
  obtain ⟨h1, h2, h3⟩ := hc.used_entry hmem
  exact ⟨hmem, h1, h2, h3, h3 ▸ hname⟩

theorem usedCacheEntryGet_none (hc : c.Agrees r) {name : Name}
    (h : usedCacheEntryGet c name = none) {i : Nat} (hi : i < recordsPerBlock)
    (hl : (r i).inodeNo ≠ 0#64) : (r i).filename ≠ name.bytes := by
  have hmem : (⟨r i, i⟩ : CacheEntry) ∈ c.used := by
    rw [hc.used, mem_liveEntries]; exact ⟨hi, hl, rfl⟩
  simpa using List.find?_eq_none.mp h _ hmem

end DirCache.Agrees

end Simplefs
