/-
# Listing a directory, call by call

The whole of `simplefs_iterate`: the buffer that `dir_emit` fills may be too small, and each of the
allocations behind `simplefs_cache_alloc` and `dir_cache_build` may fail.  The function takes
notice of neither.

What `dir_emit` returns is dropped and `ctx->pos` moves on for every entry, emitted or not; the
next call sees that it is not zero and takes the listing for finished.  The check after
`simplefs_cache_alloc` looks at the old `d_fsdata`, which is `NULL` there, and what
`dir_cache_build` returns is dropped; so an error pointer is used as a cache, and a cache that
lacks entries is kept as if it were whole.

Where there is memory and room enough this is `iterate` (`simplefsIterateWith_iterate`).
-/
import Simplefs.Room

namespace Simplefs

open Prog (LockState)

/-! ## 1. The code -/

/-- There is no memory. -/
abbrev ENOMEM : Int := 12

/-- What `d_fsdata` can be. -/
inductive FsData
  | null
  | errPtr (err : Int)
  | cache (c : DirCache)

/-- `IS_ERR`. -/
def FsData.isErr : FsData → Bool
  | errPtr _ => true
  | _ => false

/-- The `d_fsdata` of a dentry as the rest of the development has it. -/
def FsData.ofOption : Option DirCache → FsData
  | none => null
  | some c => cache c

/-- An error pointer is dereferenced. -/
inductive Oops
  | errPtr
  deriving DecidableEq

/-- Which allocations succeed: that of the cache, and that of each entry. -/
structure Memory where
  cache : Bool
  entry : Nat → Bool

/-- All of them do. -/
def Memory.enough : Memory := ⟨true, fun _ => true⟩

/-- `simplefs_cache_alloc`. -/
def simplefsCacheAllocWith (m : Memory) : FsData :=
  if m.cache then .cache simplefsCacheAlloc else .errPtr (-ENOMEM)

/-- The loop of `dir_cache_build`: what it returns, and what it has made of the cache. -/
def dirCacheBuildLoop (m : Memory) (records : Nat → DirRecord) :
    List Nat → FsData → Except Oops (Int × FsData)
  | [], d => .ok (0, d)
  | i :: l, d =>
    if m.entry i then
      match d with
      | .cache c => dirCacheBuildLoop m records l (.cache (dirCacheBuildStep records c i))
      | .null | .errPtr _ => .error .errPtr
    else .ok (-ENOMEM, d)

/-- `dir_cache_build`. -/
def dirCacheBuildWith (m : Memory) (records : Nat → DirRecord) (d : FsData) :
    Except Oops (Int × FsData) := dirCacheBuildLoop m records (List.range recordsPerBlock) d

/-- What the caller gets of an entry: 255 bytes, and the inode number. -/
structure Emitted where
  name : List UInt8
  ino : BitVec 64
  deriving DecidableEq

/-- The name, up to its first NUL. -/
def Emitted.cName (e : Emitted) : List UInt8 := e.name.takeWhile fun b => b ≠ 0

/-- `struct dir_context`: the position, how many more entries the buffer takes (they are all of
one length), and what is in it. -/
structure DirContext where
  pos : Nat
  room : Nat
  emitted : List Emitted

/-- `dir_emit`. -/
def dirEmit (ctx : DirContext) (name : List UInt8) (ino : BitVec 64) : Bool × DirContext :=
  match ctx.room with
  | 0 => (false, ctx)
  | n + 1 => (true, { ctx with room := n, emitted := ctx.emitted ++ [⟨name, ino⟩] })

/-- `SIMPLEFS_FILENAME_MAXLEN` bytes from `record.filename`. -/
def DirRecord.nameBytes (r : DirRecord) : List UInt8 := (List.range' 0 255).map r.raw

/-- The loop over the used entries. -/
def emitEntries : List CacheEntry → DirContext → DirContext
  | [], ctx => ctx
  | e :: l, ctx =>
    let (_stored, ctx) := dirEmit ctx e.record.nameBytes e.record.inodeNo
    emitEntries l { ctx with pos := ctx.pos + 264 }

/-- `simplefs_iterate` once it has a cache to install: what it returns, the new `d_fsdata`, and
the context. -/
def iterateWith (d : FsData) (ctx : DirContext) : Except Oops (Int × FsData × DirContext) :=
  if ctx.pos ≠ 0 then .ok (0, d, ctx)
  else match d with
    | .cache c => .ok (0, d, emitEntries c.used ctx)
    | .null | .errPtr _ => .error .errPtr

/-- `simplefs_iterate`, on a directory whose block holds `records`. -/
def simplefsIterateWith (m : Memory) (records : Nat → DirRecord) (fsdata : FsData)
    (ctx : DirContext) : Except Oops (Int × FsData × DirContext) :=
  match fsdata with
  | .null =>
    let dirCache := simplefsCacheAllocWith m
    if fsdata.isErr then .ok (-EINVAL, fsdata, ctx)
    else
      match dirCacheBuildWith m records dirCache with
      | .error e => .error e
      | .ok (_ret, dirCache) => iterateWith dirCache ctx
  | .errPtr _ | .cache _ => iterateWith fsdata ctx

section

variable {m : Memory} {records : Nat → DirRecord}

/-! ## 2. With memory and room enough -/

theorem emitEntries_emitted (l : List CacheEntry) (ctx : DirContext) :
    (emitEntries l ctx).emitted = ctx.emitted ++
      (l.take ctx.room).map fun e => ⟨e.record.nameBytes, e.record.inodeNo⟩ := by
  induction l generalizing ctx with
  | nil => simp [emitEntries]
  | cons e l ih =>
    obtain ⟨pos, room, emitted⟩ := ctx
    cases room with
    | zero => simp [emitEntries, dirEmit, ih]
    | succ n => simp [emitEntries, dirEmit, ih]

/-- The position moves past every entry, whether or not there was room for it. -/
theorem emitEntries_pos (l : List CacheEntry) (ctx : DirContext) :
    (emitEntries l ctx).pos = ctx.pos + 264 * l.length := by
  induction l generalizing ctx with
  | nil => simp [emitEntries]
  | cons e l ih =>
    obtain ⟨pos, room, emitted⟩ := ctx
    cases room with
    | zero => simp [emitEntries, dirEmit, ih, Nat.mul_succ, Nat.add_assoc, Nat.add_comm 264]
    | succ n => simp [emitEntries, dirEmit, ih, Nat.mul_succ, Nat.add_assoc, Nat.add_comm 264]

/-- The number of entries in a cache. -/
def DirCache.size (c : DirCache) : Nat := c.used.length + c.free.length

/-- **The loop stops at the first allocation that fails.**  Every turn before adds an entry. -/
theorem dirCacheBuildLoop_cache (l : List Nat) (c : DirCache) : ∃ ret c',
    dirCacheBuildLoop m records l (.cache c) = .ok (ret, .cache c') ∧
      ((∀ i ∈ l, m.entry i = true) → c' = l.foldl (dirCacheBuildStep records) c) ∧
      (¬ (∀ i ∈ l, m.entry i = true) → c'.size < c.size + l.length) := by
  induction l generalizing c with
  | nil => exact ⟨0, c, rfl, fun _ => rfl, fun h => absurd (fun _ hi => absurd hi (by simp)) h⟩
  | cons i l ih =>
    rw [dirCacheBuildLoop]
    cases hi : m.entry i with
    | false =>
      refine ⟨_, c, rfl, fun h => ?_, fun _ => ?_⟩
      · have := h i List.mem_cons_self
        rw [hi] at this
        cases this
      · rw [List.length_cons]
        omega
    | true =>
      obtain ⟨ret, c', hloop, hall, hsome⟩ := ih (dirCacheBuildStep records c i)
      have hsize : (dirCacheBuildStep records c i).size = c.size + 1 := by
        rw [dirCacheBuildStep]
        split <;> simp [DirCache.size] <;> omega
      refine ⟨ret, c', hloop, fun h => ?_, fun h => ?_⟩
      · rw [List.foldl_cons]
        exact hall fun j hj => h j (List.mem_cons_of_mem _ hj)
      · have := hsome fun h' => h fun j hj => by
          rcases List.mem_cons.mp hj with rfl | hj
          · exact hi
          · exact h' j hj
        rw [List.length_cons]
        omega

/-- **Where every allocation succeeds** the whole cache is installed. -/
theorem simplefsIterateWith_enough (hc : m.cache = true)
    (he : ∀ i, i < recordsPerBlock → m.entry i = true) (o : Option DirCache) (ctx : DirContext) :
    simplefsIterateWith m records (.ofOption o) ctx =
      .ok (0, .cache (o.getD (dirCacheBuild simplefsCacheAlloc records)),
        if ctx.pos ≠ 0 then ctx
        else emitEntries (o.getD (dirCacheBuild simplefsCacheAlloc records)).used ctx) := by
  have hfinish : ∀ c, iterateWith (.cache c) ctx = .ok (0, .cache c,
      if ctx.pos ≠ 0 then ctx else emitEntries c.used ctx) := by
    intro c
    rw [iterateWith]
    split <;> rfl
  cases o with
  | some c => exact hfinish c
  | none =>
    obtain ⟨ret, c, hloop, hall, -⟩ := @dirCacheBuildLoop_cache m records
      (List.range recordsPerBlock) simplefsCacheAlloc
    have hbuild : dirCacheBuildWith m records (simplefsCacheAllocWith m) =
        .ok (ret, .cache (dirCacheBuild simplefsCacheAlloc records)) := by
      rw [dirCacheBuildWith, simplefsCacheAllocWith, if_pos hc, hloop,
        hall fun i hi => he i (List.mem_range.mp hi), dirCacheBuild]
    simp only [simplefsIterateWith, FsData.ofOption, FsData.isErr, hbuild, hfinish,
      Option.getD_none, Bool.false_eq_true, if_false]

end

/-- **`iterate` is `simplefs_iterate` with memory and room enough.** -/
theorem simplefsIterateWith_iterate {fs : Fs} {d : Nat} {x : Dentry} (hx : fs.dentries d = some x)
    {ctx : DirContext} (hroom : (dirCacheOf fs x).used.length ≤ ctx.room) : ∃ ctx' rs,
    simplefsIterateWith .enough (fs.dev.record x.inode.block) (.ofOption x.fsdata) ctx =
      .ok (0, .cache (dirCacheOf fs x), ctx') ∧
    iterate d ctx.pos fs =
      .ok ((ctx'.pos, rs), fs.setDentry d { x with fsdata := some (dirCacheOf fs x) }) ∧
    ctx'.emitted = ctx.emitted ++ rs.map fun r => ⟨r.nameBytes, r.inodeNo⟩ := by
  have hcache : x.fsdata.getD (dirCacheBuild simplefsCacheAlloc (fs.dev.record x.inode.block)) =
      dirCacheOf fs x := rfl
  rw [simplefsIterateWith_enough rfl (fun _ _ => rfl), iterate_eq hx ctx.pos, hcache]
  by_cases hpos : ctx.pos ≠ 0
  · rw [if_pos hpos, if_pos hpos]
    exact ⟨ctx, [], rfl, rfl, by simp⟩
  · rw [if_neg hpos, if_neg hpos]
    refine ⟨_, (dirCacheOf fs x).used.map CacheEntry.record, rfl, ?_, ?_⟩
    · rw [emitEntries_pos]
    · rw [emitEntries_emitted, List.take_of_length_le hroom, List.map_map]
      rfl

/-! ## 3. When the whole cache is installed -/

/-- **The cache is whole**: one entry for every record, and the live ones in the used list. -/
structure DirCache.Whole (c : DirCache) (records : Nat → DirRecord) : Prop where
  entries : ((c.used ++ c.free).map CacheEntry.entryNo).Perm (List.range recordsPerBlock)
  live : ∀ j, j < recordsPerBlock → (records j).inodeNo ≠ 0#64 → ⟨records j, j⟩ ∈ c.used

/-- **A cache is installed whole or not at all**: the call fails and leaves `d_fsdata` `NULL`, or
it leaves a whole cache. -/
def WholeOrNot (records : Nat → DirRecord) (r : Except Oops (Int × FsData × DirContext)) : Prop :=
  ∃ ret d ctx, r = .ok (ret, d, ctx) ∧ (ret < 0 ∧ d = .null ∨ ∃ c, d = .cache c ∧ c.Whole records)

/-- A whole cache has as many entries as the block has records. -/
theorem DirCache.Whole.size_eq {c : DirCache} {records : Nat → DirRecord} (h : c.Whole records) :
    c.size = recordsPerBlock := by
  have := h.entries.length_eq
  rwa [List.length_map, List.length_append, List.length_range] at this

/-- Without a failing allocation the cache is whole. -/
theorem dirCacheBuild_whole (records : Nat → DirRecord) :
    (dirCacheBuild simplefsCacheAlloc records).Whole records := by
  have hag := dirCacheBuild_agrees records
  refine ⟨?_, fun j hj hne => ?_⟩
  · exact hag.entryNo_perm
  · rw [hag.used]
    exact mem_liveEntries.mpr ⟨hj, hne, rfl⟩

/-- An error pointer is not a cache. -/
theorem iterateWith_errPtr (records : Nat → DirRecord) (err : Int) (ctx : DirContext) :
    ¬ WholeOrNot records (iterateWith (.errPtr err) ctx) := by
  rintro ⟨ret, d, ctx', hr, hd⟩
  rw [iterateWith] at hr
  split at hr
  · cases hr
    rcases hd with ⟨-, hd⟩ | ⟨c, hd, -⟩ <;> cases hd
  · cases hr

/-- A directory that is whole, or not there at all, has had all of its allocations. -/
theorem WholeOrNot.allocated {m : Memory} {records : Nat → DirRecord} {ctx : DirContext}
    (h : WholeOrNot records (simplefsIterateWith m records .null ctx)) :
    m.cache = true ∧ ∀ i, i < recordsPerBlock → m.entry i = true := by
  simp only [simplefsIterateWith, FsData.isErr, Bool.false_eq_true, if_false,
    simplefsCacheAllocWith, dirCacheBuildWith] at h
  cases hc : m.cache with
  | false =>
    -- the first allocated entry is linked into an error pointer; if there is none, it is used
    rw [hc] at h
    cases h0 : m.entry 0 with
    | true =>
      obtain ⟨ret, d, ctx', hr, -⟩ := h
      simp [List.range_succ_eq_map, dirCacheBuildLoop, h0] at hr
    | false =>
      simp only [Bool.false_eq_true, if_false, List.range_succ_eq_map, dirCacheBuildLoop, h0] at h
      exact absurd h (iterateWith_errPtr _ _ _)
  | true =>
    refine ⟨rfl, fun i hi => ?_⟩
    obtain ⟨ret, c, hloop, -, hsome⟩ := @dirCacheBuildLoop_cache m records
      (List.range recordsPerBlock) simplefsCacheAlloc
    rw [hc] at h
    simp only [if_true, hloop] at h
    by_contra hne
    have hlt := hsome fun hall => hne (hall i (List.mem_range.mpr hi))
    obtain ⟨ret', d, ctx', hr, hd⟩ := h
    obtain rfl : d = .cache c := by
      rw [iterateWith] at hr
      split at hr <;> cases hr <;> rfl
    rcases hd with ⟨-, hd⟩ | ⟨c', hd, hw⟩
    · cases hd
    · cases hd
      rw [hw.size_eq, List.length_range] at hlt
      exact absurd hlt (by simp [DirCache.size, simplefsCacheAlloc])

/-- **Whole or not at all exactly when no allocation fails**, on any block and in any call. -/
theorem wholeOrNot_iff (m : Memory) (records : Nat → DirRecord) (ctx : DirContext) :
    WholeOrNot records (simplefsIterateWith m records .null ctx) ↔
      m.cache = true ∧ ∀ i, i < recordsPerBlock → m.entry i = true := by
  constructor
  · exact WholeOrNot.allocated
  · rintro ⟨hc, he⟩
    have hrun := @simplefsIterateWith_enough m records hc he none ctx
    rw [Option.getD_none] at hrun
    exact ⟨_, _, _, hrun, Or.inr ⟨_, rfl, dirCacheBuild_whole records⟩⟩

/-- **One entry too few**: in the root of a fresh image the allocation for record 0 fails.  The call
returns 0 and leaves a cache without the file that is there. -/
theorem freshDevice_not_wholeOrNot : ¬ WholeOrNot (freshDevice.record 2)
    (simplefsIterateWith ⟨true, fun i => i != 0⟩ (freshDevice.record 2) .null ⟨0, 15, []⟩) := by
  intro h
  exact absurd (h.allocated.2 0 (by decide)) (by decide)

/-! ## 4. When a listing is complete -/

/-- Calls one after the other on one open directory, each with a buffer for so many entries:
what each of them emits.  The position goes from call to call; memory is not lacking. -/
def listCalls (records : Nat → DirRecord) :
    FsData → Nat → List Nat → Except Oops (List (List Emitted))
  | _, _, [] => .ok []
  | fsdata, pos, room :: rooms =>
    match simplefsIterateWith .enough records fsdata ⟨pos, room, []⟩ with
    | .error e => .error e
    | .ok (_, fsdata, ctx) =>
      match listCalls records fsdata ctx.pos rooms with
      | .error e => .error e
      | .ok outs => .ok (ctx.emitted :: outs)

/-- **Every used entry is emitted exactly once** over the whole sequence, with its number and its
name, and nothing else is. -/
def ListedOnce (used : List CacheEntry) (r : Except Oops (List (List Emitted))) : Prop :=
  ∃ outs, r = .ok outs ∧ (outs.flatten.map fun e => (e.ino, e.cName)).Perm
    (used.map fun e => (e.record.inodeNo, e.record.filename))

section

variable {records : Nat → DirRecord} {o : Option DirCache}

/-- What is read of a name in 255 bytes. -/
theorem cName_nameBytes (r : DirRecord) (ino : BitVec 64) :
    Emitted.cName ⟨r.nameBytes, ino⟩ = r.filename.take 255 := by
  rw [Emitted.cName, DirRecord.nameBytes, ByteMem.takeWhile_map_range', DirRecord.filename,
    ByteMem.cstr_take _ _ (by omega)]

/-- **After the first call nothing is emitted**: the position says that there is nothing left, or
there has been nothing. -/
theorem listCalls_done {c : DirCache} {pos : Nat} (h : pos ≠ 0 ∨ c.used = []) (rooms : List Nat) :
    listCalls records (.cache c) pos rooms = .ok (List.replicate rooms.length []) := by
  induction rooms with
  | nil => rfl
  | cons room rooms ih =>
    have hcall : simplefsIterateWith .enough records (.cache c) ⟨pos, room, []⟩ =
        .ok (0, .cache c, ⟨pos, room, []⟩) := by
      rw [simplefsIterateWith, iterateWith]
      rcases h with h | h
      · rw [if_pos h]
      · rw [h, emitEntries]
        split <;> rfl
    rw [listCalls, hcall]
    simp only [ih, List.length_cons, List.replicate_succ]

/-- **What a sequence of calls emits**: as much as the first buffer takes, and no more. -/
theorem listCalls_eq (room : Nat) (rooms : List Nat) :
    listCalls records (.ofOption o) 0 (room :: rooms) =
      .ok (((o.getD (dirCacheBuild simplefsCacheAlloc records)).used.take room).map
        (fun e => ⟨e.record.nameBytes, e.record.inodeNo⟩) :: List.replicate rooms.length []) := by
  obtain ⟨c, hc⟩ : ∃ c, c = o.getD (dirCacheBuild simplefsCacheAlloc records) := ⟨_, rfl⟩
  have hcall := @simplefsIterateWith_enough .enough records rfl (fun _ _ => rfl) o ⟨0, room, []⟩
  rw [← hc] at hcall ⊢
  rw [listCalls, hcall]
  simp only [ne_eq, not_true_eq_false, if_false]
  have hdone : (emitEntries c.used ⟨0, room, []⟩).pos ≠ 0 ∨ c.used = [] := by
    rw [emitEntries_pos]
    rcases hu : c.used with _ | ⟨e, l⟩
    · exact Or.inr rfl
    · exact Or.inl (by simp)
  rw [listCalls_done hdone rooms]
  simp only [emitEntries_emitted, List.nil_append]

/-- The numbers and names that it emits. -/
theorem listCalls_names (room : Nat) (rooms : List Nat) : ∃ outs,
    listCalls records (.ofOption o) 0 (room :: rooms) = .ok outs ∧
    outs.flatten.map (fun e => (e.ino, e.cName)) =
      ((o.getD (dirCacheBuild simplefsCacheAlloc records)).used.take room).map
        fun e => (e.record.inodeNo, e.record.filename.take 255) := by
  refine ⟨_, listCalls_eq room rooms, ?_⟩
  rw [List.flatten_cons, List.flatten_replicate_nil, List.append_nil, List.map_map]
  refine List.map_congr_left fun e _ => ?_
  rw [Function.comp_apply, cName_nameBytes]

/-- A complete listing had room for all the entries in its first buffer. -/
theorem ListedOnce.length_le {room : Nat} {rooms : List Nat}
    (h : ListedOnce (o.getD (dirCacheBuild simplefsCacheAlloc records)).used
      (listCalls records (.ofOption o) 0 (room :: rooms))) :
    (o.getD (dirCacheBuild simplefsCacheAlloc records)).used.length ≤ room := by
  obtain ⟨outs, hok, hperm⟩ := h
  obtain ⟨outs', hok', hnames⟩ := listCalls_names room rooms
  cases hok.symm.trans hok'
  have hlen := hperm.length_eq
  rw [hnames, List.length_map, List.length_map, List.length_take] at hlen
  omega

/-- **A listing is complete exactly when** the first buffer has room for all the entries, and no
name is longer than what is emitted of it; it makes no difference how it is continued. -/
theorem listedOnce_iff (records : Nat → DirRecord) (o : Option DirCache) (room : Nat)
    (rooms : List Nat) :
    ListedOnce (o.getD (dirCacheBuild simplefsCacheAlloc records)).used
        (listCalls records (.ofOption o) 0 (room :: rooms)) ↔
      (o.getD (dirCacheBuild simplefsCacheAlloc records)).used.length ≤ room ∧
        ∀ e ∈ (o.getD (dirCacheBuild simplefsCacheAlloc records)).used,
          e.record.filename.length ≤ 255 := by
  constructor
  · intro h
    refine ⟨h.length_le, fun e he => ?_⟩
    obtain ⟨outs, hok, hperm⟩ := h
    obtain ⟨outs', hok', hnames⟩ := listCalls_names room rooms
    cases hok.symm.trans hok'
    rw [hnames] at hperm
    have hmem := hperm.mem_iff.mpr (List.mem_map_of_mem he)
    obtain ⟨e', -, he'⟩ := List.mem_map.mp hmem
    rw [← (Prod.mk.inj he').2, List.length_take]
    exact Nat.min_le_left _ _
  · rintro ⟨hroom, hshort⟩
    obtain ⟨outs, hok, hnames⟩ := listCalls_names room rooms
    refine ⟨outs, hok, ?_⟩
    rw [hnames, List.take_of_length_le hroom]
    refine List.Perm.of_eq (List.map_congr_left fun e he => ?_)
    rw [List.take_of_length_le (hshort e he)]

end

/-- The root with one more file in it has two entries. -/
theorem filledFs_two : (filledFs 1).rootTest (aName 1) (fun c => c.used.length == 2) = true := by
  decide +kernel

/-- **Buffers for one entry each**: the second call emits nothing, and the second file is never
listed. -/
theorem filledFs_not_listedOnce : ∃ x c out,
    DefinedRun ⟨LockState.free, .offline freshDevice⟩ ⟨LockState.free, .mounted (filledFs 1)⟩ ∧
    (filledFs 1).DirAt 0 x ∧ x.fsdata = some c ∧
    listCalls ((filledFs 1).dev.record x.inode.block) (.ofOption x.fsdata) 0 [1, 1] =
      .ok [out, []] ∧
    ¬ ListedOnce c.used (listCalls ((filledFs 1).dev.record x.inode.block) (.ofOption x.fsdata) 0
      [1, 1]) := by
  have hrun := DefinedRun.filled (show 1 ≤ 14 by omega)
  have hi := (hrun.inv (sysInv_mkfs mkfs_fresh)).mounted _ rfl
  obtain ⟨x, c, hx, hc, hq, -⟩ := Fs.rootTest_sound hi filledFs_two
  refine ⟨x, c, _, hrun, hx, hc, listCalls_eq 1 [1], fun h => ?_⟩
  have htwo : c.used.length = 2 := by simpa using hq
  rw [hc] at h
  have hroom : c.used.length ≤ 1 := ListedOnce.length_le (o := some c) h
  omega

end Simplefs
