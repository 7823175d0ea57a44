/-
# What a call does to the paths

A path is walked as the VFS walks it: each directory on the way is listed and its name looked up.
A call that succeeds makes the paths it is meant to make or takes away the ones it is meant to
take away, and every other path leads where it led.  The paths are those of the volume
(`TreeInv.resolve_node`), so this is what `FileTree.lean` says of a node that is linked or
unlinked.
-/
import Simplefs.Refinement

namespace Simplefs

open Prog (run LockState)

/-- The slot of the inode that a walk ends at. -/
def Fs.pathSlot (fs : Fs) (path : List Name) : Option Nat :=
  (fs.walk path 0).bind fun (e, fs') => (fs'.dentries e).map Dentry.slot

/-- What a request that is answered does to the paths. -/
def PathsAfter (fs fs' : Fs) : Request × Reply → Prop
  | (.create d name _, .status ret) =>
    if ret = 0 then
      ∃ i, (∀ path, fs.pathSlot path ≠ some i) ∧ ∀ path j, fs'.pathSlot path = some j ↔
        fs.pathSlot path = some j ∨
          j = i ∧ ∃ up, path = up ++ [name] ∧ fs.pathSlot up = some d
    else ∀ path, fs'.pathSlot path = fs.pathSlot path
  | (.unlink d name _, _) => ∃ i,
      (∀ path, fs.pathSlot path = some i ↔ ∃ up, path = up ++ [name] ∧ fs.pathSlot up = some d) ∧
      ∀ path j, fs'.pathSlot path = some j ↔ fs.pathSlot path = some j ∧ j ≠ i
  | _ => ∀ path, fs'.pathSlot path = fs.pathSlot path

section Paths

variable {fs fs' : Fs} {x : Dentry} {d i : Nat} {name : Name}

/-- The root is there. -/
theorem FsInv.root_live (hi : FsInv fs Shadow.none) : fs.dev.Live 0 := by
  obtain ⟨x, hx, hx0⟩ := hi.root
  exact hx0 ▸ (hi.live 0 x hx).1

/-- **A walk follows the tree.** -/
theorem FsInv.pathSlot (hi : FsInv fs Shadow.none) (path : List Name) :
    fs.pathSlot path = fs.volume.tree.resolve path 0 := by
  obtain ⟨x, hx, hx0⟩ := hi.root
  have hres : fs.volume.tree.resolve path 0 = fs.dev.resolve path 0 :=
    hi.tree.resolve_node hi.root_live
  have hwalk := hi.walk hx path
  rw [hx0] at hwalk
  rw [hres, Fs.pathSlot]
  cases hr : fs.dev.resolve path 0 with
  | none =>
    rw [hr] at hwalk
    rw [hwalk, Option.bind_none]
  | some k =>
    rw [hr] at hwalk
    obtain ⟨e, fs1, y, hw, -, -, hy, hk⟩ := hwalk
    rw [hw, Option.bind_some]
    change (fs1.dentries e).map Dentry.slot = some k
    rw [hy.1, Option.map_some, hk]

/-- A name of the tree is an entry of a directory. -/
theorem FsInv.entry_of_child (hi : FsInv fs Shadow.none)
    (h : fs.volume.tree.child d name = some i) :
    ∃ j, fs.dev.graph.Names d j i ∧ fs.dev.entry d j = some (name.bytes, i) := by
  have hdir : fs.dev.graph.dir d := by
    by_contra hno
    rw [FileTree.child, Fs.volume] at h
    by_cases hl : fs.dev.Live d
    · have hf : isDir (fs.dev.slot d).mode = false :=
        Bool.eq_false_iff.mpr fun hm => hno ⟨hl, hm⟩
      simp only [Device.node_file hl hf] at h
      cases h
    · simp only [Device.node_none hl] at h
      cases h
  have hc : fs.volume.tree.child d name = fs.dev.names (fs.dev.slot d).block name :=
    FileTree.DirAt.child ⟨_, Device.node_dir hdir⟩ name
  obtain ⟨j, hj⟩ := (hi.tree.names_eq_some_iff hdir).mp (hc ▸ h)
  exact ⟨j, ⟨hdir, _, hj⟩, hj⟩

/-- No two names lead to one node. -/
theorem FsInv.sole (hi : FsInv fs Shadow.none) (h : fs.volume.tree.child d name = some i) :
    fs.volume.tree.Sole d name i := by
  obtain ⟨j, hn, hj⟩ := hi.entry_of_child h
  intro e n he
  obtain ⟨j', hn', hj'⟩ := hi.entry_of_child he
  obtain ⟨rfl, rfl⟩ := hi.tree.wf.inj e j' d j i hn' hn
  rw [hj] at hj'
  exact ⟨rfl, (Name.ext (congrArg Prod.fst (Option.some.inj hj'))).symm⟩

/-- Where a path leads, there is a node. -/
theorem FsInv.live_of_pathSlot (hi : FsInv fs Shadow.none) {path : List Name}
    (h : fs.pathSlot path = some i) : fs.dev.Live i := by
  have hlive := hi.root_live
  rw [hi.pathSlot, show fs.volume.tree.resolve path 0 = _ from hi.tree.resolve_node hlive] at h
  exact (hi.tree.resolve_path hlive h).2

/-- Where there is no node, no slot is live. -/
theorem Fs.not_live (h : fs.volume.tree i = none) : ¬ fs.dev.Live i := by
  intro hl
  by_cases hm : isDir (fs.dev.slot i).mode = true
  · exact nomatch h.symm.trans (Device.node_dir ⟨hl, hm⟩)
  · exact nomatch h.symm.trans (Device.node_file hl (Bool.eq_false_iff.mpr hm))

/-- A file is no directory. -/
theorem Volume.not_dirAt {v : Volume} {data : FileData} (h : v.fileAt (.node i) = some data)
    (entries : Name → Option Nat) : ¬ v.tree.DirAt i entries := by
  rintro ⟨attr, hd⟩
  rw [Volume.fileAt, hd] at h
  cases h

theorem newNode_nameless (mode : BitVec 32) : FileTree.FileNode.Nameless (newNode mode) := by
  intro attr entries h name
  rw [newNode] at h
  split at h
  · cases h
    rfl
  · cases h

/-- **A step of the volume, seen along the paths.** -/
theorem FsInv.pathsAfter {l : Request × Reply} (hi : FsInv fs Shadow.none)
    (hi' : FsInv fs' Shadow.none) (h : fs.volume.Step l fs'.volume) : PathsAfter fs fs' l := by
  have hsame : (∀ d name, fs'.volume.tree.child d name = fs.volume.tree.child d name) →
      ∀ path, fs'.pathSlot path = fs.pathSlot path := by
    intro h path
    rw [hi.pathSlot, hi'.pathSlot, FileTree.resolve_congr h]
  have hkept : fs'.volume.tree = fs.volume.tree → ∀ path, fs'.pathSlot path = fs.pathSlot path :=
    fun h => hsame fun _ _ => by rw [h]
  generalize hv : fs'.volume = v' at h
  have htree := congrArg Volume.tree hv
  cases h with
  | create hd hname hdead hmode hroom =>
    rename_i d i name mode entries
    have hnl := Fs.not_live hdead
    have h0 : (0 : Nat) ≠ i := by
      rintro rfl
      exact hnl hi.root_live
    have hto : ∀ e n, fs.volume.tree.child e n ≠ some i := by
      intro e n hc
      obtain ⟨j, hn, -⟩ := hi.entry_of_child hc
      exact hnl (hi.tree.wf.target _ _ _ hn).1
    simp only [PathsAfter, if_true]
    refine ⟨i, fun path hp => hnl (hi.live_of_pathSlot hp), fun path j => ?_⟩
    simp only [hi.pathSlot, hi'.pathSlot]
    rw [htree]
    exact FileTree.resolve_link hd hname hdead (newNode_nameless _) hto path h0 j
  | createMode hmode =>
    simp only [PathsAfter, if_neg (show ¬ (- EINVAL : Int) = 0 by decide)]
    exact hkept htree
  | createFull hmode hroom =>
    simp only [PathsAfter, if_neg (show ¬ (- ENOSPC : Int) = 0 by decide)]
    exact hkept htree
  | unlink hd hname hfile =>
    rename_i d i e name entries data
    have hc : fs.volume.tree.child d name = some i := by rw [hd.child, hname]
    have hsole := hi.sole hc
    have h0 : (0 : Nat) ≠ i := by
      obtain ⟨j, hn, -⟩ := hi.entry_of_child hc
      exact (hi.tree.wf.target _ _ _ hn).2.1.symm
    refine ⟨i, fun path => ?_, fun path j => ?_⟩
    · simp only [hi.pathSlot]
      exact hsole.resolve_iff hc path h0
    · simp only [hi.pathSlot, hi'.pathSlot]
      rw [htree, FileTree.resolve_unlink hd hname (Volume.not_dirAt hfile) hsole path h0,
        Option.filter_eq_some_iff, decide_eq_true_eq]
  | write hfile => exact hsame fun d name => by rw [htree]; exact FileTree.child_setData _ _ _ _ _
  | list hd hl => exact hkept htree
  | listEnd hd hpos => exact hkept htree
  | lookup hd => exact hkept htree
  | read hfile => exact hkept htree
  | release => exact hkept htree
  | mount => exact hkept htree
  | umount =>
    exact hsame fun d name => by rw [htree]; exact FileTree.child_mapData _ _ _ _

/-- **What a call does to the paths**, in every state that the runs inside the defined cases
reach: a create that succeeds makes the paths that end at its name and no others, an unlink takes
away the paths that end at its name and no others, and nothing else changes where a path leads. -/
theorem Serves.paths {size : Nat} {dev : Device} {lk lk' : LockState Lock} {l : Request × Reply}
    (hmk : mkfs zeroMem size = (0, dev))
    (hrun : DefinedRun ⟨LockState.free, .offline dev⟩ ⟨lk, .mounted fs⟩)
    (hserves : Serves ⟨lk, .mounted fs⟩ l ⟨lk', .mounted fs'⟩) : PathsAfter fs fs' l := by
  have hi : HandleInv ⟨lk, .mounted fs⟩ :=
    hrun.handleRun.inv (HandleInv.of_offline (sysInv_mkfs hmk))
  have hi' := volumeSimulation.keeps _ _ _ hi hserves
  have hstep := volumeSimulation.follows _ _ _ hi hserves
  exact (hi.sys.mounted fs rfl).pathsAfter (hi'.sys.mounted fs' rfl) hstep

/-- The unlink of the welcome file. -/
theorem Serves.paths_welcome : ∃ l,
    Serves ⟨LockState.free, .mounted foundFs⟩ l ⟨LockState.free, .mounted staleFs⟩ ∧
      PathsAfter foundFs staleFs l := by
  obtain ⟨l, hl⟩ := (definedStep_iff _ _).mp DefinedStep.stale
  exact ⟨l, hl, Serves.paths mkfs_fresh DefinedRun.found hl⟩

end Paths

end Simplefs
