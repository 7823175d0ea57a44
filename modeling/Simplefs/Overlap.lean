/-
# Calls that overlap

The runs of `Vfs.lean` let one call return before the next one starts.  Here the listings,
lookups, creates and unlinks of any number of threads overlap: a burst of them starts on a
filesystem at rest, is interleaved in any order, and is over once every call has returned.
Mounts, unmounts, reads, writes and releases come between two bursts.

Two questions are answered for every point of every burst.  It cannot get stuck: if no further
call is started, all the calls in progress return, whatever the scheduler does.  And once they
have, the filesystem is as sound as after calls made one by one.

The first question is also asked of threads that call what they like, writes included, on whatever
state there is.  There a call may run into undefined behaviour, and take its locks with it; that is
the only thing that can hold another one up.
-/
import Simplefs.Allocation
import Simplefs.Lib.Progress

namespace Simplefs

open Prog (LockState Config Reach WaitsFor)

variable {T : Type} [DecidableEq T]

/-! ## 1. A burst cannot get stuck -/

/-- **From every point of every schedule of any calls**: if no further call is started, the
schedule comes to an end, and only a fault holds up what has not returned by then. -/
theorem Reach.runsOut {fs : Fs} {c : Config Fs Progress Lock Site Fault Unit T}
    (hreach : Reach (anyCall T) (Config.quiescent fs) c) : c.RunsOut := by
  obtain ⟨ts, hts⟩ := hreach.within ⟨∅, fun _ _ => rfl⟩
  exact (Reach.inOrder hreach).runsOut hts

/-- **From every point of every burst, the calls in progress run down**: every one of them has
returned by then. -/
theorem FsInv.runsDown {fs : Fs} (hi : FsInv fs Shadow.none)
    {c : Config Fs Progress Lock Site Fault Unit T}
    (hreach : Reach (vfsAdmit T) (Config.quiescent fs) c) : c.RunsDown :=
  (Reach.inv hi hreach).runsDown (Reach.runsOut (hreach.mono vfsAdmit_anyCall))

/-! ## 2. The filesystem at rest -/

/-- **A filesystem that is sound**, no call being in progress. -/
structure Fs.Sound (fs : Fs) : Prop where
  consistent : fs.dev.Consistent
  /-- The bitmap says which inode numbers are in use. -/
  imap : ∀ k, k < 64 → (fs.imap.getLsbD k = true ↔ k = 0 ∨ fs.dev.Live (k - 1))
  /-- Every private inode of a linked dentry has been saved. -/
  saved : ∀ e y, fs.dentries e = some y → y.linked = true → fs.dev.slot y.slot = y.inode
  /-- Every directory cache says what the directory's block says. -/
  caches : ∀ d x c, fs.dentries d = some x → x.fsdata = some c → c.Mirrors fs.dev x.inode.block
  /-- An unmount and a mount give the same filesystem, but for the bytes of failed copies. -/
  again : ∀ past, ∃ s fs', Event.umount.apply ⟨LockState.free, .mounted fs⟩ = some s ∧
    (Event.mount past).apply s = some ⟨LockState.free, .mounted fs'⟩ ∧
    SameFilesystem fs.restored fs'

theorem FsInv.sound {fs : Fs} (hi : FsInv fs Shadow.none) : fs.Sound where
  consistent := Device.consistent_of_inv hi.store hi.tree
  imap _ hk := hi.store.imap_spec hk
  saved e y hy hl := hi.clean e y ⟨hy, hl, id⟩ id
  caches d x c hx hc := (hi.cache d x c hx hc).2.mirrors
  again := hi.mountsAgain

/-- At the end of a burst nothing is left of the exceptions that its calls made. -/
theorem Outlined.rest {c : Config Fs Progress Lock Site Fault Unit T}
    (h : Prog.Outlined (discipline T) c) (hidle : c.Idle) :
    (∀ l, c.owner l = none) ∧ FsInv c.s Shadow.none := by
  obtain ⟨G, H, hc⟩ := h
  constructor
  · intro l
    cases hown : c.owner l with
    | none => rfl
    | some t =>
      have hheld := (hc.owner l t).mp hown
      rw [(hc.idle t (hidle t)).2 l] at hheld
      cases hheld
  · have hG : G = fun _ => Phase.idle := funext fun t => (hc.idle t (hidle t)).1
    have hi : Inv c.s G := hc.inv
    rw [hG] at hi
    exact inv_idle_iff.mp hi

/-! ## 3. Runs of bursts -/

/-- One step of a system whose calls overlap: a step of its own, or a whole burst. -/
inductive BusyStep (T : Type) [DecidableEq T] : Sys → Sys → Prop
  | alone {s s' : Sys} (h : DefinedStep s s') : BusyStep T s s'
  | burst {lk : LockState Lock} {fs : Fs} {c : Config Fs Progress Lock Site Fault Unit T}
      (hreach : Reach (vfsAdmit T) (Config.quiescent fs) c) (hidle : c.Idle) :
      BusyStep T ⟨lk, .mounted fs⟩ ⟨lk, .mounted c.s⟩

/-- The states that runs of bursts reach. -/
def BusyRun (T : Type) [DecidableEq T] : Sys → Sys → Prop := Relation.ReflTransGen (BusyStep T)

/-- A run whose calls do not overlap is one of them. -/
theorem DefinedRun.busy {s s' : Sys} (hrun : DefinedRun s s') : BusyRun T s s' :=
  Relation.ReflTransGen.mono (fun _ _ h => .alone h) _ _ hrun

theorem BusyStep.inv {s s' : Sys} (hstep : BusyStep T s s') (hi : SysInv s) : SysInv s' := by
  cases hstep with
  | alone h => exact h.inv hi
  | @burst lk fs c hreach hidle =>
    have hlk : lk = LockState.free := hi.locks
    subst hlk
    exact .of_mounted (Outlined.rest (Reach.inv (hi.mounted fs rfl) hreach) hidle).2

theorem BusyRun.inv {s s' : Sys} (hrun : BusyRun T s s') (hi : SysInv s) : SysInv s' := by
  induction hrun with
  | refl => exact hi
  | tail _ hstep ih => exact hstep.inv ih

/-- **Overlapping calls leave a sound filesystem**: whenever every call has returned, the locks
are free and the filesystem is sound. -/
theorem BusyRun.sound_at_rest {size : Nat} {dev : Device} {lk : LockState Lock} {fs : Fs}
    {c : Config Fs Progress Lock Site Fault Unit T} (hmk : mkfs zeroMem size = (0, dev))
    (hrun : BusyRun T ⟨LockState.free, .offline dev⟩ ⟨lk, .mounted fs⟩)
    (hreach : Reach (vfsAdmit T) (Config.quiescent fs) c) (hidle : c.Idle) :
    (∀ l, c.owner l = none) ∧ c.s.Sound := by
  have hi := (hrun.inv (sysInv_mkfs hmk)).mounted fs rfl
  obtain ⟨hown, hi'⟩ := Outlined.rest (Reach.inv hi hreach) hidle
  exact ⟨hown, hi'.sound⟩

/-- **Overlapping calls never hold each other up**: what any calls leave undone is held up by
a fault, and in the bursts of the runs from a fresh image every call returns. -/
theorem BusyRun.calls_return {c : Config Fs Progress Lock Site Fault Unit T} :
    (∀ fs, Reach (anyCall T) (Config.quiescent fs) c → c.RunsOut) ∧
      ∀ size dev lk fs, mkfs zeroMem size = (0, dev) →
        BusyRun T ⟨LockState.free, .offline dev⟩ ⟨lk, .mounted fs⟩ →
        Reach (vfsAdmit T) (Config.quiescent fs) c → c.RunsDown :=
  ⟨fun _ hreach => Reach.runsOut hreach, fun _ _ _ fs hmk hrun hreach =>
    ((hrun.inv (sysInv_mkfs hmk)).mounted fs rfl).runsDown hreach⟩

/-- A create that waits for a write, and one that waits for a lookup. -/
theorem BusyRun.calls_return_waiting :
    (∃ c : Config Fs Progress Lock Site Fault Unit Bool, WaitsFor c true false ∧ c.RunsOut) ∧
      ∃ c : Config Fs Progress Lock Site Fault Unit Bool, WaitsFor c true false ∧ c.RunsDown := by
  obtain ⟨c, hr, hw⟩ := Reach.create_waits_for_write
  obtain ⟨fs, hfs⟩ := exists_twoDirs
  obtain ⟨c', hr', hw'⟩ := hfs.create_waits_for_lookup
  exact ⟨⟨c, hw, BusyRun.calls_return.1 foundFs hr⟩,
    ⟨c', hw', BusyRun.calls_return.2 _ _ _ fs mkfs_fresh hfs.run.busy hr'⟩⟩

/-- A create and a lookup that have waited for each other, once both have returned. -/
theorem BusyRun.sound_at_rest_waited :
    ∃ (fs : Fs) (c c' : Config Fs Progress Lock Site Fault Unit Bool),
      Reach (vfsAdmit Bool) (Config.quiescent fs) c ∧ WaitsFor c true false ∧
        Reach (vfsAdmit Bool) c c' ∧ (∀ l, c'.owner l = none) ∧ c'.s.Sound := by
  obtain ⟨fs, hfs⟩ := exists_twoDirs
  obtain ⟨c, hr, hw⟩ := hfs.create_waits_for_lookup
  have hi := (DefinedRun.inv hfs.run (sysInv_mkfs mkfs_fresh)).mounted fs rfl
  obtain ⟨c', hr', hidle⟩ := (hi.runsDown hr).exists_idle
  have hr'' : Reach (vfsAdmit Bool) c c' := Reach.of_nothing hr'
  obtain ⟨hown, hsound⟩ :=
    BusyRun.sound_at_rest mkfs_fresh hfs.run.busy (hr.trans hr'') hidle
  exact ⟨fs, c, c', hr, hw, hr'', hown, hsound⟩

end Simplefs
