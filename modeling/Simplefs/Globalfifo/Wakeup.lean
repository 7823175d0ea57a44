/-
# Lost wake-ups in globalfifo

`globalfifo_read` wakes the writers and `globalfifo_write` the readers, each before it gives the
semaphore back, and a process that falls asleep sets its state while it still has the semaphore:
so nobody sleeps while the fifo holds what it waits for.

There are two ways out of this.  `globalfifo_ioctl` empties the fifo and wakes nobody.  And
`globalfifo_read` takes its entry off `r_wait` under the lock of `w_wait`, after it gave the
semaphore back: meanwhile another reader may put its entry on `r_wait` and lose it there, or a
writer walk the list.  The contract below is met by all routines provided that no `FIFO_CLEAR`
gives the semaphore back while a writer is asleep and that no operation on a list races with such
a removal.
-/
import Simplefs.Globalfifo.Order

namespace Globalfifo

open Driver

/-! ## 1. The contract -/

/-- No reader is asleep unless the fifo is empty, no writer unless it is full. -/
structure SleepersWait (S : WaitQueue → Prop) (d : GlobalfifoDev) : Prop where
  le_size : d.currentLen ≤ globalfifoSize
  readers : S .rWait → d.currentLen = 0
  writers : S .wWait → d.currentLen = globalfifoSize

/-- A call that cleared the fifo gives the semaphore back with no writer asleep. -/
def ClearsAwake (seen : List (Seen GlobalfifoDev FifoEvent)) (S : WaitQueue → Prop) : Prop :=
  .cleared ∈ events seen → ¬ S .wWait

/-- The contract of wake-ups. -/
def wakeContract : Contract GlobalfifoDev WaitQueue FifoEvent Request Ret where
  inv o := SleepersWait o.sleepers o.dev
  guard := ClearsAwake
  leaves seen d := .cleared ∈ events seen → d.currentLen = 0
  post _ _ _ := True
  fewer _ _ hS h := ⟨h.le_size, fun hr => h.readers (hS _ hr), fun hw => h.writers (hS _ hw)⟩

section Routines

variable {i : Request} {b : Bool} {count room cmd : Nat} {buf : List UInt8}
  {seen : List (Seen GlobalfifoDev FifoEvent)} {o : Held GlobalfifoDev WaitQueue FifoEvent}
  (ds : List GlobalfifoDev)

/-- A call that did not clear the fifo may give it back when all sleepers wait rightly. -/
theorem givesBack_wake (h : SleepersWait o.sleepers o.dev) (hseen : .cleared ∉ events seen) :
    GivesBack wakeContract seen o :=
  ⟨fun hc => absurd hc hseen, fun S hS _ => wakeContract.fewer o S hS h⟩

theorem wake_took : FifoEvent.cleared ∉
    events (ds.map .took : List (Seen GlobalfifoDev FifoEvent)) := by
  rw [events_map_took]
  exact List.not_mem_nil

theorem wake_did {e : FifoEvent} (he : e ≠ .cleared) : FifoEvent.cleared ∉
    events (ds.map .took ++ [.did e] : List (Seen GlobalfifoDev FifoEvent)) := by
  rw [events_append, events_map_took]
  exact fun hc => he (List.mem_singleton.mp hc).symm

theorem wake_readEnds (h : SleepersWait o.sleepers o.dev) :
    ReadEnds wakeContract i count (ds.map .took) o := by
  refine ⟨⟨givesBack_wake h (wake_took ds), trivial⟩, fun n d hn hlen hcontents => ⟨?_, trivial⟩⟩
  refine givesBack_wake ⟨?_, fun hr => ?_, fun hw => absurd rfl hw.2⟩ (wake_did ds nofun)
  · have := h.le_size
    show d.currentLen ≤ globalfifoSize
    omega
  · -- readers sleep on an empty fifo, from which nothing was taken
    have := h.readers hr.1
    show d.currentLen = 0
    omega

theorem wake_writeEnds (h : SleepersWait o.sleepers o.dev) :
    WriteEnds wakeContract i count buf (ds.map .took) o := by
  refine ⟨fun d hlen hcontents => ⟨?_, trivial⟩, fun n d hn hbuf hlen hcontents => ⟨?_, trivial⟩⟩
  · refine givesBack_wake ⟨?_, fun hr => ?_, fun hw => ?_⟩ (wake_took ds)
    · exact hlen ▸ h.le_size
    · exact hlen.trans (h.readers hr)
    · exact hlen.trans (h.writers hw)
  · have hle := h.le_size
    refine givesBack_wake ⟨?_, fun hr => absurd rfl hr.2, fun hw => ?_⟩ (wake_did ds nofun)
    · show d.currentLen ≤ globalfifoSize
      omega
    · -- writers sleep on a full fifo, which took nothing more
      have := h.writers hw.1
      show d.currentLen = globalfifoSize
      omega

theorem wake_read : Safe wakeContract i (globalfifoRead b count room) none .running [] none := by
  refine safe_globalfifoRead (fun o h => h.le_size)
    (fun o h _ => ⟨givesBack_wake h (wake_took [o.dev]), trivial⟩)
    (fun o h h0 => ⟨givesBack_wake ⟨h.le_size, fun _ => h0, fun hw => ?_⟩ (wake_took [o.dev]),
      trivial⟩)
    (fun o h _ => wake_readEnds [o.dev] h)
    (fun o o' _ _ h' => wake_readEnds [o.dev, o'.dev] h')
  rcases hw with hw | hw
  · exact h.writers hw
  · exact nomatch hw

theorem wake_write : Safe wakeContract i (globalfifoWrite b count buf) none .running [] none := by
  refine safe_globalfifoWrite (fun o h => h.le_size)
    (fun o h _ => ⟨givesBack_wake h (wake_took [o.dev]), trivial⟩)
    (fun o h hf => ⟨givesBack_wake ⟨h.le_size, fun hr => ?_, fun _ => hf⟩ (wake_took [o.dev]),
      trivial⟩)
    (fun o h _ => wake_writeEnds [o.dev] h)
    (fun o o' _ _ h' => wake_writeEnds [o.dev, o'.dev] h')
  rcases hr with hr | hr
  · exact h.readers hr
  · exact nomatch hr

/-- `FIFO_CLEAR` wakes nobody: this is where the guard is needed. -/
theorem wake_ioctl : Safe wakeContract i (globalfifoIoctl cmd) none .running [] none := by
  refine safe_globalfifoIoctl trivial fun o h => ⟨⟨fun _ => rfl, fun S hS hguard => ?_⟩, trivial⟩
  exact ⟨Nat.zero_le _, fun _ => rfl, fun hw => absurd hw (hguard (List.mem_singleton.mpr rfl))⟩

/-- Every call meets the contract of wake-ups. -/
theorem wake_body (i : Request) : Safe wakeContract i i.body none .running [] none := by
  cases i with
  | read b count room => exact wake_read
  | write b count buf => exact wake_write
  | ioctl cmd => exact wake_ioctl
  | poll =>
    exact safe_globalfifoPoll fun o h =>
      ⟨givesBack_wake h (wake_took [o.dev]), fun _ => trivial⟩

end Routines

/-! ## 2. Every interleaving -/

section Interleavings

variable {P : Type} [DecidableEq P] {sig : P → Bool} {c : Fifo P}

/-- While the semaphore is free, nobody sleeps on a queue for what the fifo already holds. -/
def NoLostWakeup (c : Fifo P) : Prop :=
  c.sem ≠ 0 → (∀ p, c.AsleepOn p .rWait → c.dev.currentLen = 0) ∧
    (∀ p, c.AsleepOn p .wWait → c.dev.currentLen = globalfifoSize)

theorem sleepersWait_init : SleepersWait (fun _ => False) globalfifoInit :=
  ⟨Nat.zero_le _, fun hr => hr.elim, fun hw => hw.elim⟩

theorem noLostWakeup_of_sound (h : Sound wakeContract c) : NoLostWakeup c := fun hsem =>
  ⟨fun p hp => (h.inv hsem).readers ⟨p, hp⟩, fun p hp => (h.inv hsem).writers ⟨p, hp⟩⟩

/-- A clear with a writer asleep loses its wake-up. -/
theorem clearsAwake_of_noLostWakeup {c' : Fifo P} {p : P} (hs : Sound wakeContract c)
    (hp : c.advance p = some c') (h : NoLostWakeup c') : c.GuardedUp ClearsAwake p := by
  rintro t ht hc ⟨u, hu⟩
  have hzero : c.dev.currentLen = 0 := (hs.atUp ht).2 hc
  obtain ⟨ht, k, hk⟩ := ht
  simp only [Config.advance, ht, hk, Option.some.injEq] at hp
  subst hp
  have hfull : c.dev.currentLen = globalfifoSize := (h (Nat.succ_ne_zero _)).2 u hu
  rw [hzero] at hfull
  exact absurd hfull (by decide)

/-- **No wake-up is lost as long as no operation on a wait queue races with a removal and no
`FIFO_CLEAR` gives the semaphore back while a writer is asleep**; and the first clear that does,
loses one. -/
theorem noLostWakeup_iff (h : ReachWhen Request.body ClearsAwake (Fifo.loaded sig) c) :
    NoLostWakeup c ∧ ∀ p e c', Step Request.body c p e c' → e ≠ .race →
      (NoLostWakeup c' ↔ (e = .advance → c.GuardedUp ClearsAwake p)) := by
  have hs : Sound wakeContract c :=
    ReachWhen.sound (C := wakeContract) wake_body h (sound_init sig sleepersWait_init)
  refine ⟨noLostWakeup_of_sound hs, fun p e c' hstep hrace => ⟨fun h' he => ?_, fun hg => ?_⟩⟩
  · cases hstep with
    | advance hp => exact clearsAwake_of_noLostWakeup hs hp h'
    | race => exact absurd rfl hrace
    | enter => exact nomatch he
    | signal => exact nomatch he
    | unsignal => exact nomatch he
  · exact noLostWakeup_of_sound (hstep.sound wake_body (fun he => absurd he hrace) hg hs)

end Interleavings

/-! ### A fifo that is cleared -/

/-- Nobody is in the middle of a removal, and no writer is asleep. -/
def calm (c : Fifo (Fin 3)) (_ : Fin 3) : Bool :=
  decide (c.spin .rWait = none ∧ c.spin .wWait = none ∧
    ∀ u : Fin 3, ¬ (c.queue u = some .wWait ∧ c.state u = .interruptible))

theorem calm_ok (c : Fifo (Fin 3)) (p : Fin 3) (h : calm c p = true) :
    ¬ c.Races p ∧ c.GuardedUp ClearsAwake p := by
  obtain ⟨hr, hw, hasleep⟩ := of_decide_eq_true h
  refine ⟨?_, fun t _ _ ⟨u, hu⟩ => hasleep u hu⟩
  rintro ⟨_, -, r, u, hu, -⟩
  cases r with
  | rWait => exact nomatch hr.symm.trans hu
  | wWait => exact nomatch hw.symm.trans hu

/-- Two bytes are written, the fifo is cleared, and a reader falls asleep. -/
def clearedBeforeReader : List (Fin 3 × Event Request) :=
  enterAndRun process0 (.write false 2 [7, 8]) 11 ++ enterAndRun process1 (.ioctl fifoClear) 5 ++
    enterAndRun process2 (.read false 1 1) 5

/-- The reader sleeps rightly. -/
theorem noLostWakeup_iff_cleared : ∃ c : Fifo (Fin 3),
    (Fifo.loaded fun _ => false).execute Request.body calm clearedBeforeReader = some c ∧
    c.sem = 1 ∧ c.AsleepOn 2 .rWait ∧ NoLostWakeup c := by
  obtain ⟨c, hc, hsem, hasleep⟩ : ∃ c : Fifo (Fin 3),
      (Fifo.loaded fun _ => false).execute Request.body calm clearedBeforeReader = some c ∧
      c.sem = 1 ∧ c.AsleepOn 2 .rWait := ⟨_, rfl, rfl, rfl, rfl⟩
  exact ⟨c, hc, hsem, hasleep, (noLostWakeup_iff (Config.execute_reachWhen calm_ok hc)).1⟩

/-- The fifo is filled, a writer sleeps, and the fifo is cleared. -/
def clearedUnderWriter : List (Fin 3 × Event Request) :=
  enterAndRun process0 (.write false 10 [0, 1, 2, 3, 4, 5, 6, 7, 8, 9]) 11 ++
    enterAndRun process1 (.write false 1 [10]) 5 ++ enterAndRun process2 (.ioctl fifoClear) 4

theorem clearedUnderWriter_ok : ∃ c : Fifo (Fin 3),
    (Fifo.loaded fun _ => false).execute Request.body (fun _ _ => true) clearedUnderWriter =
      some c ∧
    c.sem = 1 ∧ c.dev.currentLen = 0 ∧ c.AsleepOn 1 .wWait :=
  ⟨_, rfl, rfl, rfl, rfl, rfl⟩

/-- **The writer is asleep, and the fifo is empty.** -/
theorem clearedUnderWriter_not_noLostWakeup : ∃ c : Fifo (Fin 3),
    Reach Request.body (Fifo.loaded fun _ => false) c ∧ ¬ NoLostWakeup c := by
  obtain ⟨c, hc, hsem, hlen, hasleep⟩ := clearedUnderWriter_ok
  refine ⟨c, Config.execute_reach hc, fun h => ?_⟩
  have hfull := (h (by rw [hsem]; decide)).2 1 hasleep
  rw [hlen] at hfull
  exact absurd hfull (by decide)

/-! ### A reader that is lost -/

/-- A read of the empty fifo is taking its entry off, and another one is about to add its own. -/
def twoReadersMeet : List (Fin 3 × Event Request) :=
  enterAndRun process0 (.read true 1 1) 5 ++ enterAndRun process1 (.read false 1 1) 1

/-- The other one falls asleep, the first one is done, and a byte is written. -/
def writtenPastReader : List (Fin 3 × Event Request) :=
  goesOn process1 3 ++ goesOn process0 1 ++ enterAndRun process2 (.write false 1 [7]) 8

theorem lostReader_ok : ∃ c1 c2 c3 : Fifo (Fin 3),
    (Fifo.loaded fun _ => false).execute Request.body (fun _ _ => true) twoReadersMeet = some c1 ∧
    c1.RacesOn 1 .rWait ∧ (c1.lose .rWait fun _ => false).advance 1 = some c2 ∧
    (c2.lose .rWait fun u => u == 1).execute Request.body (fun _ _ => true) writtenPastReader =
      some c3 ∧ c3.sem = 1 ∧ c3.dev.currentLen = 1 ∧ c3.AsleepOn 1 .rWait :=
  ⟨_, _, _, rfl, ⟨rfl, .wWait, 0, rfl, by decide, rfl⟩, rfl, rfl, rfl, rfl, rfl, rfl⟩

/-- **The reader is asleep, and there is a byte in the fifo.**  Nothing was cleared. -/
theorem lostReader_not_noLostWakeup : ∃ c : Fifo (Fin 3),
    Reach Request.body (Fifo.loaded fun _ => false) c ∧ ¬ NoLostWakeup c := by
  obtain ⟨c1, c2, c3, h1, hr, h2, h3, hsem, hlen, hasleep⟩ := lostReader_ok
  have hreach : Reach Request.body (Fifo.loaded fun _ => false) (c2.lose .rWait fun u => u == 1) :=
    .tail (Config.execute_reach h1) ⟨1, .race, .race hr h2⟩
  refine ⟨c3, hreach.trans (Config.execute_reach h3), fun h => ?_⟩
  have hempty := (h (by rw [hsem]; decide)).1 1 hasleep
  rw [hlen] at hempty
  exact absurd hempty (by decide)

end Globalfifo
