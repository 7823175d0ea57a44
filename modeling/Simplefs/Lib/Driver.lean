/-
# Driver routines under one semaphore, with wait queues

The routines of a character driver, as any number of processes run them: a device that is
accessed between `down` and `up` of one semaphore, wait queues on which a process puts its
entry before it sets its state and calls `schedule`, wake-ups of a whole queue, and signals
that may arrive at any time.  A routine is a tree of these operations (`Code`), and `Step`
interleaves the processes operation by operation.

Each wait queue is a list under a spinlock of its own.  The operations on a list are atomic as
long as they hold its lock.  A routine may however take its entry off under the lock of another
queue; then the removal has a beginning and an end, and what others do to the list in between
races with it: entries may get lost, that is, they are on the list no more, and no wake-up
reaches the process.

`Safe` checks a routine against a contract on its own, from node to node: the invariant of
the contract is what a process finds when it has taken the semaphore and what it owes when it
gives it back, and between the two the device is its own.  Of the other processes it is only
assumed that they may wake sleepers meanwhile.  `Safe` therefore is the whole obligation, and
`Reach.sound` carries it through every interleaving: a contract that speaks of sleepers through
those without a race, one that does not through all of them.

The configuration also keeps two histories that no operation reads: what the accesses to the
device did, in order, and for each running call what it found and did.
-/
import Mathlib.Logic.Function.Basic
import Mathlib.Logic.Relation
import Mathlib.Tactic.Common

namespace Driver

/-! ## 1. Routines -/

/-- The scheduling state of a process: `TASK_RUNNING` or `TASK_INTERRUPTIBLE`. -/
inductive TaskState where
  | running
  | interruptible
  deriving DecidableEq, Repr

/-- Routines over a device `D` with wait queues `Q`, whose accesses report events `E`, returning
an `α`.  An access that gives `none` runs into undefined behaviour. -/
inductive Code (D Q E : Type) (α : Type) : Type 1 where
  | ret (a : α)
  | down (k : Code D Q E α)
  | up (k : Code D Q E α)
  | access {β : Type} (f : D → Option (β × D)) (ev : β → List E) (k : β → Code D Q E α)
  | addWait (q : Q) (k : Code D Q E α)
  | removeWait (q : Q) (k : Code D Q E α)
  | setState (st : TaskState) (k : Code D Q E α)
  | schedule (k : Code D Q E α)
  | signalPending (k : Bool → Code D Q E α)
  | wakeUp (q : Q) (k : Code D Q E α)

variable {D Q E ι α β P : Type}

namespace Code

/-- Run `c`, then `q` on what it returned. -/
def bind : Code D Q E α → (α → Code D Q E β) → Code D Q E β
  | .ret a, q => q a
  | .down k, q => .down (k.bind q)
  | .up k, q => .up (k.bind q)
  | .access f ev k, q => .access f ev fun b => (k b).bind q
  | .addWait r k, q => .addWait r (k.bind q)
  | .removeWait r k, q => .removeWait r (k.bind q)
  | .setState st k, q => .setState st (k.bind q)
  | .schedule k, q => .schedule (k.bind q)
  | .signalPending k, q => .signalPending fun b => (k b).bind q
  | .wakeUp r k, q => .wakeUp r (k.bind q)

instance : Monad (Code D Q E) where
  pure := .ret
  bind := .bind

end Code

/-- Wait for the semaphore, and take it. -/
def down : Code D Q E Unit := .down (.ret ())

/-- Give the semaphore back. -/
def up : Code D Q E Unit := .up (.ret ())

/-- An access to the device that reports the events `ev`. -/
def access (f : D → Option (α × D)) (ev : α → List E) : Code D Q E α := .access f ev .ret

/-- An access that only reads. -/
def load (f : D → α) : Code D Q E α := access (fun d => some (f d, d)) fun _ => []

/-- An access that cannot fail, and reports `ev`. -/
def store (f : D → D) (ev : List E) : Code D Q E Unit :=
  access (fun d => some ((), f d)) fun _ => ev

/-- `add_wait_queue`. -/
def addWaitQueue (q : Q) : Code D Q E Unit := .addWait q (.ret ())

/-- `remove_wait_queue`: under the lock of `q`, the entry leaves the queue that it is on. -/
def removeWaitQueue (q : Q) : Code D Q E Unit := .removeWait q (.ret ())

/-- `set_current_state`. -/
def setCurrentState (st : TaskState) : Code D Q E Unit := .setState st (.ret ())

/-- `schedule`. -/
def schedule : Code D Q E Unit := .schedule (.ret ())

/-- `signal_pending(current)`. -/
def signalPending : Code D Q E Bool := .signalPending .ret

/-- `wake_up_interruptible`. -/
def wakeUpInterruptible (q : Q) : Code D Q E Unit := .wakeUp q (.ret ())

/-! ## 2. Processes -/

/-- What a running call found at a `down` (`took`) and what its accesses reported (`did`). -/
inductive Seen (D E : Type) where
  | took (d : D)
  | did (e : E)

/-- What was found at the `down`s. -/
def found (seen : List (Seen D E)) : List D :=
  seen.filterMap fun | .took d => some d | .did _ => none

/-- What the accesses reported. -/
def events (seen : List (Seen D E)) : List E :=
  seen.filterMap fun | .took _ => none | .did e => some e

theorem events_append (seen more : List (Seen D E)) :
    events (seen ++ more) = events seen ++ events more := List.filterMap_append

@[simp] theorem events_map_did (l : List E) : events (l.map .did : List (Seen D E)) = l := by
  rw [events, List.filterMap_map]
  exact List.filterMap_some

@[simp] theorem events_map_took (l : List D) : events (l.map .took : List (Seen D E)) = [] := by
  rw [events, List.filterMap_map]
  exact List.filterMap_eq_nil_iff.mpr fun _ _ => rfl

theorem found_append (seen more : List (Seen D E)) :
    found (seen ++ more) = found seen ++ found more := List.filterMap_append

@[simp] theorem found_map_took (l : List D) : found (l.map .took : List (Seen D E)) = l := by
  rw [found, List.filterMap_map]
  exact List.filterMap_some

/-- A running call: what was called, what is left of the routine, and what it saw so far. -/
structure Call (D Q E ι α : Type) where
  call : ι
  code : Code D Q E α
  seen : List (Seen D E)

/-- The device, its semaphore, and of every process the call it is in, the queue that it put its
entry on, whether the entry got lost there, its state and whether a signal is pending; and the
process that holds a queue's spinlock in the middle of a removal. -/
structure Config (D Q E ι α P : Type) where
  dev : D
  sem : Nat
  calls : P → Option (Call D Q E ι α)
  queue : P → Option Q
  lost : P → Bool
  spin : Q → Option P
  state : P → TaskState
  sig : P → Bool
  hist : List E

/-- The driver has just been loaded: the semaphore is 1 and no process is in a call. -/
def Config.init (d : D) (sig : P → Bool) : Config D Q E ι α P where
  dev := d
  sem := 1
  calls _ := none
  queue _ := none
  lost _ := false
  spin _ := none
  state _ := .running
  sig := sig
  hist := []

/-- Process `p` has put itself on the queue `q`, and is not woken yet. -/
def Config.AsleepOn (c : Config D Q E ι α P) (p : P) (q : Q) : Prop :=
  c.queue p = some q ∧ c.state p = .interruptible

/-- The queues with a sleeper. -/
def Config.sleepers (c : Config D Q E ι α P) : Q → Prop := fun q => ∃ p, c.AsleepOn p q

section Step

variable [DecidableEq P] [DecidableEq Q]

/-- Process `p` goes on with `code`, having seen `more`. -/
def Config.goOn (c : Config D Q E ι α P) (p : P) (t : Call D Q E ι α) (code : Code D Q E α)
    (more : List (Seen D E)) : Config D Q E ι α P :=
  let t' := { t with code := code, seen := t.seen ++ more }
  { c with calls := Function.update c.calls p (some t') }

/-- The next operation of process `p`, when it can be executed. -/
def Config.advance (c : Config D Q E ι α P) (p : P) : Option (Config D Q E ι α P) :=
  match c.calls p with
  | none => none
  | some t =>
    match t.code with
    | .ret _ => some { c with calls := Function.update c.calls p none }
    | .down k =>
      if c.sem = 0 then none else some { c.goOn p t k [.took c.dev] with sem := c.sem - 1 }
    | .up k => some { c.goOn p t k [] with sem := c.sem + 1 }
    | .access f ev k =>
      match f c.dev with
      | none => none
      | some (b, d) =>
        some { c.goOn p t (k b) ((ev b).map .did) with dev := d, hist := c.hist ++ ev b }
    | .addWait q k =>
      if c.spin q = none then
        some { c.goOn p t k [] with
          queue := Function.update c.queue p (some q)
          lost := Function.update c.lost p false }
      else none
    | .removeWait r k =>
      match c.queue p with
      | none => none
      | some q =>
        if q = r then
          if c.spin r = none then
            some { c.goOn p t k [] with queue := Function.update c.queue p none }
          else none
        -- under another queue's lock, the removal begins and ends
        else if c.spin r = none then some { c with spin := Function.update c.spin r (some p) }
        else if c.spin r = some p then
          some { c.goOn p t k [] with
            queue := Function.update c.queue p none
            spin := Function.update c.spin r none }
        else none
    | .setState st k => some { c.goOn p t k [] with state := Function.update c.state p st }
    | .schedule k =>
      -- `schedule` comes back from a woken process, and from one with a signal
      if c.state p = .running ∨ c.sig p then
        some { c.goOn p t k [] with state := Function.update c.state p .running }
      else none
    | .signalPending k => some (c.goOn p t (k (c.sig p)) [])
    | .wakeUp q k =>
      if c.spin q = none then
        some { c.goOn p t k [] with
          state := fun u => if c.queue u = some q ∧ c.lost u = false then .running else c.state u }
      else none

/-- The list that the next operation of process `p` changes or walks. -/
def Config.touches (c : Config D Q E ι α P) (p : P) : Option Q :=
  match c.calls p with
  | none => none
  | some t =>
    match t.code with
    | .addWait q _ => some q
    | .wakeUp q _ => some q
    | .removeWait _ _ => c.queue p
    | _ => none

/-- The next operation of process `p` works on the list of `q` while another process is in the
middle of taking its entry off it. -/
def Config.RacesOn (c : Config D Q E ι α P) (p : P) (q : Q) : Prop :=
  c.touches p = some q ∧ ∃ r u, c.spin r = some u ∧ u ≠ p ∧ c.queue u = some q

/-- The next operation of process `p` races with another. -/
def Config.Races (c : Config D Q E ι α P) (p : P) : Prop := ∃ q, c.RacesOn p q

/-- Of the entries on `q`, those in `l` get lost. -/
def Config.lose (c : Config D Q E ι α P) (q : Q) (l : P → Bool) : Config D Q E ι α P :=
  { c with lost := fun u => c.lost u || (decide (c.queue u = some q) && l u) }

/-- What happens in a step: a process enters a routine, executes an operation, does so in a race
for a list, gets a signal (which wakes it), or has its signal taken back. -/
inductive Event (ι : Type) where
  | enter (i : ι)
  | advance
  | race
  | signal
  | unsignal

/-- One step of the processes, concerning process `p`. -/
inductive Step (body : ι → Code D Q E α) :
    Config D Q E ι α P → P → Event ι → Config D Q E ι α P → Prop
  | enter {c p i} (hp : c.calls p = none) :
      Step body c p (.enter i)
        { c with calls := Function.update c.calls p (some ⟨i, body i, []⟩) }
  | advance {c p c'} (hp : c.advance p = some c') : Step body c p .advance c'
  | race {c p c'} {q : Q} {l l' : P → Bool} (hr : c.RacesOn p q)
      (hp : (c.lose q l).advance p = some c') : Step body c p .race (c'.lose q l')
  | signal {c p} :
      Step body c p .signal
        { c with sig := Function.update c.sig p true
                 state := Function.update c.state p .running }
  | unsignal {c p} : Step body c p .unsignal { c with sig := Function.update c.sig p false }

/-- Process `p` is about to give the semaphore back. -/
def Config.AtUp (c : Config D Q E ι α P) (p : P) (t : Call D Q E ι α) : Prop :=
  c.calls p = some t ∧ ∃ k, t.code = .up k

/-- If process `p` is about to give the semaphore back, `guard` allows it: a condition on what the
call saw and on the sleepers. -/
def Config.GuardedUp (c : Config D Q E ι α P) (guard : List (Seen D E) → (Q → Prop) → Prop)
    (p : P) : Prop :=
  ∀ t, c.AtUp p t → guard t.seen c.sleepers

/-- The configurations that can be reached from `c` when no operation races with another, and
`guard` allows every `up`. -/
def ReachWhen (body : ι → Code D Q E α) (guard : List (Seen D E) → (Q → Prop) → Prop) :
    Config D Q E ι α P → Config D Q E ι α P → Prop :=
  Relation.ReflTransGen fun c c' => ∃ p e, Step body c p e c' ∧
    (e = .advance ∨ e = .race → ¬ c.Races p ∧ c.GuardedUp guard p)

/-- The configurations that can be reached from `c`. -/
def Reach (body : ι → Code D Q E α) : Config D Q E ι α P → Config D Q E ι α P → Prop :=
  Relation.ReflTransGen fun c c' => ∃ p e, Step body c p e c'

/-- An operation adds to the history what it adds to what the call has seen. -/
theorem Config.advance_hist {c c' : Config D Q E ι α P} {p : P} (hp : c.advance p = some c') :
    c'.hist = c.hist ∨ ∃ t t' evs, c.calls p = some t ∧ c'.calls p = some t' ∧ t'.call = t.call ∧
      c'.hist = c.hist ++ evs ∧ events t'.seen = events t.seen ++ evs := by
  cases ht : c.calls p with
  | none => simp [Config.advance, ht] at hp
  | some t =>
    obtain ⟨i, code, seen⟩ := t
    cases code with
    | access f ev k =>
      simp only [Config.advance, ht] at hp
      split at hp
      · exact nomatch hp
      · rename_i b d hf
        obtain rfl := Option.some.inj hp
        refine Or.inr ⟨_, _, ev b, rfl, Function.update_self _ _ _, rfl, rfl, ?_⟩
        rw [events_append, events_map_did]
    | down k | schedule k | addWait q k | wakeUp q k =>
      simp only [Config.advance, ht] at hp
      split at hp <;> cases hp
      exact Or.inl rfl
    | removeWait q k =>
      simp only [Config.advance, ht] at hp
      repeat' split at hp
      all_goals cases hp
      all_goals exact Or.inl rfl
    | _ =>
      simp only [Config.advance, ht] at hp
      exact Or.inl (Option.some.inj hp ▸ rfl)

/-- Without a race no entry gets lost. -/
theorem Config.advance_lost {c c' : Config D Q E ι α P} {p : P} (hp : c.advance p = some c')
    (u : P) (hu : c'.lost u = true) : c.lost u = true := by
  cases ht : c.calls p with
  | none => simp [Config.advance, ht] at hp
  | some t =>
    obtain ⟨i, code, seen⟩ := t
    cases code with
    | addWait q k =>
      simp only [Config.advance, ht] at hp
      split at hp
      · obtain rfl := Option.some.inj hp
        simp only [Function.update_apply] at hu
        split at hu
        · cases hu
        · exact hu
      · exact nomatch hp
    | down k | schedule k | wakeUp q k | access f ev k | removeWait r k =>
      simp only [Config.advance, ht] at hp
      repeat' split at hp
      all_goals cases hp
      all_goals exact hu
    | _ =>
      simp only [Config.advance, ht] at hp
      obtain rfl := Option.some.inj hp
      exact hu

/-- Whatever is added to the history, is also added to what the call that did it has seen. -/
theorem Step.hist {body : ι → Code D Q E α} {c c' : Config D Q E ι α P} {p : P} {e : Event ι}
    (h : Step body c p e c') : c'.hist = c.hist ∨ ∃ t t' evs, c.calls p = some t ∧
      c'.calls p = some t' ∧ t'.call = t.call ∧ c'.hist = c.hist ++ evs ∧
      events t'.seen = events t.seen ++ evs := by
  cases h with
  | enter hp => exact Or.inl rfl
  | signal => exact Or.inl rfl
  | unsignal => exact Or.inl rfl
  | advance hp => exact Config.advance_hist hp
  | race hr hp => exact (Config.advance_hist hp :)

end Step

/-! ## 3. Contracts -/

/-- What the owner of the semaphore works on: the history, the device, and the queues that may
have sleepers. -/
structure Held (D Q E : Type) where
  hist : List E
  dev : D
  sleepers : Q → Prop

/-- A contract for the routines of a driver: the invariant of the device while the semaphore is
free, the condition under which a call gives it back, and what a call guarantees about the
device then (`leaves`) and about its result (`post`). -/
structure Contract (D Q E ι α : Type) where
  inv : Held D Q E → Prop
  guard : List (Seen D E) → (Q → Prop) → Prop
  leaves : List (Seen D E) → D → Prop
  post : ι → List (Seen D E) → α → Prop
  fewer : ∀ o S, (∀ q, S q → o.sleepers q) → inv o → inv { o with sleepers := S }

/-- The contract does not look at sleepers. -/
structure Contract.Blind (C : Contract D Q E ι α) : Prop where
  inv : ∀ o S, C.inv o → C.inv { o with sleepers := S }
  guard : ∀ seen S, C.guard seen S

/-- Whoever reckons with the sleepers `S` may as well find `S'`. -/
def Contract.Covers (C : Contract D Q E ι α) (S S' : Q → Prop) : Prop :=
  C.Blind ∨ ∀ q, S' q → S q

theorem Contract.Covers.inv {C : Contract D Q E ι α} {o : Held D Q E} {S : Q → Prop}
    (h : C.Covers o.sleepers S) (ho : C.inv o) : C.inv { o with sleepers := S } :=
  h.elim (fun hb => hb.inv o S ho) fun hS => C.fewer o S hS ho

/-- The rest `code` of call `i` meets the contract, when the process has its entry on `q`, its
state is `st` (or already `running`), it has seen `seen`, and it owns `own`. -/
def Safe (C : Contract D Q E ι α) (i : ι) : Code D Q E α → Option Q → TaskState →
    List (Seen D E) → Option (Held D Q E) → Prop
  | .ret a, q, st, seen, own => own = none ∧ q = none ∧ st = .running ∧ C.post i seen a
  | .down k, q, st, seen, own =>
    own = none ∧ ∀ o, C.inv o → Safe C i k q st (seen ++ [.took o.dev]) (some o)
  | .up k, q, st, seen, own => ∃ o, own = some o ∧ C.leaves seen o.dev ∧
    Safe C i k q st seen none ∧
      ∀ S, (∀ r, S r → o.sleepers r) → C.guard seen S → C.inv { o with sleepers := S }
  | .access f ev k, q, st, seen, own => ∃ o b d, own = some o ∧ f o.dev = some (b, d) ∧
    Safe C i (k b) q st (seen ++ (ev b).map .did)
      (some { o with dev := d, hist := o.hist ++ ev b })
  | .addWait r k, _, st, seen, own => st = .running ∧ Safe C i k (some r) st seen own
  | .removeWait _ k, q, st, seen, own => q ≠ none ∧ Safe C i k none st seen own
  | .setState .running k, q, _, seen, own => Safe C i k q .running seen own
  | .setState .interruptible k, q, _, seen, own => ∃ o, own = some o ∧
    Safe C i k q .interruptible seen
      (some { o with sleepers := fun r => o.sleepers r ∨ q = some r })
  | .schedule k, q, _, seen, own => Safe C i k q .running seen own
  | .signalPending k, q, st, seen, own => ∀ b, Safe C i (k b) q st seen own
  | .wakeUp r k, q, st, seen, own => Safe C i k q st seen
    (own.map fun o => { o with sleepers := fun r' => o.sleepers r' ∧ r' ≠ r })

variable {C : Contract D Q E ι α} {i : ι}

/-- Whoever owns the semaphore does not mind that others are woken meanwhile. -/
theorem Safe.fewer {code : Code D Q E α} : ∀ {q st seen o S}, (∀ r, S r → o.sleepers r) →
    Safe C i code q st seen (some o) → Safe C i code q st seen (some { o with sleepers := S }) := by
  induction code with
  | ret a => exact fun _ h => nomatch h.1
  | down k ih => exact fun _ h => nomatch h.1
  | up k ih =>
    rintro q st seen o S hS ⟨_, ⟨⟩, hl, hk, h⟩
    exact ⟨_, rfl, hl, hk, fun S' hS' => h S' fun r hr => hS r (hS' r hr)⟩
  | access f ev k ih =>
    rintro q st seen o S hS ⟨_, b, d, ⟨⟩, hf, h⟩
    exact ⟨_, b, d, rfl, hf, ih b (o := { o with dev := d, hist := o.hist ++ ev b }) hS h⟩
  | addWait r k ih => exact fun hS h => ⟨h.1, ih hS h.2⟩
  | removeWait r k ih => exact fun hS h => ⟨h.1, ih hS h.2⟩
  | setState st k ih =>
    intro q _ seen o S hS h
    cases st with
    | running => exact ih hS h
    | interruptible =>
      obtain ⟨_, ⟨⟩, h⟩ := h
      exact ⟨_, rfl, ih (o := { o with sleepers := fun r => o.sleepers r ∨ q = some r })
        (fun r hr => hr.imp_left (hS r)) h⟩
  | schedule k ih => exact fun hS h => ih hS h
  | signalPending k ih => exact fun hS h b => ih b hS (h b)
  | wakeUp r k ih =>
    intro q st seen o S hS h
    exact ih (o := { o with sleepers := fun r' => o.sleepers r' ∧ r' ≠ r })
      (fun r' hr => hr.imp_left (hS r')) h

/-- ... and for a blind contract, not that they fall asleep either. -/
theorem Safe.blind (hb : C.Blind) {code : Code D Q E α} : ∀ {q st seen o} (S : Q → Prop),
    Safe C i code q st seen (some o) → Safe C i code q st seen (some { o with sleepers := S }) := by
  induction code with
  | ret a => exact fun _ h => nomatch h.1
  | down k ih => exact fun _ h => nomatch h.1
  | up k ih =>
    rintro q st seen o S ⟨_, ⟨⟩, hl, hk, h⟩
    refine ⟨_, rfl, hl, hk, fun S' _ hg => ?_⟩
    exact hb.inv { o with sleepers := fun _ => False } S'
      (h (fun _ => False) (fun _ hf => hf.elim) (hb.guard _ _))
  | access f ev k ih =>
    rintro q st seen o S ⟨_, b, d, ⟨⟩, hf, h⟩
    exact ⟨_, b, d, rfl, hf, ih b (o := { o with dev := d, hist := o.hist ++ ev b }) S h⟩
  | addWait r k ih => exact fun S h => ⟨h.1, ih S h.2⟩
  | removeWait r k ih => exact fun S h => ⟨h.1, ih S h.2⟩
  | setState st k ih =>
    intro q _ seen o S h
    cases st with
    | running => exact ih S h
    | interruptible =>
      obtain ⟨_, ⟨⟩, h⟩ := h
      exact ⟨_, rfl, ih (o := { o with sleepers := fun r => o.sleepers r ∨ q = some r }) _ h⟩
  | schedule k ih => exact fun S h => ih S h
  | signalPending k ih => exact fun S h b => ih b S (h b)
  | wakeUp r k ih =>
    intro q st seen o S h
    exact ih (o := { o with sleepers := fun r' => o.sleepers r' ∧ r' ≠ r }) _ h

theorem Safe.covered {code : Code D Q E α} {q st seen o S} (hS : C.Covers o.sleepers S)
    (h : Safe C i code q st seen (some o)) :
    Safe C i code q st seen (some { o with sleepers := S }) :=
  hS.elim (fun hb => Safe.blind hb S h) fun hS => Safe.fewer hS h

/-! ### Rules -/

section Rules

variable {q : Option Q} {st : TaskState} {seen : List (Seen D E)} {o : Held D Q E}

theorem safe_access {f : D → Option (β × D)} {ev : β → List E} {k : β → Code D Q E α} {b : β}
    {d : D} (hf : f o.dev = some (b, d))
    (hk : Safe C i (k b) q st (seen ++ (ev b).map .did)
      (some { o with dev := d, hist := o.hist ++ ev b })) :
    Safe C i (Driver.access f ev >>= k) q st seen (some o) := ⟨o, b, d, rfl, hf, hk⟩

theorem safe_load {f : D → β} {k : β → Code D Q E α}
    (hk : Safe C i (k (f o.dev)) q st seen (some o)) :
    Safe C i (load f >>= k) q st seen (some o) := by
  refine safe_access rfl ?_
  simpa using hk

theorem safe_store {f : D → D} {ev : List E} {k : Unit → Code D Q E α}
    (hk : Safe C i (k ()) q st (seen ++ ev.map .did)
      (some { o with dev := f o.dev, hist := o.hist ++ ev })) :
    Safe C i (store f ev >>= k) q st seen (some o) := safe_access rfl hk

theorem safe_down {k : Unit → Code D Q E α}
    (hk : ∀ o, C.inv o → Safe C i (k ()) q st (seen ++ [.took o.dev]) (some o)) :
    Safe C i (down >>= k) q st seen none := ⟨rfl, hk⟩

end Rules

/-! ## 4. Contracts hold in every interleaving -/

/-- What the owner of the semaphore works on in `c`. -/
def Config.held (c : Config D Q E ι α P) : Held D Q E := ⟨c.hist, c.dev, c.sleepers⟩

section Sound

variable [DecidableEq P]

/-- Every process of `c` is at a point that meets the contract; `holder` owns the semaphore. -/
structure SoundFor (C : Contract D Q E ι α) (c : Config D Q E ι α P) (holder : Option P) :
    Prop where
  sem : c.sem = if holder = none then 1 else 0
  free : holder = none → C.inv c.held
  idle : ∀ p, c.calls p = none → c.queue p = none ∧ c.state p = .running ∧ holder ≠ some p
  safe : ∀ p t, c.calls p = some t → ∃ st, (st = .running → c.state p = .running) ∧
    Safe C t.call t.code (c.queue p) st t.seen (if holder = some p then some c.held else none)

/-- No entry is lost, unless the contract does not mind. -/
def Contract.Intact (C : Contract D Q E ι α) (c : Config D Q E ι α P) : Prop :=
  C.Blind ∨ ∀ u, c.lost u = false

/-- Every process of `c` is at a point that meets the contract. -/
def Sound (C : Contract D Q E ι α) (c : Config D Q E ι α P) : Prop :=
  C.Intact c ∧ ∃ holder, SoundFor C c holder

theorem sound_init {d : D} (sig : P → Bool)
    (h : C.inv ⟨[], d, fun _ => False⟩) : Sound C (Config.init d sig : Config D Q E ι α P) := by
  refine ⟨Or.inr fun _ => rfl, none, rfl, fun _ => ?_, fun p _ => ⟨rfl, rfl, nofun⟩,
    fun p t ht => nomatch ht⟩
  exact C.fewer ⟨[], d, fun _ => False⟩ _ (fun q ⟨p, hp, _⟩ => nomatch hp) h

omit [DecidableEq P] in
/-- The owner of the semaphore goes on from what it actually finds. -/
theorem Safe.held {code : Code D Q E α} {q : Option Q} {st : TaskState} {seen : List (Seen D E)}
    {o : Held D Q E} {c : Config D Q E ι α P} (h : Safe C i code q st seen (some o))
    (hhist : c.hist = o.hist) (hdev : c.dev = o.dev) (hS : C.Covers o.sleepers c.sleepers) :
    Safe C i code q st seen (some c.held) := by
  have := h.covered hS
  rwa [← hhist, ← hdev] at this

/-- Only process `p` moved: the others at most woke up, and their owner keeps what it has. -/
theorem SoundFor.move {c c' : Config D Q E ι α P} {holder holder' : Option P} {p : P}
    {o : Option (Call D Q E ι α)} (h : SoundFor C c holder) (ho : c'.calls p = o)
    (hothers : ∀ u, u ≠ p → c'.calls u = c.calls u ∧ c'.queue u = c.queue u ∧
      (c.state u = .running → c'.state u = .running) ∧ (holder' = some u ↔ holder = some u))
    (hkept : holder ≠ some p → c'.hist = c.hist ∧ c'.dev = c.dev ∧
      C.Covers c.sleepers c'.sleepers)
    (hsem : c'.sem = if holder' = none then 1 else 0)
    (hfree : holder' = none → C.inv c'.held)
    (hidle : o = none → c'.queue p = none ∧ c'.state p = .running ∧ holder' ≠ some p)
    (hsafe : ∀ t, o = some t → ∃ st, (st = .running → c'.state p = .running) ∧
      Safe C t.call t.code (c'.queue p) st t.seen
        (if holder' = some p then some c'.held else none)) : SoundFor C c' holder' := by
  refine ⟨hsem, hfree, fun u hu => ?_, fun u t ht => ?_⟩
  · by_cases hup : u = p
    · subst hup
      exact hidle (ho.symm.trans hu)
    · obtain ⟨hcalls, hqueue, hstate, hhold⟩ := hothers u hup
      obtain ⟨h1, h2, h3⟩ := h.idle u (hcalls ▸ hu)
      exact ⟨hqueue.trans h1, hstate h2, fun hc => h3 (hhold.mp hc)⟩
  · by_cases hup : u = p
    · subst hup
      exact hsafe t (ho.symm.trans ht)
    · obtain ⟨hcalls, hqueue, hstate, hhold⟩ := hothers u hup
      obtain ⟨st, hst, hs⟩ := h.safe u t (hcalls ▸ ht)
      refine ⟨st, fun hr => hstate (hst hr), ?_⟩
      rw [hqueue]
      by_cases hu : holder = some u
      · rw [if_pos hu] at hs
        obtain ⟨hhist, hdev, hS⟩ := hkept fun hp => hup (Option.some.inj (hu.symm.trans hp))
        rw [if_pos (hhold.mpr hu)]
        exact hs.held hhist hdev hS
      · rw [if_neg hu] at hs
        rwa [if_neg (fun hc => hu (hhold.mp hc))]

/-- A process whose state is changed to `running` sleeps nowhere. -/
theorem Config.asleepOn_of_woken (c : Config D Q E ι α P) {p u : P} {q : Q}
    (hq : c.queue u = some q) (hs : Function.update c.state p .running u = .interruptible) :
    c.AsleepOn u q := by
  by_cases hup : u = p
  · subst hup
    exact nomatch (Function.update_self _ _ _).symm.trans hs
  · exact ⟨hq, by rwa [Function.update_of_ne hup] at hs⟩

theorem Config.goOn_calls (c : Config D Q E ι α P) (p : P) (t : Call D Q E ι α)
    (code : Code D Q E α) (more : List (Seen D E)) :
    (c.goOn p t code more).calls p = some { t with code := code, seen := t.seen ++ more } :=
  Function.update_self _ _ _

/-- Process `p` went on to `code` and neither touched the semaphore nor the device. -/
theorem SoundFor.goOn {c : Config D Q E ι α P} {holder : Option P} {p : P}
    (h : SoundFor C c holder) {t : Call D Q E ι α} {code : Code D Q E α}
    {lost : P → Bool} {spin : Q → Option P}
    (queue : P → Option Q) (state : P → TaskState) (st : TaskState) {own : Option (Held D Q E)}
    (hqueue : ∀ u, u ≠ p → queue u = c.queue u)
    (hstate : ∀ u, u ≠ p → c.state u = .running → state u = .running)
    (hst : st = .running → state p = .running)
    (hsafe : Safe C t.call code (queue p) st t.seen own)
    (hfree : holder ≠ some p → own = none ∧
      (C.Blind ∨ ∀ q u, queue u = some q → state u = .interruptible → c.AsleepOn u q))
    (hown : holder = some p → ∃ o, own = some o ∧ o.hist = c.hist ∧ o.dev = c.dev ∧
      (C.Blind ∨ ∀ q u, queue u = some q → state u = .interruptible → o.sleepers q)) :
    SoundFor C { c.goOn p t code [] with
      queue := queue, state := state, lost := lost, spin := spin } holder := by
  have hcalls : ∀ u, u ≠ p → (c.goOn p t code []).calls u = c.calls u :=
    fun u hu => Function.update_of_ne hu _ _
  have hless : holder ≠ some p → C.Covers c.sleepers
      fun q => ∃ u, queue u = some q ∧ state u = .interruptible :=
    fun hne => (hfree hne).2.imp_right fun h q ⟨u, hq, hs⟩ => ⟨u, h q u hq hs⟩
  refine h.move (c.goOn_calls p t code [])
    (fun u hu => ⟨hcalls u hu, hqueue u hu, hstate u hu, Iff.rfl⟩)
    (fun hne => ⟨rfl, rfl, hless hne⟩) h.sem (fun hn => ?_) nofun ?_
  · exact Contract.Covers.inv (o := c.held) (hless (by rw [hn]; nofun)) (h.free hn)
  · rintro _ ⟨⟩
    refine ⟨st, hst, ?_⟩
    simp only [List.append_nil]
    split
    · rename_i hh
      obtain ⟨o, rfl, hhist, hdev, hS⟩ := hown hh
      exact hsafe.held hhist.symm hdev.symm
        (hS.imp_right fun hS q ⟨u, hq, hs⟩ => hS q u hq hs)
    · rename_i hh
      obtain ⟨rfl, -⟩ := hfree hh
      exact hsafe

/-- ... and nobody fell asleep. -/
theorem SoundFor.goOn_awake {c : Config D Q E ι α P} {holder : Option P} {p : P}
    (h : SoundFor C c holder) {t : Call D Q E ι α} {code : Code D Q E α}
    {lost : P → Bool} {spin : Q → Option P}
    (queue : P → Option Q) (state : P → TaskState) (st : TaskState)
    (hqueue : ∀ u, u ≠ p → queue u = c.queue u)
    (hstate : ∀ u, u ≠ p → c.state u = .running → state u = .running)
    (hst : st = .running → state p = .running)
    (hsafe : Safe C t.call code (queue p) st t.seen (if holder = some p then some c.held else none))
    (hless : C.Blind ∨ ∀ q u, queue u = some q → state u = .interruptible → c.AsleepOn u q) :
    SoundFor C { c.goOn p t code [] with
      queue := queue, state := state, lost := lost, spin := spin } holder := by
  refine h.goOn queue state st hqueue hstate hst hsafe (fun hne => ⟨if_neg hne, hless⟩) fun hh => ?_
  exact ⟨c.held, if_pos hh, rfl, rfl, hless.imp_right fun h q u hq hs => ⟨u, h q u hq hs⟩⟩

/-! ### One operation

`holder` owns the semaphore and process `p` is about to execute the operation. -/

section Operation

variable {c : Config D Q E ι α P} {holder : Option P} {p : P} {t : Call D Q E ι α}
  {k : Code D Q E α} {st : TaskState}

theorem SoundFor.ret {a : α} (h : SoundFor C c holder) (hst : st = .running → c.state p = .running)
    (hs : Safe C t.call (.ret a) (c.queue p) st t.seen
      (if holder = some p then some c.held else none)) :
    SoundFor C { c with calls := Function.update c.calls p none } holder := by
  obtain ⟨hown, hq, rfl, -⟩ := hs
  have hne : holder ≠ some p := fun hh => nomatch (if_pos hh).symm.trans hown
  exact h.move (Function.update_self _ _ _)
    (fun u hu => ⟨Function.update_of_ne hu _ _, rfl, id, Iff.rfl⟩)
    (fun _ => ⟨rfl, rfl, Or.inr fun _ => id⟩) h.sem h.free (fun _ => ⟨hq, hst rfl, hne⟩) nofun

/-- The semaphore is taken: its new owner finds the invariant. -/
theorem SoundFor.down (h : SoundFor C c holder) (hst : st = .running → c.state p = .running)
    (hsem : c.sem ≠ 0)
    (hs : Safe C t.call (.down k) (c.queue p) st t.seen
      (if holder = some p then some c.held else none)) :
    SoundFor C { c.goOn p t k [.took c.dev] with sem := c.sem - 1 } (some p) := by
  have hfree : holder = none := by
    by_contra hne
    exact hsem (h.sem.trans (if_neg hne))
  subst hfree
  refine h.move (c.goOn_calls p _ k _) (fun u hu => ⟨Function.update_of_ne hu _ _, rfl, id, ?_⟩)
    (fun _ => ⟨rfl, rfl, Or.inr fun _ => id⟩) ?_ nofun nofun ?_
  · exact ⟨fun hc => absurd (Option.some.inj hc).symm hu, nofun⟩
  · show c.sem - 1 = 0
    rw [h.sem]
    rfl
  · rintro _ ⟨⟩
    refine ⟨st, hst, ?_⟩
    rw [if_pos rfl]
    exact hs.2 c.held (h.free rfl)

/-- The semaphore is given back: its owner owes the invariant. -/
theorem SoundFor.up (h : SoundFor C c holder) (hst : st = .running → c.state p = .running)
    (hg : C.guard t.seen c.sleepers)
    (hs : Safe C t.call (.up k) (c.queue p) st t.seen
      (if holder = some p then some c.held else none)) :
    SoundFor C { c.goOn p t k [] with sem := c.sem + 1 } none := by
  obtain ⟨o, hown, -, hs, hgive⟩ := hs
  obtain ⟨hh, ⟨⟩⟩ := Option.ite_none_right_eq_some.mp hown
  refine h.move (c.goOn_calls p _ k _) (fun u hu => ⟨Function.update_of_ne hu _ _, rfl, id, ?_⟩)
    (fun hne => absurd hh hne) ?_ (fun _ => ?_) nofun ?_
  · exact ⟨nofun, fun hc => absurd (Option.some.inj (hc.symm.trans hh)) hu⟩
  · show c.sem + 1 = 1
    rw [h.sem, hh]
    rfl
  · exact hgive c.sleepers (fun _ => id) hg
  · rintro _ ⟨⟩
    refine ⟨st, hst, ?_⟩
    rw [if_neg nofun]
    simp only [List.append_nil]
    exact hs

/-- The owner of the semaphore accesses the device, and the access is defined. -/
theorem SoundFor.access {γ : Type} {f : D → Option (γ × D)} {ev : γ → List E}
    {k : γ → Code D Q E α} (h : SoundFor C c holder) (hst : st = .running → c.state p = .running)
    (hs : Safe C t.call (.access f ev k) (c.queue p) st t.seen
      (if holder = some p then some c.held else none)) :
    ∃ b d, f c.dev = some (b, d) ∧ SoundFor C
      { c.goOn p t (k b) ((ev b).map .did) with dev := d, hist := c.hist ++ ev b } holder := by
  obtain ⟨o, b, d, hown, hf, hs⟩ := hs
  obtain ⟨hh, ⟨⟩⟩ := Option.ite_none_right_eq_some.mp hown
  refine ⟨b, d, hf, h.move (c.goOn_calls p _ _ _)
    (fun u hu => ⟨Function.update_of_ne hu _ _, rfl, id, Iff.rfl⟩)
    (fun hne => absurd hh hne) h.sem (fun hn => nomatch hn.symm.trans hh) nofun ?_⟩
  rintro _ ⟨⟩
  refine ⟨st, hst, ?_⟩
  rw [if_pos hh]
  exact hs

/-- Putting the entry on a queue, or taking it off: a process that moves its own entry while it
is running puts nobody to sleep. -/
theorem SoundFor.moveWait {q : Option Q} {lost : P → Bool} {spin : Q → Option P}
    (h : SoundFor C c holder)
    (hst : st = .running → c.state p = .running) (hq : q ≠ none → st = .running)
    (hs : Safe C t.call k q st t.seen (if holder = some p then some c.held else none)) :
    SoundFor C { c.goOn p t k [] with
      queue := Function.update c.queue p q, lost := lost, spin := spin } holder := by
  refine h.goOn_awake _ c.state st (fun u hu => Function.update_of_ne hu _ _) (fun _ _ => id) hst ?_
    (Or.inr fun r u hr hsleep => ?_)
  · rwa [Function.update_self]
  · by_cases hup : u = p
    · subst hup
      rw [Function.update_self] at hr
      exact nomatch (hst (hq (hr ▸ nofun))).symm.trans hsleep
    · exact ⟨by rwa [Function.update_of_ne hup] at hr, hsleep⟩

/-- The process runs on, whatever its state was. -/
theorem SoundFor.runOn (h : SoundFor C c holder)
    (hs : Safe C t.call k (c.queue p) .running t.seen
      (if holder = some p then some c.held else none)) :
    SoundFor C { c.goOn p t k [] with state := Function.update c.state p .running } holder :=
  h.goOn_awake c.queue _ .running (fun _ _ => rfl)
    (fun _ hu hr => (Function.update_of_ne hu _ _).trans hr)
    (fun _ => Function.update_self _ _ _) hs (Or.inr fun _ _ hq hs => c.asleepOn_of_woken hq hs)

/-- The owner of the semaphore announces that it is going to sleep on its queue. -/
theorem SoundFor.fallAsleep (h : SoundFor C c holder)
    (hs : Safe C t.call (.setState .interruptible k) (c.queue p) st t.seen
      (if holder = some p then some c.held else none)) :
    SoundFor C { c.goOn p t k [] with state := Function.update c.state p .interruptible }
      holder := by
  obtain ⟨o, hown, hs⟩ := hs
  obtain ⟨hh, ⟨⟩⟩ := Option.ite_none_right_eq_some.mp hown
  refine h.goOn c.queue _ .interruptible (fun _ _ => rfl)
    (fun u hu hr => (Function.update_of_ne hu _ _).trans hr) nofun hs
    (fun hne => absurd hh hne) fun _ => ⟨_, rfl, rfl, rfl, Or.inr fun r u hq hr => ?_⟩
  by_cases hup : u = p
  · subst hup
    exact Or.inr hq
  · exact Or.inl ⟨u, hq, by rwa [Function.update_of_ne hup] at hr⟩

/-- Everybody on the queue `q` is woken, but for lost entries. -/
theorem SoundFor.wakeUp [DecidableEq Q] {q : Q} (h : SoundFor C c holder) (hi : C.Intact c)
    (hst : st = .running → c.state p = .running)
    (hs : Safe C t.call (.wakeUp q k) (c.queue p) st t.seen
      (if holder = some p then some c.held else none)) :
    SoundFor C { c.goOn p t k [] with
      state := fun u => if c.queue u = some q ∧ c.lost u = false then .running else c.state u }
      holder := by
  have hless : C.Blind ∨ ∀ r u, c.queue u = some r →
      (if c.queue u = some q ∧ c.lost u = false then TaskState.running else c.state u) =
        .interruptible → c.AsleepOn u r ∧ r ≠ q := by
    refine hi.imp_right fun hlost r u hq hr => ?_
    split at hr
    · exact nomatch hr
    · rename_i hne
      exact ⟨⟨hq, hr⟩, fun hrq => hne ⟨hq.trans (congrArg some hrq), hlost u⟩⟩
  have hrun : ∀ u, c.state u = .running →
      (if c.queue u = some q ∧ c.lost u = false then TaskState.running else c.state u) =
        .running := by
    intro u hu
    split
    · rfl
    · exact hu
  refine h.goOn c.queue _ st (fun _ _ => rfl) (fun u _ => hrun u) (fun hr => hrun p (hst hr))
    hs (fun hne => ⟨by rw [if_neg hne]; rfl, hless.imp_right fun hl r u hq hr => (hl r u hq hr).1⟩)
    fun hh => ?_
  rw [if_pos hh]
  exact ⟨_, rfl, rfl, rfl,
    hless.imp_right fun hl r u hq hr => ⟨⟨u, (hl r u hq hr).1⟩, (hl r u hq hr).2⟩⟩

end Operation

variable [DecidableEq Q]

/-- **One operation keeps every process at a point that meets the contract.** -/
theorem SoundFor.advance {c c' : Config D Q E ι α P} {p : P} {holder : Option P}
    (h : SoundFor C c holder) (hi : C.Intact c) (hp : c.advance p = some c')
    (hg : c.GuardedUp C.guard p) : ∃ holder', SoundFor C c' holder' := by
  cases ht : c.calls p with
  | none => simp [Config.advance, ht] at hp
  | some t =>
    obtain ⟨st, hst, hs⟩ := h.safe p t ht
    obtain ⟨i, code, seen⟩ := t
    cases code with
    | ret a =>
      simp only [Config.advance, ht, Option.some.injEq] at hp
      obtain rfl := hp
      exact ⟨holder, h.ret hst hs⟩
    | down k =>
      simp only [Config.advance, ht] at hp
      split at hp
      · exact nomatch hp
      · rename_i hsem
        obtain rfl := Option.some.inj hp
        exact ⟨some p, h.down hst hsem hs⟩
    | up k =>
      simp only [Config.advance, ht, Option.some.injEq] at hp
      obtain rfl := hp
      exact ⟨none, h.up hst (hg _ ⟨ht, k, rfl⟩) hs⟩
    | access f ev k =>
      obtain ⟨b, d, hf, hd⟩ := h.access hst hs
      simp only [Config.advance, ht, hf, Option.some.injEq] at hp
      obtain rfl := hp
      exact ⟨holder, hd⟩
    | addWait q k =>
      simp only [Config.advance, ht] at hp
      split at hp
      · obtain rfl := Option.some.inj hp
        exact ⟨holder, h.moveWait hst (fun _ => hs.1) hs.2⟩
      · exact nomatch hp
    | removeWait r k =>
      simp only [Config.advance, ht] at hp
      have hout : ∀ spin : Q → Option P, SoundFor C { c.goOn p ⟨i, .removeWait r k, seen⟩ k [] with
          queue := Function.update c.queue p none, spin := spin } holder :=
        fun _ => h.moveWait hst (fun hq => absurd rfl hq) hs.2
      split at hp
      · exact nomatch hp
      · split at hp
        · split at hp
          · obtain rfl := Option.some.inj hp
            exact ⟨holder, hout c.spin⟩
          · exact nomatch hp
        · split at hp
          · -- the removal begins
            obtain rfl := Option.some.inj hp
            exact ⟨holder, h.sem, h.free, h.idle, h.safe⟩
          · split at hp
            · obtain rfl := Option.some.inj hp
              exact ⟨holder, hout _⟩
            · exact nomatch hp
    | setState s k =>
      simp only [Config.advance, ht, Option.some.injEq] at hp
      obtain rfl := hp
      cases s with
      | running => exact ⟨holder, h.runOn hs⟩
      | interruptible => exact ⟨holder, h.fallAsleep hs⟩
    | schedule k =>
      simp only [Config.advance, ht] at hp
      split at hp
      · obtain rfl := Option.some.inj hp
        exact ⟨holder, h.runOn hs⟩
      · exact nomatch hp
    | signalPending k =>
      simp only [Config.advance, ht, Option.some.injEq] at hp
      obtain rfl := hp
      exact ⟨holder, h.goOn_awake c.queue c.state st (fun _ _ => rfl)
        (fun _ _ => id) hst (hs (c.sig p)) (Or.inr fun r u hq hr => ⟨hq, hr⟩)⟩
    | wakeUp q k =>
      simp only [Config.advance, ht] at hp
      split at hp
      · obtain rfl := Option.some.inj hp
        exact ⟨holder, h.wakeUp hi hst hs⟩
      · exact nomatch hp

theorem Sound.advance {c c' : Config D Q E ι α P} {p : P} (h : Sound C c)
    (hp : c.advance p = some c') (hg : c.GuardedUp C.guard p) : Sound C c' := by
  obtain ⟨hi, holder, h⟩ := h
  refine ⟨hi.imp_right fun hlost u => ?_, h.advance hi hp hg⟩
  cases hu : c'.lost u with
  | false => rfl
  | true => exact (Config.advance_lost hp u hu).symm.trans (hlost u)

/-- A blind contract does not mind that entries get lost. -/
theorem Sound.lose {c : Config D Q E ι α P} (hb : C.Blind) (h : Sound C c) (q : Q) (l : P → Bool) :
    Sound C (c.lose q l) := by
  obtain ⟨-, holder, h⟩ := h
  exact ⟨Or.inl hb, holder, h.sem, h.free, h.idle, h.safe⟩

/-- **One step keeps every process at a point that meets the contract.** -/
theorem Step.sound {body : ι → Code D Q E α} {c c' : Config D Q E ι α P} {p : P} {e : Event ι}
    (hbody : ∀ i, Safe C i (body i) none .running [] none) (hstep : Step body c p e c')
    (hrace : e = .race → C.Blind) (hg : e = .advance → c.GuardedUp C.guard p) (h : Sound C c) :
    Sound C c' := by
  cases hstep with
  | enter hp =>
    obtain ⟨hi, holder, h⟩ := h
    obtain ⟨hq, hst, hne⟩ := h.idle p hp
    refine ⟨hi, holder, h.move (Function.update_self _ _ _)
      (fun u hu => ⟨Function.update_of_ne hu _ _, rfl, id, Iff.rfl⟩)
      (fun _ => ⟨rfl, rfl, Or.inr fun _ => id⟩) h.sem h.free nofun ?_⟩
    rintro _ ⟨⟩
    refine ⟨.running, fun _ => hst, ?_⟩
    rw [if_neg hne]
    show Safe C _ _ (c.queue p) _ _ _
    rw [hq]
    exact hbody _
  | advance hp => exact h.advance hp (hg rfl)
  | race hr hp =>
    have hb : C.Blind := hrace rfl
    exact ((h.lose hb _ _).advance hp fun _ _ => hb.guard _ _).lose hb _ _
  | signal =>
    obtain ⟨hi, holder, h⟩ := h
    have hless : C.Covers c.sleepers fun q => ∃ u, c.queue u = some q ∧
        Function.update c.state p .running u = .interruptible :=
      Or.inr fun q ⟨u, hq, hs⟩ => ⟨u, c.asleepOn_of_woken hq hs⟩
    refine ⟨hi, holder, h.move (p := p) rfl (fun u hu => ⟨rfl, rfl, fun hr => ?_, Iff.rfl⟩)
      (fun _ => ⟨rfl, rfl, hless⟩) h.sem
      (fun hn => Contract.Covers.inv (o := c.held) hless (h.free hn))
      (fun hc => ?_) fun t ht => ?_⟩
    · exact (Function.update_of_ne hu _ _).trans hr
    · obtain ⟨hq, -, hne⟩ := h.idle p hc
      exact ⟨hq, Function.update_self _ _ _, hne⟩
    · obtain ⟨st, hst, hs⟩ := h.safe p t ht
      refine ⟨st, fun _ => Function.update_self _ _ _, ?_⟩
      split
      · rename_i hh
        rw [if_pos hh] at hs
        exact hs.held rfl rfl hless
      · rename_i hh
        rwa [if_neg hh] at hs
  | unsignal =>
    obtain ⟨hi, holder, h⟩ := h
    exact ⟨hi, holder, h.sem, h.free, h.idle, h.safe⟩

/-- **Every interleaving without a race, whose `up`s meet the guard, keeps every process at a point
that meets the contract.** -/
theorem ReachWhen.sound {body : ι → Code D Q E α} {c c' : Config D Q E ι α P}
    (hbody : ∀ i, Safe C i (body i) none .running [] none) (h : ReachWhen body C.guard c c')
    (hc : Sound C c) : Sound C c' := by
  induction h with
  | refl => exact hc
  | tail _ hstep ih =>
    obtain ⟨p, e, hstep, hg⟩ := hstep
    refine hstep.sound hbody (fun he => ?_) (fun he => (hg (Or.inl he)).2) ih
    subst he
    cases hstep with
    | race hr => exact absurd ⟨_, hr⟩ (hg (Or.inr rfl)).1

/-- **A blind contract is met in every interleaving.** -/
theorem Reach.sound {body : ι → Code D Q E α} {c c' : Config D Q E ι α P}
    (hbody : ∀ i, Safe C i (body i) none .running [] none) (hb : C.Blind)
    (h : Reach body c c') (hc : Sound C c) : Sound C c' := by
  induction h with
  | refl => exact hc
  | tail _ hstep ih =>
    obtain ⟨p, e, hstep⟩ := hstep
    exact hstep.sound hbody (fun _ => hb) (fun _ _ _ => hb.guard _ _) ih

/-! ### What a contract says about a configuration -/

omit [DecidableEq Q] in
/-- While the semaphore is free, the invariant holds. -/
theorem Sound.inv {c : Config D Q E ι α P} (h : Sound C c) (hsem : c.sem ≠ 0) : C.inv c.held := by
  obtain ⟨-, holder, h⟩ := h
  refine h.free ?_
  by_contra hne
  exact hsem (h.sem.trans (if_neg hne))

omit [DecidableEq Q] in
/-- A call that returns meets its postcondition. -/
theorem Sound.post {c : Config D Q E ι α P} (h : Sound C c) {p : P} {t : Call D Q E ι α} {a : α}
    (hp : c.calls p = some t) (ha : t.code = .ret a) : C.post t.call t.seen a := by
  obtain ⟨-, holder, h⟩ := h
  obtain ⟨st, -, hs⟩ := h.safe p t hp
  rw [ha] at hs
  exact hs.2.2.2

omit [DecidableEq Q] in
/-- The semaphore is given back by its owner only, and as the contract says. -/
theorem Sound.atUp {c : Config D Q E ι α P} (h : Sound C c) {p : P} {t : Call D Q E ι α}
    (hp : c.AtUp p t) : c.sem = 0 ∧ C.leaves t.seen c.dev := by
  obtain ⟨-, holder, h⟩ := h
  obtain ⟨hp, k, hk⟩ := hp
  obtain ⟨st, -, hs⟩ := h.safe p t hp
  rw [hk] at hs
  obtain ⟨o, hown, hl, -, -⟩ := hs
  obtain ⟨hh, ⟨⟩⟩ := Option.ite_none_right_eq_some.mp hown
  exact ⟨h.sem.trans (if_neg (by rw [hh]; nofun)), hl⟩

end Sound

/-! ## 5. Executing a schedule -/

section Execute

variable [DecidableEq P] [DecidableEq Q]

/-- The step of process `p` that is the event `e`, when it is possible and no race. -/
def Config.next (body : ι → Code D Q E α) (c : Config D Q E ι α P) (p : P) :
    Event ι → Option (Config D Q E ι α P)
  | .enter i =>
    match c.calls p with
    | none => some { c with calls := Function.update c.calls p (some ⟨i, body i, []⟩) }
    | some _ => none
  | .advance => c.advance p
  | .race => none
  | .signal =>
    some { c with sig := Function.update c.sig p true
                  state := Function.update c.state p .running }
  | .unsignal => some { c with sig := Function.update c.sig p false }

/-- The events of a schedule, one after the other, as long as `ok` says that they may happen. -/
def Config.execute (body : ι → Code D Q E α) (ok : Config D Q E ι α P → P → Bool)
    (c : Config D Q E ι α P) : List (P × Event ι) → Option (Config D Q E ι α P)
  | [] => some c
  | (p, e) :: l =>
    if ok c p then (c.next body p e).bind fun c' => c'.execute body ok l else none

theorem Config.next_step {body : ι → Code D Q E α} {c c' : Config D Q E ι α P} {p : P}
    {e : Event ι} (h : c.next body p e = some c') : Step body c p e c' := by
  cases e with
  | enter i =>
    rw [Config.next] at h
    split at h
    · rename_i hp
      obtain rfl := Option.some.inj h
      exact .enter hp
    · exact nomatch h
  | advance => exact .advance h
  | race => exact nomatch h
  | signal =>
    obtain rfl := Option.some.inj h
    exact .signal
  | unsignal =>
    obtain rfl := Option.some.inj h
    exact .unsignal

/-- **What a schedule executes, the processes can reach**, by steps that were allowed. -/
theorem Config.execute_steps {body : ι → Code D Q E α} {ok : Config D Q E ι α P → P → Bool}
    {c c' : Config D Q E ι α P} {l : List (P × Event ι)} (h : c.execute body ok l = some c') :
    Relation.ReflTransGen (fun c c' => ∃ p e, Step body c p e c' ∧ ok c p = true) c c' := by
  induction l generalizing c with
  | nil =>
    obtain rfl := Option.some.inj h
    exact .refl
  | cons x l ih =>
    rw [Config.execute] at h
    split at h
    · rename_i hok
      obtain ⟨c1, h1, h2⟩ := Option.bind_eq_some_iff.mp h
      exact .head ⟨x.1, x.2, Config.next_step h1, hok⟩ (ih h2)
    · exact nomatch h

theorem Config.execute_reach {body : ι → Code D Q E α} {ok : Config D Q E ι α P → P → Bool}
    {c c' : Config D Q E ι α P} {l : List (P × Event ι)} (h : c.execute body ok l = some c') :
    Reach body c c' :=
  Relation.ReflTransGen.mono (fun _ _ ⟨p, e, hstep, _⟩ => ⟨p, e, hstep⟩) _ _ (execute_steps h)

theorem Config.execute_reachWhen {body : ι → Code D Q E α} {ok : Config D Q E ι α P → P → Bool}
    {guard : List (Seen D E) → (Q → Prop) → Prop} {c c' : Config D Q E ι α P}
    {l : List (P × Event ι)}
    (hok : ∀ c p, ok c p = true → ¬ c.Races p ∧ c.GuardedUp guard p)
    (h : c.execute body ok l = some c') : ReachWhen body guard c c' :=
  Relation.ReflTransGen.mono (fun _ _ ⟨p, e, hstep, hp⟩ => ⟨p, e, hstep, fun _ => hok _ p hp⟩) _ _
    (execute_steps h)

end Execute

end Driver
