/-
# globalfifo is a queue

Whatever the processes do and in whatever order: while the semaphore is free, the bytes that
writes accepted since the last clear are those that reads returned since, followed by those in
the fifo.  A call that fails has accepted and returned nothing, whatever it left behind the
contents.
-/
import Simplefs.Globalfifo.Rules

namespace Globalfifo

open Driver

/-! ## 1. What went in and what came out -/

/-- The bytes accepted since the last clear, in order. -/
def accepted (h : List FifoEvent) : List UInt8 :=
  h.foldl (fun bs e => match e with
    | .accepted new => bs ++ new
    | .returned _ => bs
    | .cleared => []) []

/-- The bytes returned since the last clear, in order. -/
def returned (h : List FifoEvent) : List UInt8 :=
  h.foldl (fun bs e => match e with
    | .accepted _ => bs
    | .returned old => bs ++ old
    | .cleared => []) []

@[simp] theorem accepted_accepted (h : List FifoEvent) (bs : List UInt8) :
    accepted (h ++ [.accepted bs]) = accepted h ++ bs := by
  rw [accepted, List.foldl_append]
  rfl

@[simp] theorem accepted_returned (h : List FifoEvent) (bs : List UInt8) :
    accepted (h ++ [.returned bs]) = accepted h := by
  rw [accepted, List.foldl_append]
  rfl

@[simp] theorem accepted_cleared (h : List FifoEvent) : accepted (h ++ [.cleared]) = [] := by
  rw [accepted, List.foldl_append]
  rfl

@[simp] theorem returned_accepted (h : List FifoEvent) (bs : List UInt8) :
    returned (h ++ [.accepted bs]) = returned h := by
  rw [returned, List.foldl_append]
  rfl

@[simp] theorem returned_returned (h : List FifoEvent) (bs : List UInt8) :
    returned (h ++ [.returned bs]) = returned h ++ bs := by
  rw [returned, List.foldl_append]
  rfl

@[simp] theorem returned_cleared (h : List FifoEvent) : returned (h ++ [.cleared]) = [] := by
  rw [returned, List.foldl_append]
  rfl

/-! ## 2. The contract -/

/-- The device `d` is the queue that the history `h` has led to. -/
structure IsQueue (h : List FifoEvent) (d : GlobalfifoDev) : Prop where
  le_size : d.currentLen ≤ globalfifoSize
  order : accepted h = returned h ++ d.contents

/-- What a call that returned `ret` did to the bytes in the fifo. -/
def Effect : Request → List FifoEvent → Ret → Prop
  | _, evs, .error _ => evs = []
  | .read _ count _, evs, .ok n => n ≤ count ∧ ∃ bytes, bytes.length = n ∧ evs = [.returned bytes]
  | .write _ count buf, evs, .ok n =>
    n ≤ count ∧ (buf.take n).length = n ∧ evs = [.accepted (buf.take n)]
  | .ioctl _, evs, .ok _ => evs = [.cleared]
  | .poll, evs, .ok _ => evs = []

/-- The result `n` of a transfer that asked for something is not 0. -/
def Progresses : Request → Nat → Prop
  | .read _ count _, n => 0 < count → 1 ≤ n
  | .write _ count _, n => 0 < count → 1 ≤ n
  | _, _ => True

/-- A transfer that slept finds, whenever it has the semaphore again, what it waited for: `ds`
is what it found at each `down`, the first one before it slept. -/
def FoundReady : Request → List GlobalfifoDev → Prop
  | .read _ count _, ds => 0 < count → ∀ d ∈ ds.tail, d.currentLen ≠ 0
  | .write _ count _, ds => 0 < count → ∀ d ∈ ds.tail, d.currentLen ≠ globalfifoSize
  | _, _ => True

/-- What the result of a call says about what it found. -/
def Moves (i : Request) (ds : List GlobalfifoDev) : Ret → Prop
  | .ok n => Progresses i n ↔ FoundReady i ds
  | .error _ => True

/-- The contract of a queue. -/
def queueContract : Contract GlobalfifoDev WaitQueue FifoEvent Request Ret where
  inv o := IsQueue o.hist o.dev
  guard _ _ := True
  leaves _ _ := True
  post i seen ret := Effect i (events seen) ret ∧ Moves i (found seen) ret
  fewer _ _ _ h := h

theorem givesBack_queue {seen : List (Seen GlobalfifoDev FifoEvent)}
    {o : Held GlobalfifoDev WaitQueue FifoEvent} (h : IsQueue o.hist o.dev) :
    GivesBack queueContract seen o := ⟨trivial, fun _ _ _ => h⟩

/-! ## 3. The routines -/

section Routines

variable {b : Bool} {count room cmd : Nat} {buf : List UInt8}
  {o : Held GlobalfifoDev WaitQueue FifoEvent} (ds : List GlobalfifoDev)

/-- A failing transfer, which has found `ds`. -/
theorem queue_failed {i : Request} {e : Errno} :
    queueContract.post i (ds.map .took) (.error e) := by
  constructor
  · rw [events_map_took]
    cases i <;> rfl
  · trivial

theorem queue_readEnds (h : IsQueue o.hist o.dev)
    (hmoves : ∀ n, n = min count o.dev.currentLen → Moves (.read b count room) ds (.ok n)) :
    ReadEnds queueContract (.read b count room) count (ds.map .took) o := by
  refine ⟨⟨givesBack_queue h, queue_failed ds⟩, fun n d hn hlen hcontents => ⟨?_, ?_⟩⟩
  · refine givesBack_queue ⟨?_, ?_⟩
    · have := h.le_size
      show d.currentLen ≤ globalfifoSize
      omega
    · rw [accepted_returned, returned_returned, hcontents, h.order, List.append_assoc,
        List.take_append_drop]
  · have hbytes : (o.dev.contents.take n).length = n := by
      rw [List.length_take, GlobalfifoDev.length_contents h.le_size]
      omega
    constructor
    · rw [events_append, events_map_took]
      exact ⟨by omega, _, hbytes, rfl⟩
    · rw [found_append, found_map_took]
      exact (List.append_nil ds).symm ▸ hmoves n hn

theorem queue_writeEnds (h : IsQueue o.hist o.dev)
    (hmoves : ∀ n, n = min count (globalfifoSize - o.dev.currentLen) →
      Moves (.write b count buf) ds (.ok n)) :
    WriteEnds queueContract (.write b count buf) count buf (ds.map .took) o := by
  refine ⟨fun d hlen hcontents => ⟨?_, queue_failed ds⟩, fun n d hn hbuf hlen hcontents => ⟨?_, ?_⟩⟩
  · exact givesBack_queue ⟨hlen ▸ h.le_size, hcontents ▸ h.order⟩
  · refine givesBack_queue ⟨?_, ?_⟩
    · have := h.le_size
      show d.currentLen ≤ globalfifoSize
      omega
    · rw [accepted_accepted, returned_accepted, hcontents, h.order, List.append_assoc]
  · constructor
    · rw [events_append, events_map_took]
      exact ⟨by omega, List.length_take_of_le hbuf, rfl⟩
    · rw [found_append, found_map_took]
      exact (List.append_nil ds).symm ▸ hmoves n hn

/-- `globalfifo_read`: a call that did not sleep has found something to read. -/
theorem queue_read : Safe queueContract (.read b count room) (globalfifoRead b count room) none
    .running [] none := by
  refine safe_globalfifoRead (fun o h => h.le_size)
    (fun o h _ => ⟨givesBack_queue h, queue_failed [o.dev]⟩)
    (fun o h _ => ⟨givesBack_queue h, queue_failed [o.dev]⟩)
    (fun o h h0 => queue_readEnds [o.dev] h fun n hn => imp_congr_right fun hcount => ?_)
    (fun o o' _ _ h' => queue_readEnds [o.dev, o'.dev] h' fun n hn =>
      imp_congr_right fun hcount => ?_)
  · simp only [List.tail_cons, List.not_mem_nil, false_imp_iff, implies_true, iff_true]
    omega
  · simp only [List.tail_cons, List.mem_singleton, forall_eq]
    omega

/-- `globalfifo_write`: a call that did not sleep has found room. -/
theorem queue_write : Safe queueContract (.write b count buf) (globalfifoWrite b count buf) none
    .running [] none := by
  refine safe_globalfifoWrite (fun o h => h.le_size)
    (fun o h _ => ⟨givesBack_queue h, queue_failed [o.dev]⟩)
    (fun o h _ => ⟨givesBack_queue h, queue_failed [o.dev]⟩)
    (fun o h hf => queue_writeEnds [o.dev] h fun n hn => imp_congr_right fun hcount => ?_)
    (fun o o' _ _ h' => queue_writeEnds [o.dev, o'.dev] h' fun n hn =>
      imp_congr_right fun hcount => ?_)
  · have := h.le_size
    simp only [List.tail_cons, List.not_mem_nil, false_imp_iff, implies_true, iff_true]
    omega
  · have := h'.le_size
    simp only [List.tail_cons, List.mem_singleton, forall_eq]
    omega

/-- Every call meets the contract of a queue. -/
theorem queue_body (i : Request) : Safe queueContract i i.body none .running [] none := by
  cases i with
  | read b count room => exact queue_read
  | write b count buf => exact queue_write
  | ioctl cmd =>
    refine safe_globalfifoIoctl ⟨rfl, trivial⟩ fun o _ => ⟨givesBack_queue ⟨?_, ?_⟩, rfl, Iff.rfl⟩
    · exact Nat.zero_le _
    · rw [accepted_cleared, returned_cleared]
      rfl
  | poll => exact safe_globalfifoPoll fun o h => ⟨givesBack_queue h, fun _ => ⟨rfl, Iff.rfl⟩⟩

end Routines

/-! ## 4. Every interleaving -/

section Interleavings

variable {P : Type} [DecidableEq P] {sig : P → Bool} {c : Fifo P}

theorem isQueue_init : IsQueue [] globalfifoInit := ⟨Nat.zero_le _, rfl⟩

theorem sound_of_reach (h : Reach Request.body (Fifo.loaded sig) c) : Sound queueContract c :=
  h.sound queue_body ⟨fun _ _ h => h, fun _ _ => trivial⟩ (sound_init sig isQueue_init)

/-- **globalfifo is a FIFO for every schedule.**  While the semaphore is free, the fifo holds
what was accepted and not returned yet, in order; a call does to the bytes what its result
says; and whatever is done to them, is done by some call. -/
theorem reach_isQueue (h : Reach Request.body (Fifo.loaded sig) c) :
    (c.sem ≠ 0 → IsQueue c.hist c.dev) ∧
    (∀ p t ret, c.calls p = some t → t.code = .ret ret → Effect t.call (events t.seen) ret) ∧
    (∀ p e c', Step Request.body c p e c' → c'.hist = c.hist ∨
      ∃ t t' evs, c.calls p = some t ∧ c'.calls p = some t' ∧ t'.call = t.call ∧
        c'.hist = c.hist ++ evs ∧ events t'.seen = events t.seen ++ evs) := by
  have hs := sound_of_reach h
  exact ⟨hs.inv, fun p t ret hp hret => (hs.post hp hret).1, fun p e c' hstep => hstep.hist⟩

/-- **A transfer makes progress exactly when it finds, after its sleep, what it waited for.** -/
theorem progresses_iff (h : Reach Request.body (Fifo.loaded sig) c) {p : P}
    {t : Call GlobalfifoDev WaitQueue FifoEvent Request Ret} {n : Nat}
    (hp : c.calls p = some t) (hret : t.code = .ret (.ok n)) :
    Progresses t.call n ↔ FoundReady t.call (found t.seen) :=
  ((sound_of_reach h).post hp hret).2

end Interleavings

/-! ### Two readers and one byte -/

/-- A process enters a call and executes `n` operations of it. -/
def enterAndRun {P : Type} (p : P) (i : Request) (n : Nat) : List (P × Event Request) :=
  (p, .enter i) :: List.replicate n (p, .advance)

/-- A process executes `n` operations. -/
def goesOn {P : Type} (p : P) (n : Nat) : List (P × Event Request) :=
  List.replicate n (p, .advance)

/-- Three processes. -/
def process0 : Fin 3 := 0

def process1 : Fin 3 := 1

def process2 : Fin 3 := 2

/-- Two readers sleep, one byte is written, the first reader takes it, and the second one goes on
up to its return. -/
def twoReaders : List (Fin 3 × Event Request) :=
  enterAndRun process0 (.read false 1 1) 5 ++ enterAndRun process1 (.read false 1 1) 5 ++
    enterAndRun process2 (.write false 1 [7]) 11 ++ goesOn process0 12 ++ goesOn process1 12

/-- The processes after the schedule. -/
def afterTwoReaders : Option (Fifo (Fin 3)) :=
  (Fifo.loaded fun _ => false).execute Request.body (fun _ _ => true) twoReaders

/-- Process `p` is returning `ret` from the call `i`. -/
def Returns {P : Type} [DecidableEq P] (c : Fifo P) (p : P) (i : Request) (ret : Ret) : Prop :=
  ∃ t, c.calls p = some t ∧ t.call = i ∧ t.code = .ret ret

theorem twoReaders_ok : ∃ c, afterTwoReaders = some c ∧ c.sem = 1 ∧
    Returns c 0 (.read false 1 1) (.ok 1) ∧ Returns c 1 (.read false 1 1) (.ok 0) :=
  ⟨_, rfl, rfl, ⟨_, rfl, rfl, rfl⟩, ⟨_, rfl, rfl, rfl⟩⟩

/-- The fifo, when the second reader returns. -/
theorem reach_isQueue_twoReaders : ∃ c, afterTwoReaders = some c ∧ IsQueue c.hist c.dev := by
  obtain ⟨c, hc, hsem, -⟩ := twoReaders_ok
  exact ⟨c, hc, (reach_isQueue (Config.execute_reach hc)).1 (by rw [hsem]; decide)⟩

/-- The first reader has found what it waited for. -/
theorem progresses_iff_twoReaders : ∃ c t, afterTwoReaders = some c ∧ c.calls 0 = some t ∧
    (Progresses t.call 1 ↔ FoundReady t.call (found t.seen)) := by
  obtain ⟨c, hc, -, ⟨t, hp, -, hret⟩, -⟩ := twoReaders_ok
  exact ⟨c, t, hc, hp, progresses_iff (Config.execute_reach hc) hp hret⟩

/-- **The second reader asked for a byte, was not interrupted, and returns 0.** -/
theorem twoReaders_not_progresses : ∃ c : Fifo (Fin 3),
    Reach Request.body (Fifo.loaded fun _ => false) c ∧
    ∃ p t n, c.calls p = some t ∧ t.code = .ret (.ok n) ∧ ¬ Progresses t.call n := by
  obtain ⟨c, hc, -, -, ⟨t, hp, hcall, hret⟩⟩ := twoReaders_ok
  refine ⟨c, Config.execute_reach hc, 1, t, 0, hp, hret, fun h => ?_⟩
  rw [hcall] at h
  exact absurd (h (by decide)) (by decide)

end Globalfifo
