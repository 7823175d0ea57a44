/-
# The globalfifo driver

`globalfifo.c` as routines over one semaphore and two wait queues: `globalfifo_read`,
`globalfifo_write`, `globalfifo_ioctl` and `globalfifo_poll`, operation by operation in the
order of the source.  The bytes that a call accepts or returns are reported as events at the
assignment to `current_len` that makes them so.

A user's buffer is what can be accessed of it: `room` bytes to write to, or the bytes `buf` to
read from; a copy that needs more than that fails.  A faulting `copy_from_user` fills the rest
of its destination with zeros.

`poll_wait` (which puts `poll`'s own entries on the queues) and `printk` are left out.  Both
transfers take their entry off with `remove_wait_queue(&dev->w_wait, ..)`, also a read, whose entry
is on `r_wait`: it changes the list of `r_wait` under the lock of `w_wait`.
-/
import Mathlib.Algebra.Group.Int.Defs
import Mathlib.Algebra.Group.Nat.Defs
import Simplefs.Lib.Driver

namespace Globalfifo

open Driver

/-! ## 1. The device -/

/-- `GLOBALFIFO_SIZE`: how many bytes the fifo holds. -/
abbrev globalfifoSize : Nat := 10

/-- `FIFO_CLEAR`: the command that empties the fifo. -/
abbrev fifoClear : Nat := 0x1

/-- What is left of an integer in `w` bits. -/
def wrap (w : Nat) (z : Int) : Nat := (z % 2 ^ w).toNat

theorem wrap_natCast {w n : Nat} (h : n < 2 ^ w) : wrap w n = n := by
  have h' : (n : Int) < 2 ^ w := by exact_mod_cast h
  rw [wrap, Int.emod_eq_of_lt (Int.natCast_nonneg n) h', Int.toNat_natCast]

theorem wrap_sub {w a b : Nat} (hb : b ≤ a) (ha : a < 2 ^ w) : wrap w (a - b) = a - b := by
  rw [← Int.ofNat_sub hb, wrap_natCast (by omega)]

theorem wrap_add {w a b : Nat} (h : a + b < 2 ^ w) : wrap w (a + b) = a + b := by
  rw [← Int.natCast_add, wrap_natCast h]

/-- `unsigned char mem[GLOBALFIFO_SIZE]`. -/
structure Mem where
  bytes : List UInt8
  length_bytes : bytes.length = globalfifoSize
  deriving DecidableEq

/-- Copy the `n` bytes from `src` to the start, in ascending order. -/
def copyAscending (src : Nat) : Nat → List UInt8 → List UInt8
  | 0, bs => bs
  | n + 1, bs => (copyAscending src n bs).set n ((copyAscending src n bs).getD (src + n) 0)

@[simp] theorem length_copyAscending (src n : Nat) (bs : List UInt8) :
    (copyAscending src n bs).length = bs.length := by
  induction n with
  | zero => rfl
  | succ n ih => rw [copyAscending, List.length_set, ih]

/-- Copied in ascending order, the bytes arrive although source and destination overlap. -/
theorem getElem?_copyAscending {src n : Nat} {bs : List UInt8} (h : src + n ≤ bs.length)
    (i : Nat) : (copyAscending src n bs)[i]? = if i < n then bs[src + i]? else bs[i]? := by
  induction n generalizing i with
  | zero => simp [copyAscending]
  | succ n ih =>
    have ih := ih (by omega)
    rw [copyAscending, List.getElem?_set, length_copyAscending, List.getD_eq_getElem?_getD,
      ih (src + n), ih i]
    rcases Nat.lt_trichotomy i n with hi | rfl | hi
    · rw [if_neg (by omega), if_pos hi, if_pos (by omega)]
    · -- the byte at `src + i` has not been overwritten yet
      rw [if_pos rfl, if_pos (by omega), if_neg (by omega), if_pos (by omega),
        List.getElem?_eq_getElem (by omega), Option.getD_some]
    · rw [if_neg (by omega), if_neg (by omega), if_neg (by omega)]

/-- `memcpy(mem, mem + src, n)`, undefined past the end of `mem`. -/
def Mem.memcpy (m : Mem) (src n : Nat) : Option Mem :=
  if src + n ≤ globalfifoSize then
    some ⟨copyAscending src n m.bytes, (length_copyAscending src n m.bytes).trans m.length_bytes⟩
  else none

/-- The `bs.length` bytes from `a` are `bs` now, undefined past the end of `mem`. -/
def Mem.fill (m : Mem) (a : Nat) (bs : List UInt8) : Option Mem :=
  if h : a + bs.length ≤ globalfifoSize then
    some ⟨m.bytes.take a ++ bs ++ m.bytes.drop (a + bs.length), by
      simp only [List.length_append, List.length_take, List.length_drop, m.length_bytes]
      omega⟩
  else none

/-- `memset(mem, 0, GLOBALFIFO_SIZE)`. -/
def Mem.zero : Mem := ⟨List.replicate globalfifoSize 0, List.length_replicate⟩

/-- `struct globalfifo_dev`, as far as the routines read it. -/
structure GlobalfifoDev where
  currentLen : Nat
  mem : Mem
  deriving DecidableEq

/-- The two wait queues, `r_wait` and `w_wait`. -/
inductive WaitQueue where
  | rWait
  | wWait
  deriving DecidableEq, Repr

/-- What happens to the bytes in the fifo. -/
inductive FifoEvent where
  | accepted (bytes : List UInt8)
  | returned (bytes : List UInt8)
  | cleared
  deriving DecidableEq, Repr

/-- The error codes of the driver. -/
inductive Errno where
  | eagain
  | efault
  | erestartsys
  | einval
  deriving DecidableEq, Repr

/-- What a routine returns: `ret`, or `- ret` as an error. -/
abbrev Ret := Except Errno Nat

/-- A routine of the driver. -/
abbrev Routine := Code GlobalfifoDev WaitQueue FifoEvent

/-! ## 2. The routines -/

/-- `out2:` the entry leaves its queue, under the lock of `w_wait` whichever that is. -/
def out2 (ret : Ret) : Routine Ret := do
  removeWaitQueue .wWait
  setCurrentState .running
  return ret

/-- `out:` ... after the semaphore is given back. -/
def out (ret : Ret) : Routine Ret := do
  up
  out2 ret

/-- `dev->current_len`. -/
def currentLen : Routine Nat := load GlobalfifoDev.currentLen

/-- `copy_to_user(buf, dev->mem, count)`: the bytes, if `buf` has room for them. -/
def copyToUser (room count : Nat) : Routine (Option (List UInt8)) :=
  access (fun d => if count ≤ globalfifoSize then
      some (if count ≤ room then some (d.mem.bytes.take count) else none, d)
    else none) fun _ => []

/-- `memcpy(dev->mem, dev->mem + count, dev->current_len - count)`. -/
def moveDown (count : Nat) : Routine Unit :=
  access (fun d => (d.mem.memcpy count (wrap 64 (d.currentLen - count))).map
    fun m => ((), { d with mem := m })) fun _ => []

/-- What `globalfifo_read` does once there is something to read. -/
def readBytes (count room : Nat) : Routine Ret := do
  let count ← load fun d => if count > d.currentLen then d.currentLen else count
  match ← copyToUser room count with
  | none => out (.error .efault)
  | some bytes => do
    moveDown count
    store (fun d => { d with currentLen := wrap 32 (d.currentLen - count) }) [.returned bytes]
    wakeUpInterruptible .wWait
    out (.ok count)

/-- `globalfifo_read`. -/
def globalfifoRead (nonblock : Bool) (count room : Nat) : Routine Ret := do
  down
  addWaitQueue .rWait
  if (← currentLen) = 0 then
    if nonblock then out (.error .eagain)
    else do
      setCurrentState .interruptible
      up
      schedule
      if ← signalPending then out2 (.error .erestartsys)
      else do
        down
        -- what the fifo holds now is not tested again
        readBytes count room
  else readBytes count room

/-- `copy_from_user(dev->mem + dev->current_len, buf, count)`: whether all bytes were there. -/
def copyFromUser (buf : List UInt8) (count : Nat) : Routine Bool :=
  access (fun d => (d.mem.fill d.currentLen
      (buf.take count ++ List.replicate (count - (buf.take count).length) 0)).map
    fun m => (decide (count ≤ buf.length), { d with mem := m })) fun _ => []

/-- What `globalfifo_write` does once there is room. -/
def writeBytes (count : Nat) (buf : List UInt8) : Routine Ret := do
  let count ← load fun d =>
    if count > wrap 32 (globalfifoSize - d.currentLen) then wrap 32 (globalfifoSize - d.currentLen)
    else count
  if ← copyFromUser buf count then do
    store (fun d => { d with currentLen := wrap 32 (d.currentLen + count) })
      [.accepted (buf.take count)]
    wakeUpInterruptible .rWait
    out (.ok count)
  else out (.error .efault)

/-- `globalfifo_write`. -/
def globalfifoWrite (nonblock : Bool) (count : Nat) (buf : List UInt8) : Routine Ret := do
  down
  addWaitQueue .wWait
  if (← currentLen) = globalfifoSize then
    if nonblock then out (.error .eagain)
    else do
      setCurrentState .interruptible
      up
      schedule
      if ← signalPending then out2 (.error .erestartsys)
      else do
        down
        writeBytes count buf
  else writeBytes count buf

/-- `globalfifo_ioctl`. -/
def globalfifoIoctl (cmd : Nat) : Routine Ret :=
  if cmd = fifoClear then do
    down
    store (fun d => { d with currentLen := 0 }) [.cleared]
    store (fun d => { d with mem := .zero }) []
    -- no queue is woken
    up
    return .ok 0
  else return .error .einval

/-- `POLLIN | POLLRDNORM`. -/
abbrev pollIn : Nat := 0x41

/-- `POLLOUT | POLLWRNORM`. -/
abbrev pollOut : Nat := 0x104

/-- `globalfifo_poll`. -/
def globalfifoPoll : Routine Ret := do
  down
  let mask ← load fun d => if d.currentLen ≠ 0 then pollIn else 0
  let mask ← load fun d => if d.currentLen ≠ globalfifoSize then mask ||| pollOut else mask
  up
  return .ok mask

/-- A call of the driver. -/
inductive Request where
  | read (nonblock : Bool) (count room : Nat)
  | write (nonblock : Bool) (count : Nat) (buf : List UInt8)
  | ioctl (cmd : Nat)
  | poll

/-- The routine that a call enters. -/
def Request.body : Request → Routine Ret
  | .read nonblock count room => globalfifoRead nonblock count room
  | .write nonblock count buf => globalfifoWrite nonblock count buf
  | .ioctl cmd => globalfifoIoctl cmd
  | .poll => globalfifoPoll

/-- The device after `globalfifo_init`. -/
def globalfifoInit : GlobalfifoDev := ⟨0, .zero⟩

section Processes

variable (P : Type)

/-- The driver with the processes `P` using it. -/
abbrev Fifo := Config GlobalfifoDev WaitQueue FifoEvent Request Ret P

variable {P}

/-- The driver has just been loaded. -/
abbrev Fifo.loaded (sig : P → Bool) : Fifo P := Config.init globalfifoInit sig

end Processes

end Globalfifo
