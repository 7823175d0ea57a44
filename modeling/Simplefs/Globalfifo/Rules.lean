/-
# What a contract asks of the routines

Each routine is executed symbolically once, for an arbitrary contract whose invariant bounds
`current_len`: what remains to be shown for a contract is what it says about the device at the
places where the routine gives the semaphore back, and about the results.  The device is spoken
of through its `contents`, the bytes that are in the fifo.
-/
import Simplefs.Globalfifo.Device

namespace Globalfifo

open Driver

/-! ## 1. The contents -/

/-- The bytes in the fifo, the oldest first. -/
def GlobalfifoDev.contents (d : GlobalfifoDev) : List UInt8 := d.mem.bytes.take d.currentLen

theorem GlobalfifoDev.length_contents {d : GlobalfifoDev} (h : d.currentLen ≤ globalfifoSize) :
    d.contents.length = d.currentLen := by
  rw [contents, List.length_take, d.mem.length_bytes, Nat.min_eq_left h]

/-- Moving the bytes from `src` down leaves what follows the first `src` ones. -/
theorem Mem.memcpy_ok (m : Mem) (src n : Nat) (h : src + n ≤ globalfifoSize) :
    ∃ m', m.memcpy src n = some m' ∧ m'.bytes.take n = (m.bytes.take (src + n)).drop src := by
  refine ⟨_, if_pos h, List.ext_getElem? fun i => ?_⟩
  have hlen : src + n ≤ m.bytes.length := m.length_bytes.symm ▸ h
  rw [List.getElem?_take, getElem?_copyAscending hlen, List.getElem?_drop, List.getElem?_take]
  split
  · rw [if_pos (by omega)]
  · rw [if_neg (by omega)]

/-- Filling in bytes at `a` leaves the `a` bytes before them. -/
theorem Mem.fill_ok (m : Mem) (a : Nat) (bs : List UInt8) (h : a + bs.length ≤ globalfifoSize) :
    ∃ m', m.fill a bs = some m' ∧ m'.bytes.take (a + bs.length) = m.bytes.take a ++ bs := by
  refine ⟨_, dif_pos h, ?_⟩
  have hlen : (m.bytes.take a ++ bs).length = a + bs.length := by
    rw [List.length_append, List.length_take, m.length_bytes, Nat.min_eq_left (by omega)]
  exact (List.take_append_of_le_length (Nat.le_of_eq hlen.symm)).trans
    (List.take_of_length_le (Nat.le_of_eq hlen))

/-! ## 2. Giving the semaphore back -/

variable {C : Contract GlobalfifoDev WaitQueue FifoEvent Request Ret} {i : Request}
  {q : Option WaitQueue} {st : TaskState} {seen : List (Seen GlobalfifoDev FifoEvent)}
  {o : Held GlobalfifoDev WaitQueue FifoEvent}

/-- A call that has seen `seen` may give the semaphore back on `o`. -/
def GivesBack (C : Contract GlobalfifoDev WaitQueue FifoEvent Request Ret)
    (seen : List (Seen GlobalfifoDev FifoEvent)) (o : Held GlobalfifoDev WaitQueue FifoEvent) :
    Prop :=
  C.leaves seen o.dev ∧
    ∀ S, (∀ r, S r → o.sleepers r) → C.guard seen S → C.inv { o with sleepers := S }

theorem safe_out2 {ret : Ret} (hq : q ≠ none) (h : C.post i seen ret) :
    Safe C i (out2 ret) q st seen none :=
  ⟨hq, rfl, rfl, rfl, h⟩

theorem safe_out {ret : Ret} (hq : q ≠ none) (h : GivesBack C seen o) (hpost : C.post i seen ret) :
    Safe C i (out ret) q st seen (some o) :=
  ⟨o, rfl, h.1, safe_out2 hq hpost, h.2⟩

/-! ## 3. `globalfifo_read` -/

/-- What a contract asks of a read of `count` bytes that goes on from `o`. -/
structure ReadEnds (C : Contract GlobalfifoDev WaitQueue FifoEvent Request Ret) (i : Request)
    (count : Nat) (seen : List (Seen GlobalfifoDev FifoEvent))
    (o : Held GlobalfifoDev WaitQueue FifoEvent) : Prop where
  fault : GivesBack C seen o ∧ C.post i seen (.error .efault)
  done : ∀ n d, n = min count o.dev.currentLen → d.currentLen = o.dev.currentLen - n →
    d.contents = o.dev.contents.drop n →
    GivesBack C (seen ++ [.did (.returned (o.dev.contents.take n))])
      ⟨o.hist ++ [.returned (o.dev.contents.take n)], d, fun r => o.sleepers r ∧ r ≠ .wWait⟩ ∧
    C.post i (seen ++ [.did (.returned (o.dev.contents.take n))]) (.ok n)

theorem safe_readBytes {count room : Nat} (hq : q ≠ none)
    (hlen : o.dev.currentLen ≤ globalfifoSize)
    (h : ReadEnds C i count seen o) :
    Safe C i (readBytes count room) q st seen (some o) := by
  obtain ⟨n, hn⟩ : ∃ n, n = if count > o.dev.currentLen then o.dev.currentLen else count :=
    ⟨_, rfl⟩
  have hmin : n = min count o.dev.currentLen := by
    rw [hn]
    split <;> omega
  have hle : n ≤ o.dev.currentLen := by omega
  refine safe_load ?_
  rw [← hn]
  by_cases hroom : n ≤ room
  · -- the copy, the move and the new length
    obtain ⟨m, hm, hbytes⟩ :=
      o.dev.mem.memcpy_ok n (o.dev.currentLen - n) (by omega)
    refine safe_access (b := some (o.dev.mem.bytes.take n)) (d := o.dev) ?_ ?_
    · rw [if_pos (by omega), if_pos hroom]
    refine safe_access (b := ()) (d := { o.dev with mem := m }) ?_ ?_
    · have hsub : wrap 64 (o.dev.currentLen - n) = o.dev.currentLen - n :=
        wrap_sub hle (Nat.lt_of_le_of_lt hlen (by decide))
      show (o.dev.mem.memcpy n (wrap 64 (o.dev.currentLen - n))).map _ = _
      rw [hsub, hm]
      rfl
    refine safe_store ?_
    have htake : o.dev.mem.bytes.take n = o.dev.contents.take n := by
      rw [GlobalfifoDev.contents, List.take_take, Nat.min_eq_left hle]
    have hsub : wrap 32 (o.dev.currentLen - n) = o.dev.currentLen - n :=
      wrap_sub hle (Nat.lt_of_le_of_lt hlen (by decide))
    obtain ⟨hgive, hpost⟩ := h.done n ⟨o.dev.currentLen - n, m⟩ hmin rfl (by
      rw [GlobalfifoDev.contents, hbytes, GlobalfifoDev.contents, Nat.add_sub_cancel' hle])
    simp only [List.map_nil, List.append_nil, List.map_cons, htake, hsub]
    exact safe_out hq hgive hpost
  · refine safe_access (b := none) (d := o.dev) ?_ ?_
    · rw [if_pos (by omega), if_neg hroom]
    simpa using safe_out hq h.fault.1 h.fault.2

/-- **What a contract asks of `globalfifo_read`.** -/
theorem safe_globalfifoRead {nonblock : Bool} {count room : Nat}
    (hinv : ∀ o, C.inv o → o.dev.currentLen ≤ globalfifoSize)
    (hempty : ∀ o, C.inv o → o.dev.currentLen = 0 →
      GivesBack C [.took o.dev] o ∧ C.post i [.took o.dev] (.error .eagain))
    (hsleep : ∀ o, C.inv o → o.dev.currentLen = 0 →
      GivesBack C [.took o.dev]
        { o with sleepers := fun r => o.sleepers r ∨ some .rWait = some r } ∧
      C.post i [.took o.dev] (.error .erestartsys))
    (hdirect : ∀ o, C.inv o → o.dev.currentLen ≠ 0 → ReadEnds C i count [.took o.dev] o)
    (hawake : ∀ o o', C.inv o → o.dev.currentLen = 0 → C.inv o' →
      ReadEnds C i count [.took o.dev, .took o'.dev] o') :
    Safe C i (globalfifoRead nonblock count room) none .running [] none := by
  refine safe_down fun o ho => ⟨rfl, safe_load ?_⟩
  by_cases h0 : o.dev.currentLen = 0
  · rw [if_pos h0]
    cases nonblock with
    | true => exact safe_out nofun (hempty o ho h0).1 (hempty o ho h0).2
    | false =>
      obtain ⟨hgive, hpost⟩ := hsleep o ho h0
      refine ⟨o, rfl, _, rfl, hgive.1, fun b => ?_, hgive.2⟩
      cases b with
      | true => exact safe_out2 nofun hpost
      | false =>
        exact safe_down fun o' ho' => safe_readBytes nofun (hinv o' ho') (hawake o o' ho h0 ho')
  · rw [if_neg h0]
    exact safe_readBytes nofun (hinv o ho) (hdirect o ho h0)

/-! ## 4. `globalfifo_write` -/

/-- What a contract asks of a write of `count` bytes from `buf` that goes on from `o`.  A fault
may leave any bytes behind the contents. -/
structure WriteEnds (C : Contract GlobalfifoDev WaitQueue FifoEvent Request Ret) (i : Request)
    (count : Nat) (buf : List UInt8) (seen : List (Seen GlobalfifoDev FifoEvent))
    (o : Held GlobalfifoDev WaitQueue FifoEvent) : Prop where
  fault : ∀ d, d.currentLen = o.dev.currentLen → d.contents = o.dev.contents →
    GivesBack C seen { o with dev := d } ∧ C.post i seen (.error .efault)
  done : ∀ n d, n = min count (globalfifoSize - o.dev.currentLen) → n ≤ buf.length →
    d.currentLen = o.dev.currentLen + n → d.contents = o.dev.contents ++ buf.take n →
    GivesBack C (seen ++ [.did (.accepted (buf.take n))])
      ⟨o.hist ++ [.accepted (buf.take n)], d, fun r => o.sleepers r ∧ r ≠ .rWait⟩ ∧
    C.post i (seen ++ [.did (.accepted (buf.take n))]) (.ok n)

theorem safe_writeBytes {count : Nat} {buf : List UInt8} (hq : q ≠ none)
    (hlen : o.dev.currentLen ≤ globalfifoSize) (h : WriteEnds C i count buf seen o) :
    Safe C i (writeBytes count buf) q st seen (some o) := by
  have hroom : wrap 32 (globalfifoSize - o.dev.currentLen) = globalfifoSize - o.dev.currentLen :=
    wrap_sub hlen (by decide)
  obtain ⟨n, hn⟩ : ∃ n, n = if count > globalfifoSize - o.dev.currentLen then
    globalfifoSize - o.dev.currentLen else count := ⟨_, rfl⟩
  have hmin : n = min count (globalfifoSize - o.dev.currentLen) := by
    rw [hn]
    split <;> omega
  refine safe_load ?_
  rw [hroom, ← hn]
  -- what is copied in, padded with zeros
  obtain ⟨bs, hbs⟩ : ∃ bs, bs = buf.take n ++ List.replicate (n - (buf.take n).length) 0 := ⟨_, rfl⟩
  have hlbs : bs.length = n := by
    rw [hbs, List.length_append, List.length_replicate, List.length_take]
    omega
  obtain ⟨m, hm, hbytes⟩ := o.dev.mem.fill_ok o.dev.currentLen bs (by omega)
  refine safe_access (b := decide (n ≤ buf.length)) (d := { o.dev with mem := m }) ?_ ?_
  · show (o.dev.mem.fill o.dev.currentLen _).map _ = _
    rw [← hbs, hm]
    rfl
  have hcontents : m.bytes.take (o.dev.currentLen + n) = o.dev.contents ++ bs := by
    rw [← hlbs, hbytes, GlobalfifoDev.contents]
  by_cases hn' : n ≤ buf.length
  · rw [decide_eq_true hn']
    refine safe_store ?_
    have hsum : o.dev.currentLen + n ≤ globalfifoSize := by omega
    have hadd : wrap 32 (o.dev.currentLen + n) = o.dev.currentLen + n :=
      wrap_add (Nat.lt_of_le_of_lt hsum (by decide))
    have hpad : bs = buf.take n := by
      rw [hbs, List.length_take, Nat.min_eq_left hn', Nat.sub_self, List.replicate_zero,
        List.append_nil]
    obtain ⟨hgive, hpost⟩ := h.done n ⟨o.dev.currentLen + n, m⟩ hmin hn' rfl
      (by rw [GlobalfifoDev.contents, hcontents, hpad])
    simp only [List.map_nil, List.append_nil, List.map_cons, hadd]
    exact safe_out hq hgive hpost
  · rw [decide_eq_false hn']
    have hsame : m.bytes.take o.dev.currentLen = o.dev.contents := by
      have := congrArg (List.take o.dev.currentLen) hcontents
      rwa [List.take_take, Nat.min_eq_left (Nat.le_add_right _ _),
        List.take_left' (GlobalfifoDev.length_contents hlen)] at this
    obtain ⟨hgive, hpost⟩ := h.fault { o.dev with mem := m } rfl hsame
    simpa using safe_out hq hgive hpost

/-- **What a contract asks of `globalfifo_write`.** -/
theorem safe_globalfifoWrite {nonblock : Bool} {count : Nat} {buf : List UInt8}
    (hinv : ∀ o, C.inv o → o.dev.currentLen ≤ globalfifoSize)
    (hfull : ∀ o, C.inv o → o.dev.currentLen = globalfifoSize →
      GivesBack C [.took o.dev] o ∧ C.post i [.took o.dev] (.error .eagain))
    (hsleep : ∀ o, C.inv o → o.dev.currentLen = globalfifoSize →
      GivesBack C [.took o.dev]
        { o with sleepers := fun r => o.sleepers r ∨ some .wWait = some r } ∧
      C.post i [.took o.dev] (.error .erestartsys))
    (hdirect : ∀ o, C.inv o → o.dev.currentLen ≠ globalfifoSize →
      WriteEnds C i count buf [.took o.dev] o)
    (hawake : ∀ o o', C.inv o → o.dev.currentLen = globalfifoSize → C.inv o' →
      WriteEnds C i count buf [.took o.dev, .took o'.dev] o') :
    Safe C i (globalfifoWrite nonblock count buf) none .running [] none := by
  refine safe_down fun o ho => ⟨rfl, safe_load ?_⟩
  by_cases hf : o.dev.currentLen = globalfifoSize
  · rw [if_pos hf]
    cases nonblock with
    | true => exact safe_out nofun (hfull o ho hf).1 (hfull o ho hf).2
    | false =>
      obtain ⟨hgive, hpost⟩ := hsleep o ho hf
      refine ⟨o, rfl, _, rfl, hgive.1, fun b => ?_, hgive.2⟩
      cases b with
      | true => exact safe_out2 nofun hpost
      | false =>
        exact safe_down fun o' ho' => safe_writeBytes nofun (hinv o' ho') (hawake o o' ho hf ho')
  · rw [if_neg hf]
    exact safe_writeBytes nofun (hinv o ho) (hdirect o ho hf)

/-! ## 5. `globalfifo_ioctl` and `globalfifo_poll` -/

/-- **What a contract asks of `globalfifo_ioctl`.** -/
theorem safe_globalfifoIoctl {cmd : Nat} (hinval : C.post i [] (.error .einval))
    (hclear : ∀ o, C.inv o →
      GivesBack C [.took o.dev, .did .cleared] ⟨o.hist ++ [.cleared], ⟨0, .zero⟩, o.sleepers⟩ ∧
      C.post i [.took o.dev, .did .cleared] (.ok 0)) :
    Safe C i (globalfifoIoctl cmd) none .running [] none := by
  rw [globalfifoIoctl]
  split
  · refine safe_down fun o ho => safe_store (safe_store ?_)
    obtain ⟨hgive, hpost⟩ := hclear o ho
    simp only [List.map_nil, List.append_nil, List.map_cons]
    exact ⟨_, rfl, hgive.1, ⟨rfl, rfl, rfl, hpost⟩, hgive.2⟩
  · exact ⟨rfl, rfl, rfl, hinval⟩

/-- **What a contract asks of `globalfifo_poll`.** -/
theorem safe_globalfifoPoll (h : ∀ o, C.inv o → GivesBack C [.took o.dev] o ∧
    ∀ mask, C.post i [.took o.dev] (.ok mask)) :
    Safe C i globalfifoPoll none .running [] none := by
  refine safe_down fun o ho => safe_load (safe_load ?_)
  obtain ⟨hgive, hpost⟩ := h o ho
  exact ⟨_, rfl, hgive.1, ⟨rfl, rfl, rfl, hpost _⟩, hgive.2⟩

end Globalfifo
