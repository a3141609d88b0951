import Sherlog.Memory.Slots
import Sherlog.Lib.Machine

/-!
# Calls on a buffer and its reservations

A thread that uses a volatile buffer holds reservations, and may write into them, commit
them or drop them in any order between its other calls.

* `Request`, `Client.step`, `Client.run` — the calls, and the answer to each.
* `VolatileRingBuffer.reserve_cases` — all that `reserve` can do, and `write_cases` all that
  `write` can; `fill_eq` — a record written into a reservation.
* `VolatileRingBuffer.Kept` — what no call changes: the shape, and the number of the slots;
  `drain_kept`, `read_kept` — and so in the calls that loop.
-/

namespace Sherlog

open Window

/-- A call of one thread. -/
inductive Request where
  /-- `VolatileRingBuffer::reserve` -/
  | reserve (size : Nat) (block : Bool)
  /-- `Reservation::write`, on the reservation with that number. -/
  | fill (i : Nat) (header : RecordHeader) (data : List UInt8)
  /-- `Reservation::commit` -/
  | commit (i : Nat)
  /-- A reservation dropped. -/
  | drop (i : Nat)
  /-- `VolatileRingBuffer::write` -/
  | write (record : Record)
  /-- `VolatileRingBuffer::read` -/
  | read
deriving DecidableEq, Repr

/-- What a call returns. -/
inductive Answer where
  /-- The slot of the reservation, if there is one. -/
  | reserved (slotIdx : Option Nat)
  | done
  | wrote (direct : Bool)
  | records (found : List Record)
deriving DecidableEq, Repr

/-- A buffer and the reservations handed out, by number; those committed or dropped are
gone. -/
structure Client where
  /-- The buffer. -/
  buf : VolatileRingBuffer
  /-- The reservations handed out. -/
  held : List (Option Reservation)
deriving DecidableEq, Repr

namespace Client

/-- Before anything has been reserved. -/
def start (b : VolatileRingBuffer) : Client := ⟨b, []⟩

/-- The reservation with the given number, as long as it is held. -/
def holding (s : Client) (i : Nat) : Option Reservation := (s.held[i]?).join

/-- A reservation that was handed out. -/
def handOut (s : Client) : Option Reservation × VolatileRingBuffer → Client
  | (some r, buf) => ⟨buf, s.held ++ [some r]⟩
  | (none, buf) => ⟨buf, s.held⟩

variable [Hasher]

/-- One call; `none` when it does not come back, or names no reservation held. -/
def step (s : Client) : Request → Option (Answer × Client)
  | .reserve size block =>
    (s.buf.reserve size block).map fun res =>
      (.reserved (res.1.map Reservation.slotIdx), s.handOut res)
  | .fill i header data =>
    (s.holding i).bind fun r =>
      (r.write header data).map fun r => (.done, { s with held := s.held.set i (some r) })
  | .commit i =>
    (s.holding i).bind fun r =>
      r.commit.map fun res =>
        -- the notification is all that reaches the buffer
        (.done, ⟨{ s.buf with consumerSignal := s.buf.consumerSignal || res.2 },
          s.held.set i none⟩)
  | .drop i =>
    (s.holding i).bind fun r => r.drop.map fun _ => (.done, { s with held := s.held.set i none })
  | .write record => (s.buf.write record).map fun res => (.wrote res.1, { s with buf := res.2 })
  | .read => s.buf.read.map fun res => (.records res.1, { s with buf := res.2 })

/-- A list of calls, one after the other. -/
def run (s : Client) (calls : List Request) : Option (List Answer × Client) :=
  Machine.run step s calls

end Client

namespace VolatileRingBuffer

variable {b b' : VolatileRingBuffer}

/-! ## What a call can do -/

theorem reserveLoop_cases {totalSize : Nat} {block : Bool} {left : Nat}
    {res : Option Reservation} :
    ∀ {spins}, b.reserveLoop totalSize block left spins = some (res, b') →
      (res = none ∧ b' = b) ∨
        ∃ slot, b.slots[b.prodSeq.physicalIndex b.prodSeq.value]? = some slot ∧
          slot.state = .empty ∧ b' = b.taken ∧
            res = some { slotIdx := b.prodSeq.physicalIndex b.prodSeq.value,
                         seq := b.prodSeq.value, size := totalSize, buffer := b.clone,
                         committed := false } := by
  induction left with
  | zero =>
    intro spins h
    rw [reserveLoop] at h
    split at h
    · cases h
    · obtain ⟨rfl, rfl⟩ := Prod.mk.inj (Option.some.inj h)
      exact Or.inl ⟨rfl, rfl⟩
  | succ left ih =>
    intro spins h
    obtain ⟨slot, hslot, -⟩ := Option.bind_eq_some_iff.mp h
    by_cases hstate : slot.state = .empty
    · rw [reserveLoop_of_empty hslot hstate] at h
      obtain ⟨rfl, rfl⟩ := Prod.mk.inj (Option.some.inj h)
      exact Or.inr ⟨slot, hslot, hstate, rfl, rfl⟩
    · rw [reserveLoop_of_not_empty hslot hstate] at h
      split at h
      · obtain ⟨rfl, rfl⟩ := Prod.mk.inj (Option.some.inj h)
        exact Or.inl ⟨rfl, rfl⟩
      · exact ih h

/-- **All that `reserve` can do**: nothing, or take the next slot and hand out a clone. -/
theorem reserve_cases {size : Nat} {block : Bool} {res : Option Reservation}
    (h : b.reserve size block = some (res, b')) :
    (res = none ∧ b' = b) ∨
      ∃ slot, b.slots[b.prodSeq.physicalIndex b.prodSeq.value]? = some slot ∧
        slot.state = .empty ∧ b' = b.taken ∧
          res = some { slotIdx := b.prodSeq.physicalIndex b.prodSeq.value,
                       seq := b.prodSeq.value, size := wrapping (size + RecordHeader.SIZE),
                       buffer := b.clone, committed := false } := by
  simp only [reserve] at h
  split at h
  · cases h
  · exact reserveLoop_cases h

/-- On an empty slot it does not give up. -/
theorem reserve_takes {slot : Slot}
    (hslot : b.slots[b.prodSeq.physicalIndex b.prodSeq.value]? = some slot)
    (hstate : slot.state = .empty) (hspins : 0 < b.maxSpins) {size : Nat} {block : Bool}
    {res : Option Reservation} (h : b.reserve size block = some (res, b')) :
    res.isSome ∧ b' = b.taken := by
  simp only [reserve] at h
  split at h
  · cases h
  · rw [← Nat.sub_one_add_one (Nat.pos_iff_ne_zero.mp hspins),
      reserveLoop_of_empty hslot hstate] at h
    obtain ⟨rfl, rfl⟩ := Prod.mk.inj (Option.some.inj h)
    exact ⟨rfl, rfl⟩

/-- Filling a reservation reaches the buffer only as a notification. -/
theorem fill_eq {reservation : Reservation} {record : Record}
    (h : b.fill reservation record = some b') :
    ∃ consumerSignal, b' = { b with consumerSignal } := by
  obtain ⟨r, -, hrest⟩ := Option.bind_eq_some_iff.mp h
  obtain ⟨res, -, rfl⟩ := Option.map_eq_some_iff.mp hrest
  exact ⟨_, rfl⟩

/-- All that `write` can do: take the next slot, or queue the record. -/
theorem write_cases {record : Record} {ok : Bool} (h : b.write record = some (ok, b')) :
    (ok = false ∧ ∃ overflowQueue, b' = { b with overflowQueue }) ∨
      ∃ slot, b.slots[b.prodSeq.physicalIndex b.prodSeq.value]? = some slot ∧
        slot.state = .empty ∧ ok = true ∧
          ∃ consumerSignal, b' = { b.taken with consumerSignal } := by
  obtain ⟨⟨res, b₁⟩, hreserve, hrest⟩ := Option.bind_eq_some_iff.mp h
  rcases reserve_cases hreserve with ⟨rfl, rfl⟩ | ⟨slot, hslot, hstate, rfl, rfl⟩
  · obtain ⟨rfl, rfl⟩ := Prod.mk.inj (Option.some.inj hrest)
    exact Or.inl ⟨rfl, b₁.enqueue_eq record⟩
  · obtain ⟨b₂, hfill, hres⟩ := Option.map_eq_some_iff.mp hrest
    obtain ⟨rfl, rfl⟩ := Prod.mk.inj hres
    exact Or.inr ⟨slot, hslot, hstate, rfl, fill_eq hfill⟩

/-! ## What no call changes -/

/-- The parts of a buffer that no call changes. -/
structure Kept (b b' : VolatileRingBuffer) : Prop where
  capacity : b'.capacity = b.capacity
  slotSize : b'.slotSize = b.slotSize
  prodMask : b'.prodSeq.mask = b.prodSeq.mask
  consMask : b'.consSeq.mask = b.consSeq.mask
  length_slots : b'.slots.length = b.slots.length
  data : b'.data = b.data
  maxSpins : b'.maxSpins = b.maxSpins

theorem Kept.refl (b : VolatileRingBuffer) : b.Kept b := ⟨rfl, rfl, rfl, rfl, rfl, rfl, rfl⟩

theorem Kept.trans {b₁ b₂ : VolatileRingBuffer} (h₁ : b.Kept b₁) (h₂ : b₁.Kept b₂) :
    b.Kept b₂ where
  capacity := h₂.capacity.trans h₁.capacity
  slotSize := h₂.slotSize.trans h₁.slotSize
  prodMask := h₂.prodMask.trans h₁.prodMask
  consMask := h₂.consMask.trans h₁.consMask
  length_slots := h₂.length_slots.trans h₁.length_slots
  data := h₂.data.trans h₁.data
  maxSpins := h₂.maxSpins.trans h₁.maxSpins

theorem Kept.laid (h : b.Kept b') (hb : b.Laid) : b'.Laid where
  length_slots := by rw [h.length_slots, h.capacity, hb.length_slots]
  prodMask := by rw [h.prodMask, h.capacity, hb.prodMask]
  consMask := by rw [h.consMask, h.capacity, hb.consMask]
  capacity_mul_lt := by rw [h.capacity, h.slotSize]; exact hb.capacity_mul_lt
  maxSpins_pos := by rw [h.maxSpins]; exact hb.maxSpins_pos
  capacity_eq := by rw [h.capacity]; exact hb.capacity_eq
  length_data := by rw [h.data, h.capacity, h.slotSize, hb.length_data]

theorem kept_taken (b : VolatileRingBuffer) : b.Kept b.taken where
  capacity := rfl
  slotSize := rfl
  prodMask := rfl
  consMask := rfl
  length_slots := List.length_set
  data := rfl
  maxSpins := rfl

theorem reserve_kept {size : Nat} {block : Bool} {res : Option Reservation}
    (h : b.reserve size block = some (res, b')) : b.Kept b' := by
  rcases reserve_cases h with ⟨-, rfl⟩ | ⟨slot, -, -, rfl, -⟩
  · exact Kept.refl _
  · exact b.kept_taken

theorem write_kept {record : Record} {ok : Bool} (h : b.write record = some (ok, b')) :
    b.Kept b' := by
  rcases write_cases h with ⟨-, queue, rfl⟩ | ⟨slot, -, -, -, signal, rfl⟩
  · exact ⟨rfl, rfl, rfl, rfl, rfl, rfl, rfl⟩
  · exact ⟨rfl, rfl, rfl, rfl, List.length_set, rfl, rfl⟩

theorem drain_kept {queue : List Record} :
    ∀ {b : VolatileRingBuffer}, b.drain queue = some b' → b.Kept b' := by
  induction queue with
  | nil =>
    intro b h
    obtain rfl := Option.some.inj h
    exact ⟨rfl, rfl, rfl, rfl, rfl, rfl, rfl⟩
  | cons record queue ih =>
    intro b h
    obtain ⟨⟨res, b₁⟩, hreserve, hrest⟩ := Option.bind_eq_some_iff.mp h
    have hkept := reserve_kept hreserve
    cases res with
    | none =>
      obtain rfl := Option.some.inj hrest
      exact hkept.trans ⟨rfl, rfl, rfl, rfl, rfl, rfl, rfl⟩
    | some reservation =>
      obtain ⟨b₂, hfill, hdrain⟩ := Option.bind_eq_some_iff.mp hrest
      obtain ⟨signal, rfl⟩ := fill_eq hfill
      have hmore := ih hdrain
      exact hkept.trans ⟨hmore.capacity, hmore.slotSize, hmore.prodMask, hmore.consMask,
        hmore.length_slots, hmore.data, hmore.maxSpins⟩

variable [Hasher]

theorem readLoop_kept {left : Nat} :
    ∀ {b : VolatileRingBuffer} {consSeq : UInt64} {records : List Record} {processed : Nat}
      {consSeq' : UInt64} {records' : List Record} {processed' : Nat},
      readLoop left b consSeq records processed = some (b', consSeq', records', processed') →
        b.Kept b' := by
  induction left with
  | zero =>
    intro b consSeq records processed consSeq' records' processed' h
    obtain rfl := (Prod.mk.inj (Option.some.inj h)).1
    exact Kept.refl _
  | succ left ih =>
    intro b consSeq records processed consSeq' records' processed' h
    obtain ⟨slot, -, hrest⟩ := Option.bind_eq_some_iff.mp h
    split at hrest
    · obtain ⟨record, -, hmore⟩ := Option.bind_eq_some_iff.mp hrest
      refine Kept.trans ?_ (ih hmore)
      exact ⟨rfl, rfl, rfl, rfl, by simp [setSlot], rfl, rfl⟩
    · obtain rfl := (Prod.mk.inj (Option.some.inj hrest)).1
      exact Kept.refl _

theorem read_kept {found : List Record} (h : b.read = some (found, b')) : b.Kept b' := by
  obtain ⟨⟨b₁, consSeq, records, processed⟩, hloop, hrest⟩ := Option.bind_eq_some_iff.mp h
  have hkept := readLoop_kept hloop
  simp only at hrest
  split at hrest
  · obtain ⟨b₂, hdrain, hres⟩ := Option.map_eq_some_iff.mp hrest
    obtain ⟨-, rfl⟩ := Prod.mk.inj hres
    have hmore := drain_kept hdrain
    exact hkept.trans ⟨hmore.capacity, hmore.slotSize, hmore.prodMask, hmore.consMask,
      hmore.length_slots, hmore.data, hmore.maxSpins⟩
  · obtain ⟨-, rfl⟩ := Prod.mk.inj (Option.some.inj hrest)
    exact hkept

/-- **No call changes the shape of the buffer.** -/
theorem step_kept {s s' : Client} {call : Request} {answer : Answer}
    (h : s.step call = some (answer, s')) : s.buf.Kept s'.buf := by
  cases call with
  | reserve size block =>
    obtain ⟨⟨res, buf⟩, hreserve, hres⟩ := Option.map_eq_some_iff.mp h
    obtain ⟨-, rfl⟩ := Prod.mk.inj hres
    have hkept := reserve_kept hreserve
    cases res <;> exact hkept
  | fill i header data =>
    obtain ⟨r, -, hrest⟩ := Option.bind_eq_some_iff.mp h
    obtain ⟨r', -, hres⟩ := Option.map_eq_some_iff.mp hrest
    obtain ⟨-, rfl⟩ := Prod.mk.inj hres
    exact Kept.refl _
  | commit i =>
    obtain ⟨r, -, hrest⟩ := Option.bind_eq_some_iff.mp h
    obtain ⟨res, -, hres⟩ := Option.map_eq_some_iff.mp hrest
    obtain ⟨-, rfl⟩ := Prod.mk.inj hres
    exact ⟨rfl, rfl, rfl, rfl, rfl, rfl, rfl⟩
  | drop i =>
    obtain ⟨r, -, hrest⟩ := Option.bind_eq_some_iff.mp h
    obtain ⟨b', -, hres⟩ := Option.map_eq_some_iff.mp hrest
    obtain ⟨-, rfl⟩ := Prod.mk.inj hres
    exact Kept.refl _
  | write record =>
    obtain ⟨⟨ok, buf⟩, hwrite, hres⟩ := Option.map_eq_some_iff.mp h
    obtain ⟨-, rfl⟩ := Prod.mk.inj hres
    exact write_kept hwrite
  | read =>
    obtain ⟨⟨found, buf⟩, hread, hres⟩ := Option.map_eq_some_iff.mp h
    obtain ⟨-, rfl⟩ := Prod.mk.inj hres
    exact read_kept hread

end VolatileRingBuffer

end Sherlog
