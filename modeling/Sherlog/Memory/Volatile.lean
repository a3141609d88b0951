import Sherlog.Memory.Record

/-!
# The volatile ring buffer

`memory/volatile.rs` and the slots and indices of `memory/mod.rs`, for one thread: every
operation runs from start to end by itself, and an atomic access is an access.

An operation is `none` when it does not come back: an assertion or a slice index that
panics, an access outside the allocation, or a blocking `reserve` for which nobody else is
there to empty the slot.

A `Reservation` carries the buffer it acts on.  The source gives it
`Arc::new(self.clone())`, and `clone` makes an *empty* buffer of the same shape, so that is
what `reserve` puts there.  Of the original it shares the flag behind the condition
variable only, which is why `commit` says whether it notified.
-/

namespace Sherlog

open LittleEndian Window

/-- Slot state for buffer entries. -/
inductive SlotState where
  | empty
  | reserved
  | ready
  | consumed
deriving DecidableEq, Repr

/-- A slot in the buffer. -/
structure Slot where
  /-- Current state of the slot. -/
  state : SlotState
  /-- Sequence number for this slot. -/
  seq : UInt64
deriving DecidableEq, Repr

namespace Slot

/-- `Slot::new`. -/
def new : Slot := ⟨.empty, 0⟩

/-- `Slot::try_transition`; `none` when the slot is in another state. -/
def tryTransition (slot : Slot) (source target : SlotState) : Option Slot :=
  if slot.state = source then some { slot with state := target } else none

end Slot

/-- A sequence number and the mask that takes it to a slot. -/
structure AtomicIndex where
  /-- The current index value. -/
  value : UInt64
  /-- Mask for wrapping indices to the capacity. -/
  mask : UInt64
deriving DecidableEq, Repr

namespace AtomicIndex

/-- `AtomicIndex::new` for a capacity that is a power of two. -/
def new (capacity : Nat) : AtomicIndex := ⟨0, UInt64.ofNat (capacity - 1)⟩

/-- `AtomicIndex::physical_index`. -/
def physicalIndex (index : AtomicIndex) (seq : UInt64) : Nat := (seq &&& index.mask).toNat

end AtomicIndex

/-- The bytes of the fields of a header in a slot.  The four bytes of padding behind them
are left as they are. -/
def RecordHeader.toBytes (h : RecordHeader) : List UInt8 :=
  packFields [(4, h.size.toNat), (4, h.crc32.toNat), (8, h.timestampUs.toNat), (4, h.tag.toNat)]

/-- The header that a slot holds. -/
def RecordHeader.ofBytes (bytes : List UInt8) : RecordHeader :=
  let f := unpackFields [4, 4, 8, 4] bytes
  { size := UInt32.ofNat (f.getD 0 0), crc32 := UInt32.ofNat (f.getD 1 0),
    timestampUs := UInt64.ofNat (f.getD 2 0), tag := UInt32.ofNat (f.getD 3 0) }

/-- Multi-producer, single-consumer ring buffer for volatile memory. -/
structure VolatileRingBuffer where
  /-- Slots for data storage. -/
  slots : List Slot
  /-- Actual data storage. -/
  data : List UInt8
  /-- Production sequence: the next slot to produce. -/
  prodSeq : AtomicIndex
  /-- Consumption sequence: the next slot to consume. -/
  consSeq : AtomicIndex
  /-- Buffer capacity. -/
  capacity : Nat
  /-- Size of each slot. -/
  slotSize : Nat
  /-- The flag behind the condition variable, shared with every clone. -/
  consumerSignal : Bool
  /-- Records waiting for a slot, oldest first. -/
  overflowQueue : List Record
  /-- Maximum overflow queue size. -/
  maxOverflow : Nat
  /-- Maximum number of spins before fallback. -/
  maxSpins : Nat
deriving DecidableEq, Repr

/-- Reservation in the ring buffer. -/
structure Reservation where
  /-- Slot index for this reservation. -/
  slotIdx : Nat
  /-- Sequence number for this reservation. -/
  seq : UInt64
  /-- Size of the reservation. -/
  size : Nat
  /-- The buffer it acts on. -/
  buffer : VolatileRingBuffer
  /-- Whether this reservation has been committed. -/
  committed : Bool
deriving DecidableEq, Repr

namespace VolatileRingBuffer

/-- A buffer of empty slots. -/
def blank (capacity slotSize maxOverflow maxSpins : Nat) (consumerSignal : Bool) :
    VolatileRingBuffer :=
  { slots := List.replicate capacity Slot.new, data := List.replicate (capacity * slotSize) 0,
    prodSeq := AtomicIndex.new capacity, consSeq := AtomicIndex.new capacity, capacity, slotSize,
    consumerSignal, overflowQueue := [], maxOverflow, maxSpins }

/-- `VolatileRingBuffer::new`.  Slots that would take more than `isize::MAX` bytes are not
to be had: the allocation panics or aborts. -/
def new (capacity : Nat) : Option VolatileRingBuffer :=
  let numSlots := Nat.nextPowerOfTwo capacity
  let slotSize := 256
  if isizeMax < numSlots * slotSize then none
  else some (blank numSlots slotSize 1000 100 false)

/-- `VolatileRingBuffer::clone`. -/
def clone (b : VolatileRingBuffer) : VolatileRingBuffer :=
  blank b.capacity b.slotSize b.maxOverflow b.maxSpins b.consumerSignal

/-- A slot changed. -/
def setSlot (b : VolatileRingBuffer) (slotIdx : Nat) (slot : Slot) : VolatileRingBuffer :=
  { b with slots := b.slots.set slotIdx slot }

/-! ## Reserve, write, commit -/

/-- The `while` loop of `reserve`, with the spins it has left and those it has made. -/
def reserveLoop (b : VolatileRingBuffer) (totalSize : Nat) (block : Bool) :
    Nat → Nat → Option (Option Reservation × VolatileRingBuffer)
  | 0, _ =>
    -- a blocking call starts all over again, and in one thread nothing has changed by then
    if block then none else some (none, b)
  | left + 1, spins =>
    let prodSeq := b.prodSeq.value
    let slotIdx := b.prodSeq.physicalIndex prodSeq
    (b.slots[slotIdx]?).bind fun slot =>
      match slot.tryTransition .empty .reserved with
      | some slot =>
        let b := { b with prodSeq := { b.prodSeq with value := prodSeq + 1 } }
        let b := b.setSlot slotIdx { slot with seq := prodSeq }
        some (some { slotIdx, seq := prodSeq, size := totalSize, buffer := b.clone,
                     committed := false }, b)
      | none =>
        if block = false ∧ 10 < spins + 1 then some (none, b)
        else reserveLoop b totalSize block left (spins + 1)

/-- `VolatileRingBuffer::reserve`. -/
def reserve (b : VolatileRingBuffer) (size : Nat) (block : Bool) :
    Option (Option Reservation × VolatileRingBuffer) :=
  let totalSize := wrapping (size + RecordHeader.SIZE)
  if b.slotSize < totalSize then none else b.reserveLoop totalSize block b.maxSpins 0

end VolatileRingBuffer

namespace Reservation

/-- `Reservation::write`. -/
def write (r : Reservation) (header : RecordHeader) (data : List UInt8) : Option Reservation :=
  if wrapping (r.size + 2 ^ 64 - RecordHeader.SIZE) < data.length then none
  else
    let dataPtr := r.slotIdx * r.buffer.slotSize
    (copyAll r.buffer.data [(dataPtr, header.toBytes), (dataPtr + RecordHeader.SIZE, data)]).map
      fun bytes => { r with buffer := { r.buffer with data := bytes } }

/-- `Drop for Reservation`. -/
def drop (r : Reservation) : Option VolatileRingBuffer :=
  if r.committed then some r.buffer
  else
    (r.buffer.slots[r.slotIdx]?).map fun slot =>
      match slot.tryTransition .reserved .empty with
      | some slot => r.buffer.setSlot r.slotIdx slot
      | none => r.buffer

/-- `Reservation::commit`, with the drop at its end: the buffer it acted on, and whether the
consumer has been notified. -/
def commit (r : Reservation) : Option (VolatileRingBuffer × Bool) :=
  if r.committed then r.drop.map fun b => (b, false)
  else
    (r.buffer.slots[r.slotIdx]?).bind fun slot =>
      match slot.tryTransition .reserved .ready with
      | some slot =>
        let b := r.buffer.setSlot r.slotIdx { slot with seq := r.seq }
        let r := { r with buffer := { b with consumerSignal := true }, committed := true }
        r.drop.map fun b => (b, true)
      | none => r.drop.map fun b => (b, false)

end Reservation

namespace VolatileRingBuffer

/-- What `write` and the drain of `read` do with a reservation: fill it and commit it.  The
buffer it acts on is gone afterwards; the notification reaches the original. -/
def fill (b : VolatileRingBuffer) (reservation : Reservation) (record : Record) :
    Option VolatileRingBuffer :=
  (reservation.write record.header record.data).bind fun reservation =>
    reservation.commit.map fun res =>
      { b with consumerSignal := b.consumerSignal || res.2 }

/-- The record put into the overflow queue, at the cost of the oldest one when the queue is
full. -/
def enqueue (b : VolatileRingBuffer) (record : Record) : VolatileRingBuffer :=
  if b.overflowQueue.length < b.maxOverflow then
    { b with overflowQueue := b.overflowQueue ++ [record] }
  else
    match b.overflowQueue with
    | [] => b
    | _ :: queue => { b with overflowQueue := queue ++ [record] }

/-- `VolatileRingBuffer::write`. -/
def write (b : VolatileRingBuffer) (record : Record) : Option (Bool × VolatileRingBuffer) :=
  (b.reserve record.data.length false).bind fun
    | (some reservation, b) => (b.fill reservation record).map fun b => (true, b)
    | (none, b) => some (false, b.enqueue record)

/-! ## Read -/

/-- The header and the data in a slot. -/
def slotRecord (b : VolatileRingBuffer) (slotIdx : Nat) : Option Record :=
  let dataPtr := slotIdx * b.slotSize
  (slice b.data dataPtr (dataPtr + RecordHeader.SIZE)).bind fun headerBytes =>
    let header := RecordHeader.ofBytes headerBytes
    let srcPtr := dataPtr + RecordHeader.SIZE
    (slice b.data srcPtr (srcPtr + header.size.toNat)).map fun data => { header, data }

/-- The `for` loop of `read`: the buffer, the consumer sequence, the records collected and
the number of slots processed. -/
def readLoop [Hasher] : Nat → VolatileRingBuffer → UInt64 → List Record → Nat →
    Option (VolatileRingBuffer × UInt64 × List Record × Nat)
  | 0, b, consSeq, records, processed => some (b, consSeq, records, processed)
  | left + 1, b, consSeq, records, processed =>
    let slotIdx := b.consSeq.physicalIndex consSeq
    (b.slots[slotIdx]?).bind fun slot =>
      if slot.state = .ready ∧ slot.seq = consSeq then
        (b.slotRecord slotIdx).bind fun record =>
          let records :=
            if record.header.verifyCrc record.data then records ++ [record] else records
          let b := b.setSlot slotIdx { slot with state := .consumed }
          let b := b.setSlot slotIdx { slot with state := .empty }
          readLoop left b (consSeq + 1) records (processed + 1)
      else some (b, consSeq, records, processed)

/-- The drain at the end of `read`: records of the queue moved into slots while there is
space. -/
def drain (b : VolatileRingBuffer) : List Record → Option VolatileRingBuffer
  | [] => some { b with overflowQueue := [] }
  | record :: queue =>
    (b.reserve record.data.length false).bind fun
      | (some reservation, b) => (b.fill reservation record).bind fun b => b.drain queue
      | (none, b) => some { b with overflowQueue := record :: queue }

/-- `VolatileRingBuffer::read`. -/
def read [Hasher] (b : VolatileRingBuffer) : Option (List Record × VolatileRingBuffer) :=
  (readLoop b.capacity b b.consSeq.value [] 0).bind fun (b, consSeq, records, processed) =>
    if 0 < processed then
      let b := { b with consSeq := { b.consSeq with value := consSeq } }
      (b.drain b.overflowQueue).map fun b => (records, b)
    else some (records, b)

end VolatileRingBuffer

end Sherlog
