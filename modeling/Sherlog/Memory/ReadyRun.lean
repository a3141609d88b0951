import Sherlog.Memory.Slots
import Mathlib.Data.Nat.Find
import Mathlib.Order.Bounds.Defs

/-!
# What `read` takes

`read` walks the slots from the consumer sequence on and takes the record of each as long
as the slot is ready and carries the sequence number it is walked for.  The walk changes
the slots it has passed.

* `VolatileRingBuffer.ReadyAt` — the slot of the `i`-th sequence number is taken when the
  walk comes to it.
* `emptied`, `recycled` — the buffer with the slots of the first sequence numbers made
  empty; `readLoop_emptied` — this is what the walk makes of it, because it never comes
  back to a slot it has passed.
* `Refilled`, `drain_refilled` — what the drain of the overflow queue does then.
* `read_takes_run` — `read` takes the longest ready run, from any state.
-/

namespace Sherlog

open Window

namespace VolatileRingBuffer

section

/-- The slot of the `i`-th sequence number from the consumer sequence on. -/
def slotOf (b : VolatileRingBuffer) (i : Nat) : Nat :=
  b.consSeq.physicalIndex (b.consSeq.value + UInt64.ofNat i)

/-- That slot is ready and carries that sequence number. -/
def ReadyAt (b : VolatileRingBuffer) (i : Nat) : Prop :=
  ∃ slot, b.slots[b.slotOf i]? = some slot ∧ slot.state = .ready ∧
    slot.seq = b.consSeq.value + UInt64.ofNat i

/-- The first `m` slots from the consumer sequence on made empty. -/
def emptied (b : VolatileRingBuffer) (m : Nat) : VolatileRingBuffer :=
  { b with slots := b.slots.mapIdx fun slotIdx slot =>
      if ∃ i < m, b.slotOf i = slotIdx then { slot with state := .empty } else slot }

/-- And the consumer sequence moved on behind them. -/
def recycled (b : VolatileRingBuffer) (m : Nat) : VolatileRingBuffer :=
  { b.emptied m with consSeq := { b.consSeq with value := b.consSeq.value + UInt64.ofNat m } }

/-- Every slot holds a header whose size fits the slot. -/
def HeadersFit (b : VolatileRingBuffer) : Prop :=
  ∀ slotIdx < b.capacity,
    (RecordHeader.ofBytes (window b.data (slotIdx * b.slotSize) RecordHeader.SIZE)).size.toNat +
      RecordHeader.SIZE ≤ b.slotSize

/-- The slot of the `i`-th sequence number from the production sequence on. -/
def nextSlot (b : VolatileRingBuffer) (i : Nat) : Nat :=
  b.prodSeq.physicalIndex (b.prodSeq.value + UInt64.ofNat i)

/-- From the first buffer to the second the slots of the next `n` sequence numbers have been
reserved, each of which was empty, and the production sequence has moved on behind them; the
queue may have changed, and nothing else. -/
structure Refilled (n : Nat) (b b' : VolatileRingBuffer) : Prop where
  reserved : ∀ i < n, b.slots[b.nextSlot i]?.map Slot.state = some .empty ∧
    b'.slots[b.nextSlot i]? = some ⟨.reserved, b.prodSeq.value + UInt64.ofNat i⟩
  apart : ∀ i < n, ∀ j < n, b.nextSlot i = b.nextSlot j → i = j
  kept : ∀ slotIdx, (∀ i < n, b.nextSlot i ≠ slotIdx) → b'.slots[slotIdx]? = b.slots[slotIdx]?
  rest : ∃ slots overflowQueue,
    b' = { b with slots, overflowQueue,
                  prodSeq := { b.prodSeq with value := b.prodSeq.value + UInt64.ofNat n } }

variable {b : VolatileRingBuffer}

/-! ## The walk -/

theorem Laid.slotOf_eq (hb : b.Laid) (i : Nat) :
    b.slotOf i = (b.consSeq.value.toNat + i) % b.capacity :=
  AtomicIndex.physicalIndex_add hb.capacity_eq hb.consMask _ i

/-- **The walk never comes back to a slot.** -/
theorem Laid.slotOf_injective (hb : b.Laid) {i j : Nat} (hi : i < b.capacity)
    (hj : j < b.capacity) (h : b.slotOf i = b.slotOf j) : i = j := by
  rw [hb.slotOf_eq, hb.slotOf_eq] at h
  exact Ring.slot_injective hi hj h

theorem Laid.recycled (hb : b.Laid) (m : Nat) : (b.recycled m).Laid where
  length_slots := by
    rw [VolatileRingBuffer.recycled, emptied]
    simp only [List.length_mapIdx]
    exact hb.length_slots
  prodMask := hb.prodMask
  consMask := hb.consMask
  capacity_mul_lt := hb.capacity_mul_lt
  maxSpins_pos := hb.maxSpins_pos
  capacity_eq := hb.capacity_eq
  length_data := hb.length_data

theorem slots_emptied (m slotIdx : Nat) :
    (b.emptied m).slots[slotIdx]? = b.slots[slotIdx]?.map fun slot =>
      if ∃ i < m, b.slotOf i = slotIdx then { slot with state := .empty } else slot :=
  List.getElem?_mapIdx

theorem emptied_zero (b : VolatileRingBuffer) : b.emptied 0 = b := by
  have hslots : (b.emptied 0).slots = b.slots := by
    refine List.ext_getElem? fun slotIdx => ?_
    rw [slots_emptied]
    simp
  show { b with slots := (b.emptied 0).slots } = b
  rw [hslots]

theorem recycled_zero (b : VolatileRingBuffer) : b.recycled 0 = b := by
  have hzero : b.consSeq.value + UInt64.ofNat 0 = b.consSeq.value := UInt64.add_zero _
  rw [recycled, emptied_zero, hzero]

/-- The slot the walk comes to next is as it was. -/
theorem Laid.slots_emptied_self (hb : b.Laid) {i : Nat} (hi : i < b.capacity) :
    (b.emptied i).slots[b.slotOf i]? = b.slots[b.slotOf i]? := by
  have hnew : ¬ ∃ j < i, b.slotOf j = b.slotOf i := by
    rintro ⟨j, hj, heq⟩
    have := hb.slotOf_injective (by omega) hi heq
    omega
  rw [slots_emptied]
  simp [hnew]

/-- One more slot made empty. -/
theorem emptied_succ {i : Nat} {slot : Slot} (hslot : b.slots[b.slotOf i]? = some slot) :
    (b.emptied i).setSlot (b.slotOf i) { slot with state := .empty } = b.emptied (i + 1) := by
  obtain ⟨hlt, -⟩ := List.getElem?_eq_some_iff.mp hslot
  have hslots : (b.emptied i).slots.set (b.slotOf i) { slot with state := .empty } =
      (b.emptied (i + 1)).slots := by
    refine List.ext_getElem? fun slotIdx => ?_
    by_cases heq : b.slotOf i = slotIdx
    · subst heq
      rw [List.getElem?_set_self (by simpa [emptied] using hlt), slots_emptied, hslot]
      have hlast : ∃ j < i + 1, b.slotOf j = b.slotOf i := ⟨i, by omega, rfl⟩
      rw [Option.map_some, if_pos hlast]
    · have hsame : (∃ j < i + 1, b.slotOf j = slotIdx) ↔ ∃ j < i, b.slotOf j = slotIdx := by
        constructor
        · rintro ⟨j, hj, hidx⟩
          have hne : j ≠ i := fun h => heq (h ▸ hidx)
          exact ⟨j, by omega, hidx⟩
        · rintro ⟨j, hj, hidx⟩
          exact ⟨j, by omega, hidx⟩
      rw [List.getElem?_set_ne heq, slots_emptied, slots_emptied]
      simp only [hsame]
  rw [setSlot, hslots]
  rfl

/-- In a slot whose header fits there is a record. -/
theorem Laid.exists_slotRecord (hb : b.Laid) (hheaders : b.HeadersFit) {slotIdx : Nat}
    (hlt : slotIdx < b.capacity) : ∃ record, b.slotRecord slotIdx = some record := by
  have hfit := hheaders slotIdx hlt
  have hspace : slotIdx * b.slotSize + b.slotSize ≤ b.data.length := by
    rw [hb.length_data, ← Nat.succ_mul]
    exact Nat.mul_le_mul_right _ hlt
  simp only [slotRecord]
  rw [slice_eq_some (by omega), Option.bind_some, slice_eq_some (by omega)]
  exact ⟨_, rfl⟩

end

section

variable [Hasher] {b : VolatileRingBuffer}

/-- The record the walk returns for the `i`-th sequence number, if its checksum matches. -/
def runRecord (b : VolatileRingBuffer) (i : Nat) : Option Record :=
  (b.slotRecord (b.slotOf i)).filter fun record => record.header.verifyCrc record.data

/-- The records the walk returns for the first `m` sequence numbers. -/
def runRecords (b : VolatileRingBuffer) (m : Nat) : List Record :=
  (List.range m).filterMap b.runRecord

theorem runRecords_succ {i : Nat} {record : Record}
    (hrecord : b.slotRecord (b.slotOf i) = some record) :
    b.runRecords (i + 1) =
      if record.header.verifyCrc record.data then b.runRecords i ++ [record]
      else b.runRecords i := by
  rw [runRecords, List.range_succ, List.filterMap_append, runRecords]
  cases hcrc : record.header.verifyCrc record.data with
  | false =>
    have hnone : b.runRecord i = none := by simp [runRecord, hrecord, hcrc]
    simp [hnone]
  | true =>
    have hsome : b.runRecord i = some record := by simp [runRecord, hrecord, hcrc]
    simp [hsome]

/-- **The walk.**  It has emptied the slots it has passed, and goes on to the end of the
ready run. -/
theorem readLoop_emptied (hb : b.Laid) (hheaders : b.HeadersFit) {m : Nat} (hm : m ≤ b.capacity)
    (hready : ∀ i < m, b.ReadyAt i) (hstop : m < b.capacity → ¬ b.ReadyAt m) {left : Nat} :
    ∀ {i}, i + left = b.capacity → i ≤ m →
      readLoop left (b.emptied i) (b.consSeq.value + UInt64.ofNat i) (b.runRecords i) i =
        some (b.emptied m, b.consSeq.value + UInt64.ofNat m, b.runRecords m, m) := by
  induction left with
  | zero =>
    intro i hi him
    obtain rfl : i = m := by omega
    rfl
  | succ left ih =>
    intro i hi him
    have hlt : i < b.capacity := by omega
    have hidx : (b.emptied i).consSeq.physicalIndex (b.consSeq.value + UInt64.ofNat i) =
        b.slotOf i := rfl
    obtain ⟨slot, -, hslot⟩ := hb.exists_slot (hb.cons_lt (b.consSeq.value + UInt64.ofNat i))
    rw [readLoop, hidx, hb.slots_emptied_self hlt]
    by_cases hrun : i < m
    · obtain ⟨slot', hslot', hstate, hseq⟩ := hready i hrun
      obtain ⟨record, hrecord⟩ := hb.exists_slotRecord hheaders
        (hb.cons_lt (b.consSeq.value + UInt64.ofNat i))
      have hrecord' : (b.emptied i).slotRecord (b.slotOf i) = some record := hrecord
      have htwice : ((b.emptied i).setSlot (b.slotOf i) { slot' with state := .consumed }).setSlot
          (b.slotOf i) { slot' with state := .empty } = b.emptied (i + 1) := by
        rw [← emptied_succ hslot', setSlot, setSlot, setSlot]
        simp only [List.set_set]
      have hnext : b.consSeq.value + UInt64.ofNat i + 1 =
          b.consSeq.value + UInt64.ofNat (i + 1) := by
        rw [UInt64.ofNat_add, ← UInt64.add_assoc]
        rfl
      rw [hslot', Option.bind_some, if_pos ⟨hstate, hseq⟩, hrecord', Option.bind_some]
      simp only [htwice, hnext]
      rw [← runRecords_succ hrecord]
      exact ih (by omega) (by omega)
    · obtain rfl : i = m := by omega
      have hslot' : b.slots[b.slotOf i]? = some slot := hslot
      have hnot : ¬ (slot.state = .ready ∧ slot.seq = b.consSeq.value + UInt64.ofNat i) :=
        fun h => hstop hlt ⟨slot, hslot', h⟩
      rw [hslot', Option.bind_some, if_neg hnot]

/-- **What `read` does**, in terms of the ready run. -/
theorem read_eq (hb : b.Laid) (hheaders : b.HeadersFit) {m : Nat} (hm : m ≤ b.capacity)
    (hready : ∀ i < m, b.ReadyAt i) (hstop : m < b.capacity → ¬ b.ReadyAt m) :
    b.read =
      if m = 0 then some ([], b)
      else ((b.recycled m).drain b.overflowQueue).map fun b' => (b.runRecords m, b') := by
  have hloop := readLoop_emptied hb hheaders hm hready hstop (Nat.zero_add _) (Nat.zero_le m)
  have hzero : b.consSeq.value + UInt64.ofNat 0 = b.consSeq.value := UInt64.add_zero _
  have hnone : b.runRecords 0 = [] := rfl
  rw [emptied_zero, hzero, hnone] at hloop
  rw [read, hloop, Option.bind_some]
  by_cases hm0 : m = 0
  · subst hm0
    rw [if_pos rfl, hnone, emptied_zero]
    rfl
  · simp only [if_neg hm0, Nat.pos_of_ne_zero hm0, if_true]
    rfl

end

/-! ## The drain -/

section

variable {b : VolatileRingBuffer}

theorem nextSlot_zero (b : VolatileRingBuffer) :
    b.nextSlot 0 = b.prodSeq.physicalIndex b.prodSeq.value :=
  congrArg b.prodSeq.physicalIndex (UInt64.add_zero b.prodSeq.value)

theorem prodSeq_succ (b : VolatileRingBuffer) (i : Nat) :
    b.taken.prodSeq.value + UInt64.ofNat i = b.prodSeq.value + UInt64.ofNat (i + 1) := by
  rw [Nat.add_comm i 1, UInt64.ofNat_add, ← UInt64.add_assoc]
  rfl

theorem nextSlot_taken (b : VolatileRingBuffer) (i : Nat) :
    b.taken.nextSlot i = b.nextSlot (i + 1) :=
  congrArg b.prodSeq.physicalIndex (b.prodSeq_succ i)

/-- Another queue is no change. -/
theorem Refilled.of_queue (b : VolatileRingBuffer) (overflowQueue : List Record) :
    b.Refilled 0 { b with overflowQueue } where
  reserved := fun _ hi => absurd hi (Nat.not_lt_zero _)
  apart := fun _ hi => absurd hi (Nat.not_lt_zero _)
  kept := fun _ _ => rfl
  rest := ⟨b.slots, overflowQueue, by rw [show UInt64.ofNat 0 = 0 from rfl, UInt64.add_zero]⟩

/-- One slot more, taken first. -/
theorem Refilled.of_taken {n : Nat} {b' : VolatileRingBuffer} {slot : Slot}
    (hslot : b.slots[b.nextSlot 0]? = some slot) (hstate : slot.state = .empty)
    (h : b.taken.Refilled n b') : b.Refilled (n + 1) b' := by
  obtain ⟨hlt, -⟩ := List.getElem?_eq_some_iff.mp hslot
  have hfirst : b.taken.slots[b.nextSlot 0]? = some ⟨.reserved, b.prodSeq.value⟩ := by
    rw [VolatileRingBuffer.taken, ← nextSlot_zero]
    exact List.getElem?_set_self hlt
  have hother : ∀ slotIdx, b.nextSlot 0 ≠ slotIdx →
      b.taken.slots[slotIdx]? = b.slots[slotIdx]? := by
    intro slotIdx hne
    rw [VolatileRingBuffer.taken, ← nextSlot_zero]
    exact List.getElem?_set_ne hne
  -- the slot taken first is no longer empty, so the drain does not come back to it
  have hnew : ∀ i < n, b.nextSlot 0 ≠ b.nextSlot (i + 1) := by
    intro i hi heq
    have hempty := (h.reserved i hi).1
    rw [nextSlot_taken, ← heq, hfirst] at hempty
    cases hempty
  refine ⟨?_, ?_, ?_, ?_⟩
  · intro i hi
    cases i with
    | zero =>
      refine ⟨by rw [hslot, Option.map_some, hstate], ?_⟩
      rw [h.kept _ fun i hi => nextSlot_taken b i ▸ (hnew i hi).symm, hfirst,
        show UInt64.ofNat 0 = 0 from rfl, UInt64.add_zero]
    | succ i =>
      have hi := Nat.lt_of_succ_lt_succ hi
      obtain ⟨hempty, hreserved⟩ := h.reserved i hi
      rw [nextSlot_taken] at hempty hreserved
      rw [hother _ (hnew i hi)] at hempty
      exact ⟨hempty, by rw [hreserved, prodSeq_succ]⟩
  · intro i hi j hj heq
    cases i with
    | zero =>
      cases j with
      | zero => rfl
      | succ j => exact absurd heq (hnew j (Nat.lt_of_succ_lt_succ hj))
    | succ i =>
      cases j with
      | zero => exact absurd heq.symm (hnew i (Nat.lt_of_succ_lt_succ hi))
      | succ j =>
        rw [← nextSlot_taken, ← nextSlot_taken] at heq
        exact congrArg Nat.succ
          (h.apart i (Nat.lt_of_succ_lt_succ hi) j (Nat.lt_of_succ_lt_succ hj) heq)
  · intro slotIdx hne
    rw [h.kept slotIdx fun i hi => nextSlot_taken b i ▸ hne (i + 1) (Nat.succ_lt_succ hi),
      hother slotIdx (hne 0 (Nat.succ_pos n))]
  · obtain ⟨slots, overflowQueue, rfl⟩ := h.rest
    exact ⟨slots, overflowQueue, by rw [prodSeq_succ]; rfl⟩

/-- **The drain** takes records from the front of the queue and reserves the next empty slot for
each, until the queue is used up or the next slot is not empty. -/
theorem drain_refilled {queue : List Record} :
    ∀ {b : VolatileRingBuffer}, b.Shaped →
      (∀ record ∈ queue, record.data.length + RecordHeader.SIZE ≤ b.slotSize) →
        ∃ n b', b.drain queue = some b' ∧ b.Refilled n b' ∧ n ≤ queue.length ∧
          b'.overflowQueue = queue.drop n ∧
          (n = queue.length ∨ b'.slots[b'.nextSlot 0]?.map Slot.state ≠ some .empty) := by
  induction queue with
  | nil => exact fun {b} _ _ => ⟨0, _, rfl, .of_queue b [], le_rfl, rfl, Or.inl rfl⟩
  | cons record queue ih =>
    intro b hb hfits
    have hsize := hfits record (List.mem_cons_self ..)
    have hlt := hb.capacity_mul_lt
    have hidx := hb.prod_lt b.prodSeq.value
    have hle : b.slotSize ≤ b.capacity * b.slotSize := Nat.le_mul_of_pos_left _ (by omega)
    obtain ⟨slot, -, hslot⟩ := hb.exists_slot hidx
    rw [drain]
    by_cases hstate : slot.state = .empty
    · obtain ⟨n, b', hdrain, hrefilled, hn, hqueue, hstops⟩ := ih hb.taken
        fun record' hmem => hfits record' (List.mem_cons_of_mem _ hmem)
      refine ⟨n + 1, b', ?_, .of_taken (nextSlot_zero b ▸ hslot) hstate hrefilled,
        Nat.succ_le_succ hn, hqueue, hstops.imp_left (congrArg Nat.succ)⟩
      rw [reserve_of_empty hb hsize (by omega) hslot hstate, Option.bind_some]
      simp only [fill_clone b.taken hidx hlt b.prodSeq.value hsize, Option.bind_some]
      exact hdrain
    · refine ⟨0, _, ?_, .of_queue b (record :: queue), Nat.zero_le _, rfl, Or.inr ?_⟩
      · rw [reserve_of_taken hsize (by omega) hslot hstate]
        rfl
      · show b.slots[b.nextSlot 0]?.map Slot.state ≠ some .empty
        rw [nextSlot_zero, hslot]
        simpa using hstate

end

/-! ## From any state -/

section

variable [Hasher]

/-- **`read` takes the longest ready run.**  From any state of the slots, the sequence
numbers, the bytes and the queue, as long as the headers fit their slots: the walk returns
the records of the run whose checksums match, in order, makes exactly its slots empty and
moves the consumer sequence behind it.  That is all when the queue or the run is empty.
Otherwise, the records of the queue fitting slots, the drain takes the first `n` of them out of
it and reserves a slot for each: those of the next `n` sequence numbers, all empty by then.  It
goes on until the queue is used up or the next slot is not empty, and changes no other slot,
nor the consumer sequence, nor any bytes. -/
theorem read_takes_run (b : VolatileRingBuffer) (hb : b.Laid) (hheaders : b.HeadersFit) :
    ∃ m, IsGreatest { m | m ≤ b.capacity ∧ ∀ i < m, b.ReadyAt i } m ∧
      (m = 0 ∨ b.overflowQueue = [] → b.read = some (b.runRecords m, b.recycled m)) ∧
      (0 < m →
        (∀ record ∈ b.overflowQueue, record.data.length + RecordHeader.SIZE ≤ b.slotSize) →
          ∃ n b', b.read = some (b.runRecords m, b') ∧ (b.recycled m).Refilled n b' ∧
            n ≤ b.overflowQueue.length ∧ b'.overflowQueue = b.overflowQueue.drop n ∧
            (n = b.overflowQueue.length ∨
              b'.slots[b'.nextSlot 0]?.map Slot.state ≠ some .empty)) := by
  classical
  have hspec : ∀ i < Nat.findGreatest (fun m => ∀ i < m, b.ReadyAt i) b.capacity, b.ReadyAt i :=
    Nat.findGreatest_spec (P := fun m => ∀ i < m, b.ReadyAt i) (Nat.zero_le _) (by simp)
  have hle : Nat.findGreatest (fun m => ∀ i < m, b.ReadyAt i) b.capacity ≤ b.capacity :=
    Nat.findGreatest_le _
  have hgreatest : ∀ m ≤ b.capacity, (∀ i < m, b.ReadyAt i) →
      m ≤ Nat.findGreatest (fun m => ∀ i < m, b.ReadyAt i) b.capacity :=
    fun m hm hrun => Nat.le_findGreatest hm hrun
  generalize Nat.findGreatest (fun m => ∀ i < m, b.ReadyAt i) b.capacity = m at *
  have hstop : m < b.capacity → ¬ b.ReadyAt m := by
    intro hlt hready
    have hmore := hgreatest (m + 1) hlt (fun i hi => by
      rcases Nat.lt_succ_iff_lt_or_eq.mp hi with hi | rfl
      · exact hspec i hi
      · exact hready)
    omega
  have hread := read_eq hb hheaders hle hspec hstop
  have hfirst : b.runRecords 0 = [] := rfl
  refine ⟨m, ⟨⟨hle, hspec⟩, fun m' hm' => hgreatest m' hm'.1 hm'.2⟩, ?_, ?_⟩
  · intro hnothing
    rw [hread]
    split
    · next hm => rw [hm, hfirst, recycled_zero]
    · next hm =>
      have hqueue := hnothing.resolve_left hm
      rw [hqueue, drain, Option.map_some, ← hqueue]
      rfl
  · intro hm hfits
    obtain ⟨n, b', hdrain, hrest⟩ := drain_refilled (hb.recycled m).toShaped hfits
    exact ⟨n, b', by rw [hread, if_neg hm.ne', hdrain, Option.map_some], hrest⟩

end

section Ieee

attribute [local instance] Hasher.ieee

/-- One slot, ready, and a record waiting in the queue: after the call the slot that was read
is not empty but reserved. -/
theorem read_reserves_again :
    let b := { blank 1 256 1000 100 false with
      slots := [⟨.ready, 0⟩], prodSeq := ⟨1, 0⟩, overflowQueue := [Record.new [7] 0 0] }
    b.Laid ∧ b.HeadersFit ∧ IsGreatest { m | m ≤ b.capacity ∧ ∀ i < m, b.ReadyAt i } 1 ∧
      (b.read.map fun res => res.2.slots) = some [⟨.reserved, 1⟩] := by
  intro b
  refine ⟨⟨⟨rfl, rfl, rfl, by decide, by decide⟩, ⟨0, rfl⟩, by decide +kernel⟩, ?_,
    ⟨⟨le_rfl, ?_⟩, fun m hm => hm.1⟩, by decide +kernel⟩
  · intro slotIdx hlt
    obtain rfl : slotIdx = 0 := Nat.lt_one_iff.mp hlt
    decide +kernel
  · intro i hi
    obtain rfl : i = 0 := Nat.lt_one_iff.mp hi
    exact ⟨⟨.ready, 0⟩, by decide, rfl, by decide⟩

/-- Two ready slots, the sequence numbers on both sides of the point where they wrap, and three
records waiting: the drain has room for two of them. -/
theorem read_takes_two :
    let record := fun tag => Record.new [7] tag 0
    let b := { blank 2 256 1000 100 false with
      slots := [⟨.ready, 0⟩, ⟨.ready, 2 ^ 64 - 1⟩], consSeq := ⟨2 ^ 64 - 1, 1⟩,
      prodSeq := ⟨1, 1⟩, overflowQueue := [record 1, record 2, record 3] }
    ∃ m, IsGreatest { m | m ≤ b.capacity ∧ ∀ i < m, b.ReadyAt i } m ∧
      ∃ n b', b.read = some (b.runRecords m, b') ∧ (b.recycled m).Refilled n b' ∧
        n = 2 ∧ b'.overflowQueue = [record 3] := by
  intro record b
  have hb : b.Laid :=
    ⟨⟨rfl, rfl, rfl, by decide, by decide⟩, ⟨1, rfl⟩, by decide +kernel⟩
  have hheaders : b.HeadersFit := by
    intro slotIdx hlt
    have htwo : slotIdx < 2 := hlt
    interval_cases slotIdx <;> decide +kernel
  have hready : ∀ i < 2, b.ReadyAt i := by
    intro i hi
    interval_cases i
    · exact ⟨⟨.ready, 2 ^ 64 - 1⟩, by decide +kernel, rfl, by decide +kernel⟩
    · exact ⟨⟨.ready, 0⟩, by decide +kernel, rfl, by decide +kernel⟩
  have hqueue : (b.read.map fun res => res.2.overflowQueue) = some [record 3] := by
    decide +kernel
  obtain ⟨m, hm, -, hdrained⟩ := read_takes_run b hb hheaders
  have hpos : 0 < m := lt_of_lt_of_le (by decide) (hm.2 ⟨le_rfl, hready⟩)
  obtain ⟨n, b', hread, hrefilled, -, hrest, -⟩ := hdrained hpos (by decide)
  rw [hread, Option.map_some, Option.some.injEq] at hqueue
  have hn : [record 1, record 2, record 3].drop n = [record 3] := hrest.symm.trans hqueue
  have hlength := congrArg List.length hn
  simp only [List.length_drop, List.length_cons, List.length_nil] at hlength
  exact ⟨m, hm, n, b', hread, hrefilled, by omega, hqueue⟩

end Ieee

end VolatileRingBuffer

end Sherlog
