import Sherlog.Memory.Volatile

/-!
# Is the volatile buffer a queue?

What `reserve` hands out acts on an empty clone of the buffer, so what is written and
committed through it never reaches the buffer: the slot taken there stays reserved.

* `VolatileRingBuffer.Shaped` — the shape `new` gives a buffer; `Quiet` — no slot of it is
  ready.
* `write_of_empty`, `write_of_taken` — on a buffer of that shape, `write` either takes a
  slot and says it has written the record, or puts it into the overflow queue.
* `read_of_quiet` — `read` finds nothing; `History.run_quiet` — nor does it in any run.
* `lossless_iff` — so the buffer keeps every record it was given exactly when it was given
  none.
-/

namespace Sherlog

open LittleEndian Window

namespace VolatileRingBuffer

/-! ## The shape of a buffer -/

/-- The shape `new` gives a buffer, which no operation changes. -/
structure Shaped (b : VolatileRingBuffer) : Prop where
  length_slots : b.slots.length = b.capacity
  prodMask : b.prodSeq.mask.toNat + 1 = b.capacity
  consMask : b.consSeq.mask.toNat + 1 = b.capacity
  capacity_mul_lt : b.capacity * b.slotSize < 2 ^ 63
  maxSpins_pos : 0 < b.maxSpins

/-- No slot is ready. -/
def Quiet (b : VolatileRingBuffer) : Prop := ∀ slot ∈ b.slots, slot.state ≠ .ready

theorem physicalIndex_le (index : AtomicIndex) (seq : UInt64) :
    index.physicalIndex seq ≤ index.mask.toNat := by
  rw [AtomicIndex.physicalIndex, UInt64.toNat_and]
  exact Nat.and_le_right

variable {b : VolatileRingBuffer}

theorem Shaped.prod_lt (hb : b.Shaped) (seq : UInt64) :
    b.prodSeq.physicalIndex seq < b.capacity := by
  have := physicalIndex_le b.prodSeq seq
  have := hb.prodMask
  omega

theorem Shaped.cons_lt (hb : b.Shaped) (seq : UInt64) :
    b.consSeq.physicalIndex seq < b.capacity := by
  have := physicalIndex_le b.consSeq seq
  have := hb.consMask
  omega

/-- Where the sequence numbers point there are slots. -/
theorem Shaped.exists_slot (hb : b.Shaped) {slotIdx : Nat} (h : slotIdx < b.capacity) :
    ∃ slot ∈ b.slots, b.slots[slotIdx]? = some slot := by
  have hlt : slotIdx < b.slots.length := hb.length_slots ▸ h
  exact ⟨_, List.getElem_mem hlt, List.getElem?_eq_getElem hlt⟩

theorem shaped_blank {capacity slotSize : Nat} (hpos : 0 < capacity)
    (hlt : capacity * slotSize < 2 ^ 63) (hslot : 0 < slotSize) (maxOverflow : Nat)
    {maxSpins : Nat} (hspins : 0 < maxSpins) (signal : Bool) :
    (blank capacity slotSize maxOverflow maxSpins signal).Shaped := by
  have hle : capacity ≤ capacity * slotSize := Nat.le_mul_of_pos_right _ hslot
  have hmask : (UInt64.ofNat (capacity - 1)).toNat + 1 = capacity := by
    rw [UInt64.toNat_ofNat', Nat.mod_eq_of_lt (by omega)]
    omega
  exact
    { length_slots := List.length_replicate
      prodMask := hmask
      consMask := hmask
      capacity_mul_lt := hlt
      maxSpins_pos := hspins }

theorem quiet_blank (capacity slotSize maxOverflow maxSpins : Nat) (signal : Bool) :
    (blank capacity slotSize maxOverflow maxSpins signal).Quiet := by
  intro slot hslot
  obtain rfl := List.eq_of_mem_replicate hslot
  exact SlotState.noConfusion

/-- What `new` makes. -/
theorem new_eq_some {capacity : Nat} (h : new capacity = some b) :
    b = blank (Nat.nextPowerOfTwo capacity) 256 1000 100 false ∧ b.Shaped := by
  simp only [new] at h
  split at h
  · cases h
  · next hle =>
    obtain rfl := Option.some.inj h
    have hpos : 0 < Nat.nextPowerOfTwo capacity := Nat.pos_of_isPowerOfTwo
      (Nat.isPowerOfTwo_nextPowerOfTwo capacity)
    refine ⟨rfl, shaped_blank hpos ?_ (by omega) 1000 (by omega) false⟩
    unfold isizeMax at hle
    omega

/-- A new buffer has only empty slots and nothing in its queue. -/
theorem quiet_of_new {capacity : Nat} (h : new capacity = some b) :
    b.Quiet ∧ b.overflowQueue = [] ∧ ∀ slot ∈ b.slots, slot.state = .empty := by
  obtain ⟨rfl, -⟩ := new_eq_some h
  refine ⟨quiet_blank _ _ _ _ _, rfl, ?_⟩
  intro slot hslot
  rw [List.eq_of_mem_replicate hslot]
  rfl

/-! ## Writing -/

/-- The buffer after `reserve` has taken the next slot. -/
def taken (b : VolatileRingBuffer) : VolatileRingBuffer :=
  ({ b with prodSeq := { b.prodSeq with value := b.prodSeq.value + 1 } }).setSlot
    (b.prodSeq.physicalIndex b.prodSeq.value) ⟨.reserved, b.prodSeq.value⟩

/-- On an empty slot `reserve` succeeds at once. -/
theorem reserveLoop_of_empty {slot : Slot}
    (hslot : b.slots[b.prodSeq.physicalIndex b.prodSeq.value]? = some slot)
    (hstate : slot.state = .empty) (totalSize : Nat) (block : Bool) (left spins : Nat) :
    b.reserveLoop totalSize block (left + 1) spins =
      some (some { slotIdx := b.prodSeq.physicalIndex b.prodSeq.value, seq := b.prodSeq.value,
                   size := totalSize, buffer := b.clone, committed := false }, b.taken) := by
  simp only [reserveLoop, hslot, Option.bind_some, Slot.tryTransition, if_pos hstate]
  rfl

/-- On any other it spins, or gives up. -/
theorem reserveLoop_of_not_empty {slot : Slot}
    (hslot : b.slots[b.prodSeq.physicalIndex b.prodSeq.value]? = some slot)
    (hstate : slot.state ≠ .empty) (totalSize : Nat) (block : Bool) (left spins : Nat) :
    b.reserveLoop totalSize block (left + 1) spins =
      if block = false ∧ 10 < spins + 1 then some (none, b)
      else b.reserveLoop totalSize block left (spins + 1) := by
  simp only [reserveLoop, hslot, Option.bind_some, Slot.tryTransition, if_neg hstate]

theorem reserveLoop_of_taken {slot : Slot}
    (hslot : b.slots[b.prodSeq.physicalIndex b.prodSeq.value]? = some slot)
    (hstate : slot.state ≠ .empty) (totalSize : Nat) {left : Nat} :
    ∀ spins, b.reserveLoop totalSize false left spins = some (none, b) := by
  induction left with
  | zero => exact fun _ => rfl
  | succ left ih =>
    intro spins
    rw [reserveLoop_of_not_empty hslot hstate, ih, ite_self]

/-- `reserve` on an empty slot hands out an empty clone of the buffer. -/
theorem reserve_of_empty (hb : b.Shaped) {slot : Slot} {size : Nat}
    (hsize : size + RecordHeader.SIZE ≤ b.slotSize) (hlt : b.slotSize < 2 ^ 64)
    (hslot : b.slots[b.prodSeq.physicalIndex b.prodSeq.value]? = some slot)
    (hstate : slot.state = .empty) :
    b.reserve size false = some (some
      { slotIdx := b.prodSeq.physicalIndex b.prodSeq.value, seq := b.prodSeq.value,
        size := size + RecordHeader.SIZE, buffer := b.clone, committed := false }, b.taken) := by
  have hspins := hb.maxSpins_pos
  obtain ⟨n, hn⟩ : ∃ n, b.maxSpins = n + 1 := ⟨b.maxSpins - 1, by omega⟩
  have hwrap : wrapping (size + RecordHeader.SIZE) = size + RecordHeader.SIZE :=
    wrapping_of_lt (by omega)
  simp only [reserve, hwrap]
  rw [if_neg (by omega), hn, reserveLoop_of_empty hslot hstate]

theorem reserve_of_taken {slot : Slot} {size : Nat}
    (hsize : size + RecordHeader.SIZE ≤ b.slotSize) (hlt : b.slotSize < 2 ^ 64)
    (hslot : b.slots[b.prodSeq.physicalIndex b.prodSeq.value]? = some slot)
    (hstate : slot.state ≠ .empty) : b.reserve size false = some (none, b) := by
  have hwrap : wrapping (size + RecordHeader.SIZE) = size + RecordHeader.SIZE :=
    wrapping_of_lt (by omega)
  simp only [reserve, hwrap]
  rw [if_neg (by omega), reserveLoop_of_taken hslot hstate]

@[simp] theorem length_header_toBytes (h : RecordHeader) : h.toBytes.length = 20 := by
  rw [RecordHeader.toBytes, length_packFields]
  rfl

/-- **Filling a reservation changes nothing**: the slot of the clone is not reserved, so the
commit fails there, and nobody is notified. -/
theorem fill_clone (b : VolatileRingBuffer) {c : VolatileRingBuffer} {slotIdx : Nat}
    (hidx : slotIdx < c.capacity) (hlt : c.capacity * c.slotSize < 2 ^ 63) (seq : UInt64)
    {record : Record} (hsize : record.data.length + RecordHeader.SIZE ≤ c.slotSize) :
    b.fill { slotIdx, seq, size := record.data.length + RecordHeader.SIZE, buffer := c.clone,
             committed := false } record = some b := by
  have hspace : slotIdx * c.slotSize + c.slotSize ≤ c.capacity * c.slotSize := by
    rw [← Nat.succ_mul]
    exact Nat.mul_le_mul_right _ hidx
  have hroom : wrapping (record.data.length + RecordHeader.SIZE + 2 ^ 64 - RecordHeader.SIZE) =
      record.data.length := by
    rw [Nat.add_right_comm, Nat.add_sub_cancel, wrapping, Nat.add_mod_right,
      Nat.mod_eq_of_lt (by omega)]
  have hslot : c.clone.slots[slotIdx]? = some Slot.new := by
    simp [clone, blank, hidx]
  have hdata : c.clone.data.length = c.capacity * c.slotSize := List.length_replicate
  have hsz : c.clone.slotSize = c.slotSize := rfl
  have hhead : slotIdx * c.slotSize + record.header.toBytes.length ≤ c.clone.data.length := by
    rw [hdata, length_header_toBytes]
    simp only [RecordHeader.SIZE] at hsize
    omega
  have hcopy := copyAll_cons_of_fits
    [(slotIdx * c.slotSize + RecordHeader.SIZE, record.data)] hhead
  rw [copyAll_cons_of_fits [] (by rw [length_overwrite hhead, hdata]; omega)] at hcopy
  simp only [fill, Reservation.write, hroom, lt_irrefl, if_false, hsz, hcopy, copyAll_nil,
    Option.map_some, Option.bind_some, Reservation.commit, Bool.false_eq_true, hslot,
    Slot.tryTransition, Slot.new, reduceCtorEq, Reservation.drop, Bool.or_false]

/-- **A write with a free slot says that it has written the record**, and has only taken the
slot. -/
theorem write_of_empty (hb : b.Shaped) {slot : Slot} {record : Record}
    (hsize : record.data.length + RecordHeader.SIZE ≤ b.slotSize)
    (hslot : b.slots[b.prodSeq.physicalIndex b.prodSeq.value]? = some slot)
    (hstate : slot.state = .empty) : b.write record = some (true, b.taken) := by
  have hlt := hb.capacity_mul_lt
  have hidx := hb.prod_lt b.prodSeq.value
  have hle : b.slotSize ≤ b.capacity * b.slotSize := Nat.le_mul_of_pos_left _ (by omega)
  rw [write, reserve_of_empty hb hsize (by omega) hslot hstate, Option.bind_some]
  simp only [fill_clone b.taken hidx hlt b.prodSeq.value hsize, Option.map_some]

/-- A write without a free slot goes to the overflow queue. -/
theorem write_of_taken (hb : b.Shaped) {slot : Slot} {record : Record}
    (hsize : record.data.length + RecordHeader.SIZE ≤ b.slotSize)
    (hslot : b.slots[b.prodSeq.physicalIndex b.prodSeq.value]? = some slot)
    (hstate : slot.state ≠ .empty) : b.write record = some (false, b.enqueue record) := by
  have hlt := hb.capacity_mul_lt
  have hpos := hb.prodMask
  have hle : b.slotSize ≤ b.capacity * b.slotSize := Nat.le_mul_of_pos_left _ (by omega)
  rw [write, reserve_of_taken hsize (by omega) hslot hstate]
  rfl

theorem Shaped.taken (hb : b.Shaped) : b.taken.Shaped where
  length_slots := by
    rw [VolatileRingBuffer.taken, setSlot]
    simp only [List.length_set]
    exact hb.length_slots
  prodMask := hb.prodMask
  consMask := hb.consMask
  capacity_mul_lt := hb.capacity_mul_lt
  maxSpins_pos := hb.maxSpins_pos

theorem Quiet.taken (hb : b.Quiet) : b.taken.Quiet := by
  intro slot hslot
  rcases List.mem_or_eq_of_mem_set hslot with hold | rfl
  · exact hb slot hold
  · exact SlotState.noConfusion

/-- Queueing leaves the slots alone. -/
theorem enqueue_eq (b : VolatileRingBuffer) (record : Record) :
    ∃ queue, b.enqueue record = { b with overflowQueue := queue } := by
  unfold enqueue
  split
  · exact ⟨_, rfl⟩
  · split
    · exact ⟨b.overflowQueue, rfl⟩
    · exact ⟨_, rfl⟩

/-- **One write** keeps a quiet buffer quiet. -/
theorem write_quiet (hb : b.Shaped) (hq : b.Quiet) {record : Record}
    (hsize : record.data.length + RecordHeader.SIZE ≤ b.slotSize) :
    ∃ ok b', b.write record = some (ok, b') ∧ b'.Shaped ∧ b'.Quiet ∧
      b'.slotSize = b.slotSize := by
  obtain ⟨slot, -, hslot⟩ := hb.exists_slot (hb.prod_lt b.prodSeq.value)
  by_cases hstate : slot.state = .empty
  · exact ⟨true, b.taken, write_of_empty hb hsize hslot hstate, hb.taken, hq.taken, rfl⟩
  · refine ⟨false, b.enqueue record, write_of_taken hb hsize hslot hstate, ?_⟩
    obtain ⟨queue, hqueue⟩ := b.enqueue_eq record
    rw [hqueue]
    exact ⟨⟨hb.length_slots, hb.prodMask, hb.consMask, hb.capacity_mul_lt, hb.maxSpins_pos⟩,
      hq, rfl⟩

/-! ## Reading -/

variable [Hasher]

/-- **A read of a quiet buffer finds nothing.** -/
theorem read_of_quiet (hb : b.Shaped) (hq : b.Quiet) : b.read = some ([], b) := by
  have hpos := hb.consMask
  obtain ⟨n, hn⟩ : ∃ n, b.capacity = n + 1 := ⟨b.capacity - 1, by omega⟩
  obtain ⟨slot, hmem, hslot⟩ := hb.exists_slot (hb.cons_lt b.consSeq.value)
  have hnot : ¬ (slot.state = .ready ∧ slot.seq = b.consSeq.value) := fun h => hq slot hmem h.1
  rw [read, hn]
  simp only [readLoop, hslot, Option.bind_some, if_neg hnot]
  rfl

/-- The records held in slots, in sequence order. -/
def held (b : VolatileRingBuffer) : List Record :=
  (List.range b.capacity).filterMap fun i =>
    let seq := b.consSeq.value + UInt64.ofNat i
    let slotIdx := b.consSeq.physicalIndex seq
    (b.slots[slotIdx]?).bind fun slot =>
      if slot.state = .ready ∧ slot.seq = seq then b.slotRecord slotIdx else none

omit [Hasher] in
theorem held_of_quiet (hq : b.Quiet) : b.held = [] := by
  rw [held, List.filterMap_eq_nil_iff]
  intro i _
  simp only [Option.bind_eq_none_iff]
  intro slot hslot
  rw [if_neg]
  exact fun h => hq slot (List.mem_of_getElem? hslot) h.1

end VolatileRingBuffer

/-! ## Runs -/

/-- A call on a volatile buffer; a write of the record that `Record::new` makes at some
time. -/
inductive Use where
  | write (data : List UInt8) (tag : UInt32) (now : UInt64)
  | read
deriving DecidableEq, Repr

/-- A buffer and what has passed through it. -/
structure History where
  /-- The buffer. -/
  buf : VolatileRingBuffer
  /-- What the reads have returned. -/
  returned : List Record
  /-- The records passed to `write`. -/
  written : List Record
  /-- Those for which `write` returned true. -/
  direct : List Record
  /-- The places in `written` of the records in the overflow queue. -/
  queued : List Nat
  /-- The places in `written` of the records evicted from the front of a full queue. -/
  evicted : List Nat

namespace History

open VolatileRingBuffer

/-- A buffer nothing has passed through. -/
def start (b : VolatileRingBuffer) : History :=
  { buf := b, returned := [], written := [], direct := [], queued := [], evicted := [] }

/-- The records passed to `write`, without those evicted. -/
def kept (s : History) : List Record :=
  (s.written.zipIdx.filter fun x => decide (x.2 ∉ s.evicted)).map Prod.fst

variable [Hasher]

/-- After a write that returned `ok` and left the buffer `buf`. -/
def wrote (s : History) (record : Record) (ok : Bool) (buf : VolatileRingBuffer) : History :=
  let place := s.written.length
  let s' := { s with buf, written := s.written ++ [record] }
  if ok then { s' with direct := s.direct ++ [record] }
  else if s.buf.overflowQueue.length < s.buf.maxOverflow then
    { s' with queued := s.queued ++ [place] }
  else
    match s.queued with
    | [] => s'
    | oldest :: queue =>
      { s' with queued := queue ++ [place], evicted := s.evicted ++ [oldest] }

/-- After a read. -/
def read (s : History) (records : List Record) (buf : VolatileRingBuffer) : History :=
  { s with
    buf
    returned := s.returned ++ records
    queued := s.queued.drop (s.queued.length - buf.overflowQueue.length) }

/-- One call. -/
def step (s : History) : Use → Option History
  | .write data tag now =>
    let record := Record.new data tag now
    (s.buf.write record).map fun res => s.wrote record res.1 res.2
  | .read => s.buf.read.map fun res => s.read res.1 res.2

/-- A list of calls. -/
def run (s : History) (uses : List Use) : Option History := uses.foldlM step s

/-- No record is lost, duplicated or reordered: what has been returned, what the slots hold
and what is queued are the records written and not evicted; and a record for which `write`
returned true is returned by the next read at the latest. -/
def Lossless (s : History) : Prop :=
  s.returned ++ s.buf.held ++ s.buf.overflowQueue = s.kept ∧
    ∀ r ∈ s.direct, ∃ records b', s.buf.read = some (records, b') ∧ r ∈ s.returned ++ records

/-- The payloads of a run fit a slot. -/
def Fits (slotSize : Nat) (uses : List Use) : Prop :=
  ∀ data tag now, .write data tag now ∈ uses → data.length ≤ slotSize - RecordHeader.SIZE

omit [Hasher] in
theorem Fits.tail {slotSize : Nat} {use : Use} {uses : List Use} (h : Fits slotSize (use :: uses)) :
    Fits slotSize uses :=
  fun data tag now hmem => h data tag now (List.mem_cons_of_mem _ hmem)

omit [Hasher] in
theorem wrote_eq (s : History) (record : Record) (ok : Bool) (buf : VolatileRingBuffer) :
    (s.wrote record ok buf).buf = buf ∧ (s.wrote record ok buf).returned = s.returned := by
  unfold wrote
  split
  · exact ⟨rfl, rfl⟩
  · split
    · exact ⟨rfl, rfl⟩
    · split <;> exact ⟨rfl, rfl⟩

/-- **In no run does a read return a record**, as long as the payloads fit: every call comes
back, and the buffer stays quiet. -/
theorem run_quiet {uses : List Use} : ∀ {s : History}, s.buf.Shaped → s.buf.Quiet →
    RecordHeader.SIZE ≤ s.buf.slotSize → Fits s.buf.slotSize uses →
      ∃ s', s.run uses = some s' ∧ s'.buf.Quiet ∧ s'.returned = s.returned := by
  induction uses with
  | nil => exact fun _ hq _ _ => ⟨_, rfl, hq, rfl⟩
  | cons use uses ih =>
    intro s hb hq hslot hfits
    obtain ⟨s₁, hstep, hb', hq', hsame, hreturned⟩ : ∃ s₁, s.step use = some s₁ ∧
        s₁.buf.Shaped ∧ s₁.buf.Quiet ∧ s₁.buf.slotSize = s.buf.slotSize ∧
          s₁.returned = s.returned := by
      cases use with
      | write data tag now =>
        have hdata := hfits data tag now (List.mem_cons_self ..)
        have hsize : (Record.new data tag now).data.length + RecordHeader.SIZE ≤
            s.buf.slotSize := by
          show data.length + RecordHeader.SIZE ≤ s.buf.slotSize
          omega
        obtain ⟨ok, b', hwrite, hb', hq', hsame⟩ := write_quiet hb hq hsize
        obtain ⟨hbuf, hreturned⟩ := s.wrote_eq (Record.new data tag now) ok b'
        refine ⟨s.wrote (Record.new data tag now) ok b', by rw [step, hwrite]; rfl, ?_⟩
        rw [hbuf]
        exact ⟨hb', hq', hsame, hreturned⟩
      | read =>
        exact ⟨s.read [] s.buf, by rw [step, read_of_quiet hb hq]; rfl, hb, hq, rfl,
          List.append_nil _⟩
    rw [← hsame] at hslot
    obtain ⟨s', hrun, hquiet, hsame'⟩ := ih hb' hq' hslot (by rw [hsame]; exact hfits.tail)
    refine ⟨s', ?_, hquiet, hsame'.trans hreturned⟩
    rw [run, List.foldlM_cons, hstep]
    exact hrun

/-- The first write of a run takes a slot and leaves nothing behind. -/
theorem step_write_start {capacity : Nat} {b : VolatileRingBuffer} (hnew : new capacity = some b)
    {data : List UInt8} (hdata : data.length ≤ b.slotSize - RecordHeader.SIZE) (tag : UInt32)
    (now : UInt64) :
    ∃ s, (start b).step (.write data tag now) = some s ∧ s.returned = [] ∧ s.buf.held = [] ∧
      s.buf.overflowQueue = [] ∧ s.kept = [Record.new data tag now] := by
  obtain ⟨hblank, hb⟩ := new_eq_some hnew
  obtain ⟨hq, hqueue, hempty⟩ := quiet_of_new hnew
  have hsize : (Record.new data tag now).data.length + RecordHeader.SIZE ≤ b.slotSize := by
    have hslotSize : b.slotSize = 256 := by rw [hblank]; rfl
    rw [hslotSize] at hdata ⊢
    show data.length + 24 ≤ 256
    simp only [RecordHeader.SIZE] at hdata
    omega
  obtain ⟨slot, hmem, hslot⟩ := hb.exists_slot (hb.prod_lt b.prodSeq.value)
  refine ⟨(start b).wrote (Record.new data tag now) true b.taken, ?_, rfl,
    held_of_quiet hq.taken, hqueue, ?_⟩
  · simp only [step, start, write_of_empty hb hsize hslot (hempty slot hmem), Option.map_some]
  · simp [start, wrote, kept]

/-- A run that begins with a write has lost its record after that write. -/
theorem not_lossless_of_write {capacity : Nat} {b : VolatileRingBuffer}
    (hnew : new capacity = some b) {data : List UInt8}
    (hdata : data.length ≤ b.slotSize - RecordHeader.SIZE) {tag : UInt32} {now : UInt64}
    {s : History} (hrun : (start b).run [.write data tag now] = some s) : ¬ s.Lossless := by
  obtain ⟨s', hstep, hreturned, hheld, hqueue, hkept⟩ := step_write_start hnew hdata tag now
  rw [run, List.foldlM_cons, hstep] at hrun
  obtain rfl := Option.some.inj hrun
  intro hlossless
  have heq := hlossless.1
  rw [hreturned, hheld, hqueue, hkept] at heq
  cases heq

theorem lossless_start {capacity : Nat} {b : VolatileRingBuffer} (hnew : new capacity = some b) :
    (start b).Lossless := by
  obtain ⟨hq, hqueue, -⟩ := quiet_of_new hnew
  refine ⟨?_, by rintro r ⟨⟩⟩
  simp [start, kept, held_of_quiet hq, hqueue]

/-- A read leaves a new buffer as it is. -/
theorem step_read_start {capacity : Nat} {b : VolatileRingBuffer} (hnew : new capacity = some b) :
    (start b).step .read = some (start b) := by
  have hread := read_of_quiet (new_eq_some hnew).2 (quiet_of_new hnew).1
  simp [step, start, hread, History.read]

theorem run_reads_start {capacity : Nat} {b : VolatileRingBuffer} (hnew : new capacity = some b)
    {uses : List Use} (h : ∀ use ∈ uses, use = .read) : (start b).run uses = some (start b) := by
  induction uses with
  | nil => rfl
  | cons use uses ih =>
    obtain rfl := h use (List.mem_cons_self ..)
    rw [run, List.foldlM_cons, step_read_start hnew]
    exact ih fun use hmem => h use (List.mem_cons_of_mem _ hmem)

/-- **The buffer loses no record exactly when it is given none**: for every capacity that can
be had and every run of writes and reads whose payloads fit a slot. -/
theorem lossless_iff (capacity : Nat) (b : VolatileRingBuffer) (hnew : new capacity = some b)
    (uses : List Use) (hfits : Fits b.slotSize uses) :
    (∀ n, ∃ s, (start b).run (uses.take n) = some s ∧ s.Lossless) ↔
      ∀ data tag now, .write data tag now ∉ uses := by
  constructor
  · intro hall
    induction uses with
    | nil => simp
    | cons use uses ih =>
      cases use with
      | write data tag now =>
        obtain ⟨s, hrun, hlossless⟩ := hall 1
        exact absurd hlossless
          (not_lossless_of_write hnew (hfits data tag now (List.mem_cons_self ..)) hrun)
      | read =>
        -- the read changes nothing, so the rest of the run starts from a new buffer too
        have hrest := ih hfits.tail fun n => by
          obtain ⟨s, hrun, hlossless⟩ := hall (n + 1)
          rw [List.take_succ_cons, run, List.foldlM_cons, step_read_start hnew] at hrun
          exact ⟨s, hrun, hlossless⟩
        intro data tag now hmem
        rcases List.mem_cons.mp hmem with heq | hmem
        · cases heq
        · exact hrest data tag now hmem
  · intro hnone n
    refine ⟨start b, run_reads_start hnew ?_, lossless_start hnew⟩
    intro use huse
    cases use with
    | write data tag now => exact absurd (List.mem_of_mem_take huse) (hnone data tag now)
    | read => rfl

end History

section Ieee

attribute [local instance] Hasher.ieee

namespace History

/-- One record written to a buffer of four slots: the write returns true, and afterwards the
record is nowhere, neither returned by a read nor in a slot nor in the queue. -/
theorem loses_first :
    ∃ b s, VolatileRingBuffer.new 4 = some b ∧
      (start b).run [.write [1, 2, 3] 7 0, .read] = some s ∧
      s.direct = [Record.new [1, 2, 3] 7 0] ∧ s.returned = [] ∧ ¬ s.Lossless := by
  have hsome : (VolatileRingBuffer.new 4).isSome = true := by decide +kernel
  obtain ⟨b, hnew⟩ := Option.isSome_iff_exists.mp hsome
  have hrun : ((VolatileRingBuffer.new 4).bind fun b =>
      (start b).run [.write [1, 2, 3] 7 0, .read]).map
        (fun s => (s.direct, s.returned, s.buf.held, s.buf.overflowQueue, s.kept)) =
      some ([Record.new [1, 2, 3] 7 0], [], [], [], [Record.new [1, 2, 3] 7 0]) := by
    decide +kernel
  rw [hnew, Option.bind_some] at hrun
  obtain ⟨s, hs, hparts⟩ := Option.map_eq_some_iff.mp hrun
  simp only [Prod.mk.injEq] at hparts
  obtain ⟨hdirect, hreturned, hheld, hqueue, hkept⟩ := hparts
  refine ⟨b, s, hnew, hs, hdirect, hreturned, fun hlossless => ?_⟩
  have heq := hlossless.1
  rw [hreturned, hheld, hqueue, hkept] at heq
  cases heq

/-- Reading a buffer nobody has written to loses nothing. -/
theorem lossless_iff_reads :
    ∃ b, VolatileRingBuffer.new 4 = some b ∧
      ∀ n, ∃ s, (start b).run ([.read, .read].take n) = some s ∧ s.Lossless := by
  have hsome : (VolatileRingBuffer.new 4).isSome = true := by decide +kernel
  obtain ⟨b, hnew⟩ := Option.isSome_iff_exists.mp hsome
  exact ⟨b, hnew, (lossless_iff 4 b hnew [.read, .read] (by simp [Fits])).mpr (by simp)⟩

end History

end Ieee

end Sherlog
