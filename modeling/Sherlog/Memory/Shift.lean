import Sherlog.Memory.Reservations

/-!
# Sequence numbers may wrap

Adding a multiple of the capacity to every sequence number of a buffer, modulo `2 ^ 64`,
leaves each of them at its slot.  Nothing else is ever asked of a sequence number than its
slot, its successor and whether it equals another, so no call can tell the difference.

* `VolatileRingBuffer.shift`, `Client.shift` — the shift, of a buffer and of the
  reservations held on it.
* `reserve_shift`, `write_shift`, `read_shift` — the shift commutes with each call of the
  buffer; `Client.step_shift` — and with every call of a client.
* `Client.run_shift` — and so with every run: the answers are the same.
-/

namespace Sherlog

/-- Another sequence number. -/
def Slot.shift (d : UInt64) (slot : Slot) : Slot := { slot with seq := slot.seq + d }

/-- Another sequence number. -/
def AtomicIndex.shift (d : UInt64) (index : AtomicIndex) : AtomicIndex :=
  { index with value := index.value + d }

/-- Another sequence number; the buffer it acts on has its own. -/
def Reservation.shift (d : UInt64) (r : Reservation) : Reservation := { r with seq := r.seq + d }

/-- Every sequence number of the buffer shifted. -/
def VolatileRingBuffer.shift (d : UInt64) (b : VolatileRingBuffer) : VolatileRingBuffer :=
  { b with slots := b.slots.map (Slot.shift d), prodSeq := b.prodSeq.shift d,
           consSeq := b.consSeq.shift d }

/-- And those of the reservations held. -/
def Client.shift (d : UInt64) (s : Client) : Client :=
  ⟨s.buf.shift d, s.held.map (Option.map (Reservation.shift d))⟩

namespace VolatileRingBuffer

/-- The indices mask to the capacity, a power of two, as `AtomicIndex::new` makes them. -/
structure Masked (b : VolatileRingBuffer) : Prop where
  capacity_eq : ∃ n, b.capacity = 2 ^ n
  prodMask : b.prodSeq.mask.toNat + 1 = b.capacity
  consMask : b.consSeq.mask.toNat + 1 = b.capacity

/-- A shift that no index sees. -/
structure Turns (b : VolatileRingBuffer) (d : UInt64) : Prop where
  prod_eq : ∀ seq, b.prodSeq.physicalIndex (seq + d) = b.prodSeq.physicalIndex seq
  cons_eq : ∀ seq, b.consSeq.physicalIndex (seq + d) = b.consSeq.physicalIndex seq

variable {b b' : VolatileRingBuffer} {d : UInt64}

/-- **A multiple of the capacity leads back to the same slot.** -/
theorem Masked.turns (hb : b.Masked) (k : Nat) : b.Turns (UInt64.ofNat (k * b.capacity)) where
  prod_eq := fun seq => by
    rw [AtomicIndex.physicalIndex_add hb.capacity_eq hb.prodMask, Ring.slot_turns,
      AtomicIndex.physicalIndex_eq hb.capacity_eq hb.prodMask]
  cons_eq := fun seq => by
    rw [AtomicIndex.physicalIndex_add hb.capacity_eq hb.consMask, Ring.slot_turns,
      AtomicIndex.physicalIndex_eq hb.capacity_eq hb.consMask]

theorem Turns.of_kept (h : b.Turns d) (hkept : b.Kept b') : b'.Turns d where
  prod_eq := by
    intro seq
    simp only [AtomicIndex.physicalIndex, hkept.prodMask]
    exact h.prod_eq seq
  cons_eq := by
    intro seq
    simp only [AtomicIndex.physicalIndex, hkept.consMask]
    exact h.cons_eq seq

theorem Turns.setSlot (h : b.Turns d) (slotIdx : Nat) (slot : Slot) :
    (b.setSlot slotIdx slot).Turns d := ⟨h.prod_eq, h.cons_eq⟩

/-! ## The parts of a call -/

@[simp] theorem slots_shift (b : VolatileRingBuffer) (d : UInt64) (slotIdx : Nat) :
    (b.shift d).slots[slotIdx]? = b.slots[slotIdx]?.map (Slot.shift d) :=
  List.getElem?_map ..

theorem setSlot_shift (b : VolatileRingBuffer) (slotIdx : Nat) (slot : Slot) :
    (b.shift d).setSlot slotIdx (slot.shift d) = (b.setSlot slotIdx slot).shift d := by
  simp only [setSlot, shift, List.map_set]

theorem succ_shift (seq : UInt64) : seq + d + 1 = seq + 1 + d := by
  rw [UInt64.add_assoc, UInt64.add_comm d 1, ← UInt64.add_assoc]

theorem taken_shift (hd : b.Turns d) : (b.shift d).taken = b.taken.shift d := by
  have hidx : (b.shift d).prodSeq.physicalIndex (b.shift d).prodSeq.value =
      b.prodSeq.physicalIndex b.prodSeq.value := hd.prod_eq b.prodSeq.value
  rw [taken, taken, hidx, ← setSlot_shift]
  show setSlot { b.shift d with
    prodSeq := { (b.shift d).prodSeq with value := b.prodSeq.value + d + 1 } } _ _ = _
  rw [succ_shift]
  rfl

/-! ## Reserve and write -/

theorem reserveLoop_shift (hd : b.Turns d) (totalSize : Nat) (block : Bool) {left : Nat} :
    ∀ spins, (b.shift d).reserveLoop totalSize block left spins =
      (b.reserveLoop totalSize block left spins).map fun (res, b') =>
        (res.map (Reservation.shift d), b'.shift d) := by
  induction left with
  | zero =>
    intro spins
    simp only [reserveLoop]
    split <;> rfl
  | succ left ih =>
    intro spins
    have hidx : (b.shift d).prodSeq.physicalIndex (b.shift d).prodSeq.value =
        b.prodSeq.physicalIndex b.prodSeq.value := hd.prod_eq b.prodSeq.value
    have hslots := b.slots_shift d (b.prodSeq.physicalIndex b.prodSeq.value)
    rcases hslot : b.slots[b.prodSeq.physicalIndex b.prodSeq.value]? with _ | slot
    · rw [hslot] at hslots
      simp only [reserveLoop, hidx, hslots, hslot]
      rfl
    · rw [hslot, Option.map_some, ← hidx] at hslots
      by_cases hstate : slot.state = .empty
      · rw [reserveLoop_of_empty hslot hstate, reserveLoop_of_empty hslots hstate,
          taken_shift hd, hidx]
        rfl
      · rw [reserveLoop_of_not_empty hslot hstate, reserveLoop_of_not_empty hslots hstate]
        split
        · rfl
        · exact ih (spins + 1)

theorem reserve_shift (hd : b.Turns d) (size : Nat) (block : Bool) :
    (b.shift d).reserve size block = (b.reserve size block).map fun (res, b') =>
      (res.map (Reservation.shift d), b'.shift d) := by
  simp only [reserve]
  by_cases h : b.slotSize < wrapping (size + RecordHeader.SIZE)
  · rw [if_pos h, if_pos (show (b.shift d).slotSize < _ from h)]
    rfl
  · rw [if_neg h, if_neg (show ¬ (b.shift d).slotSize < _ from h)]
    exact reserveLoop_shift hd _ block 0

end VolatileRingBuffer

namespace Reservation

variable {d : UInt64}

theorem write_shift (r : Reservation) (header : RecordHeader) (data : List UInt8) :
    (r.shift d).write header data = (r.write header data).map (Reservation.shift d) := by
  have hsize : (r.shift d).size = r.size := rfl
  have hbuffer : (r.shift d).buffer = r.buffer := rfl
  have hslotIdx : (r.shift d).slotIdx = r.slotIdx := rfl
  simp only [write, hsize, hbuffer, hslotIdx]
  by_cases h : wrapping (r.size + 2 ^ 64 - RecordHeader.SIZE) < data.length
  · simp only [if_pos h, Option.map_none]
  · simp only [if_neg h, Option.map_map]
    rfl

theorem drop_shift (r : Reservation) : (r.shift d).drop = r.drop := rfl

/-- Whether a commit notifies does not depend on the sequence number it stores. -/
theorem commit_shift (r : Reservation) :
    (r.shift d).commit.map Prod.snd = r.commit.map Prod.snd := by
  by_cases hcommitted : r.committed = true
  · have hcommitted' : (r.shift d).committed = true := hcommitted
    simp only [commit, if_pos hcommitted, if_pos hcommitted', drop_shift]
  · have hcommitted' : ¬ (r.shift d).committed = true := hcommitted
    simp only [commit, if_neg hcommitted, if_neg hcommitted']
    rcases hslot : r.buffer.slots[r.slotIdx]? with _ | slot
    · have hslot' : (r.shift d).buffer.slots[(r.shift d).slotIdx]? = none := hslot
      rw [hslot']
      rfl
    · have hslot' : (r.shift d).buffer.slots[(r.shift d).slotIdx]? = some slot := hslot
      rw [hslot', Option.bind_some, Option.bind_some]
      rcases slot.tryTransition .reserved .ready with _ | slot'
      · simp only [drop_shift]
      · simp only [drop, if_true, Option.map_some]

end Reservation

namespace VolatileRingBuffer

variable {b b' : VolatileRingBuffer} {d : UInt64}

theorem fill_shift (b : VolatileRingBuffer) (reservation : Reservation) (record : Record) :
    (b.shift d).fill (reservation.shift d) record =
      (b.fill reservation record).map (VolatileRingBuffer.shift d) := by
  simp only [fill, Reservation.write_shift]
  rcases reservation.write record.header record.data with _ | r
  · rfl
  · have hcommit := r.commit_shift (d := d)
    simp only [Option.map_some, Option.bind_some]
    rcases hc : r.commit with _ | res
    · rw [hc] at hcommit
      rw [Option.map_eq_none_iff.mp hcommit]
      rfl
    · rw [hc] at hcommit
      obtain ⟨res', hc', hsame⟩ := Option.map_eq_some_iff.mp hcommit
      rw [hc']
      simp only [Option.map_some, hsame]
      rfl

theorem enqueue_shift (b : VolatileRingBuffer) (record : Record) :
    (b.shift d).enqueue record = (b.enqueue record).shift d := by
  have hlength : (b.shift d).overflowQueue.length < (b.shift d).maxOverflow ↔
      b.overflowQueue.length < b.maxOverflow := Iff.rfl
  simp only [enqueue, hlength]
  by_cases h : b.overflowQueue.length < b.maxOverflow
  · rw [if_pos h, if_pos h]
    rfl
  · have hsame : (b.shift d).overflowQueue = b.overflowQueue := rfl
    rw [if_neg h, if_neg h, hsame]
    rcases b.overflowQueue with _ | ⟨oldest, queue⟩ <;> rfl

theorem write_shift (hd : b.Turns d) (record : Record) :
    (b.shift d).write record =
      (b.write record).map fun (ok, b') => (ok, b'.shift d) := by
  rw [write, write, reserve_shift hd]
  rcases b.reserve record.data.length false with _ | ⟨_ | reservation, b₁⟩
  · rfl
  · rw [Option.map_some, Option.bind_some, Option.bind_some]
    show some (false, (b₁.shift d).enqueue record) = _
    rw [enqueue_shift]
    rfl
  · rw [Option.map_some, Option.bind_some, Option.bind_some]
    show ((b₁.shift d).fill (reservation.shift d) record).map (fun b => (true, b)) =
      ((b₁.fill reservation record).map fun b => (true, b)).map _
    rw [fill_shift]
    rcases b₁.fill reservation record with _ | b₂ <;> rfl

/-! ## Read -/

theorem drain_shift {queue : List Record} :
    ∀ {b : VolatileRingBuffer}, b.Turns d →
      (b.shift d).drain queue = (b.drain queue).map (VolatileRingBuffer.shift d) := by
  induction queue with
  | nil => exact fun _ => rfl
  | cons record queue ih =>
    intro b hd
    rw [drain, drain, reserve_shift hd]
    rcases hreserve : b.reserve record.data.length false with _ | ⟨_ | reservation, b₁⟩
    · rfl
    · rfl
    · rw [Option.map_some, Option.bind_some, Option.bind_some]
      show ((b₁.shift d).fill (reservation.shift d) record).bind (fun b => b.drain queue) =
        ((b₁.fill reservation record).bind fun b => b.drain queue).map _
      rw [fill_shift]
      rcases hfill : b₁.fill reservation record with _ | b₂
      · rfl
      · obtain ⟨signal, rfl⟩ := fill_eq hfill
        have hd₁ := hd.of_kept (reserve_kept hreserve)
        exact ih ⟨hd₁.prod_eq, hd₁.cons_eq⟩

variable [Hasher]

theorem readLoop_shift {left : Nat} :
    ∀ {b : VolatileRingBuffer}, b.Turns d → ∀ consSeq records processed,
      readLoop left (b.shift d) (consSeq + d) records processed =
        (readLoop left b consSeq records processed).map fun (b', consSeq, records, processed) =>
          (b'.shift d, consSeq + d, records, processed) := by
  induction left with
  | zero => exact fun _ _ _ _ => rfl
  | succ left ih =>
    intro b hd consSeq records processed
    have hidx : (b.shift d).consSeq.physicalIndex (consSeq + d) =
        b.consSeq.physicalIndex consSeq := hd.cons_eq consSeq
    simp only [readLoop, hidx, slots_shift]
    rcases hslot : b.slots[b.consSeq.physicalIndex consSeq]? with _ | slot
    · rfl
    · have hsame : ((slot.shift d).state = .ready ∧ (slot.shift d).seq = consSeq + d) ↔
          (slot.state = .ready ∧ slot.seq = consSeq) := by
        simp only [Slot.shift, UInt64.add_left_inj]
      simp only [Option.map_some, Option.bind_some]
      by_cases hready : slot.state = .ready ∧ slot.seq = consSeq
      · rw [if_pos hready, if_pos (hsame.mpr hready)]
        have hrecord : (b.shift d).slotRecord (b.consSeq.physicalIndex consSeq) =
            b.slotRecord (b.consSeq.physicalIndex consSeq) := rfl
        rw [hrecord]
        rcases b.slotRecord (b.consSeq.physicalIndex consSeq) with _ | record
        · rfl
        · have hslots : ((b.shift d).setSlot (b.consSeq.physicalIndex consSeq)
              { slot.shift d with state := .consumed }).setSlot (b.consSeq.physicalIndex consSeq)
                { slot.shift d with state := .empty } =
              ((b.setSlot (b.consSeq.physicalIndex consSeq)
                { slot with state := .consumed }).setSlot (b.consSeq.physicalIndex consSeq)
                  { slot with state := .empty }).shift d := by
            rw [← setSlot_shift, ← setSlot_shift]
            rfl
          simp only [Option.bind_some, hslots, succ_shift]
          exact ih ((hd.setSlot _ _).setSlot _ _) _ _ _
      · rw [if_neg hready, if_neg (mt hsame.mp hready)]
        rfl

theorem read_shift (hd : b.Turns d) :
    (b.shift d).read = b.read.map fun (found, b') => (found, b'.shift d) := by
  have hvalue : (b.shift d).consSeq.value = b.consSeq.value + d := rfl
  have hcapacity : (b.shift d).capacity = b.capacity := rfl
  rw [read, read, hvalue, hcapacity, readLoop_shift hd]
  rcases hread : readLoop b.capacity b b.consSeq.value [] 0 with
    _ | ⟨b₁, consSeq, records, processed⟩
  · rfl
  · rw [Option.map_some, Option.bind_some, Option.bind_some]
    have hd₁ := hd.of_kept (readLoop_kept hread)
    let b₂ := { b₁ with consSeq := { b₁.consSeq with value := consSeq } }
    show (if 0 < processed then ((b₂.shift d).drain b₂.overflowQueue).map fun b => (records, b)
        else some (records, b₁.shift d)) =
      (if 0 < processed then (b₂.drain b₂.overflowQueue).map fun b => (records, b)
        else some (records, b₁)).map _
    have hd₂ : b₂.Turns d := ⟨hd₁.prod_eq, hd₁.cons_eq⟩
    rw [drain_shift hd₂]
    split
    · rcases b₂.drain b₂.overflowQueue with _ | b₃ <;> rfl
    · rfl

end VolatileRingBuffer

namespace Client

variable {s : Client} {d : UInt64}

theorem holding_shift (s : Client) (d : UInt64) (i : Nat) :
    (s.shift d).holding i = (s.holding i).map (Reservation.shift d) := by
  show ((s.held.map _)[i]?).join = ((s.held[i]?).join).map _
  rw [List.getElem?_map]
  rcases s.held[i]? with _ | _ | r <;> rfl

theorem handOut_shift (s : Client) (d : UInt64) (res : Option Reservation × VolatileRingBuffer) :
    (s.shift d).handOut (res.1.map (Reservation.shift d), res.2.shift d) =
      (s.handOut res).shift d := by
  obtain ⟨_ | r, buf⟩ := res
  · rfl
  · show (⟨_, s.held.map _ ++ [some (r.shift d)]⟩ : Client) = ⟨_, (s.held ++ [some r]).map _⟩
    rw [List.map_append]
    rfl

/-- What is held at the end of a call, shifted. -/
theorem set_shift (s : Client) (d : UInt64) (i : Nat) (r : Option Reservation) :
    (s.shift d).held.set i (r.map (Reservation.shift d)) =
      (s.held.set i r).map (Option.map (Reservation.shift d)) :=
  List.map_set.symm

section

variable [Hasher]

/-- **The shift commutes with every call**, whatever reservations are held. -/
theorem step_shift (hd : s.buf.Turns d) (call : Request) :
    (s.shift d).step call = (s.step call).map fun (answer, t) => (answer, t.shift d) := by
  have hbuf : (s.shift d).buf = s.buf.shift d := rfl
  cases call with
  | reserve size block =>
    rw [step, step, hbuf, VolatileRingBuffer.reserve_shift hd]
    rcases s.buf.reserve size block with _ | ⟨res, buf⟩
    · rfl
    · simp only [Option.map_some, handOut_shift s d (res, buf), Option.map_map]
      rfl
  | fill i header data =>
    rw [step, step, holding_shift]
    rcases s.holding i with _ | r
    · rfl
    · rw [Option.map_some, Option.bind_some, Option.bind_some, Reservation.write_shift]
      rcases r.write header data with _ | r'
      · rfl
      · have hset := s.set_shift d i (some r')
        simp only [Option.map_some] at hset ⊢
        rw [hset]
        rfl
  | commit i =>
    rw [step, step, holding_shift]
    rcases s.holding i with _ | r
    · rfl
    · have hcommit := r.commit_shift (d := d)
      have hset := s.set_shift d i none
      rw [Option.map_some, Option.bind_some, Option.bind_some]
      rcases hc : r.commit with _ | res
      · rw [hc] at hcommit
        rw [Option.map_eq_none_iff.mp hcommit]
        rfl
      · rw [hc] at hcommit
        obtain ⟨res', hc', hsame⟩ := Option.map_eq_some_iff.mp hcommit
        rw [hc', Option.map_some, Option.map_some, hsame]
        simp only [Option.map_none] at hset
        rw [hset]
        rfl
  | drop i =>
    rw [step, step, holding_shift]
    rcases s.holding i with _ | r
    · rfl
    · have hset := s.set_shift d i none
      rw [Option.map_some, Option.bind_some, Option.bind_some, Reservation.drop_shift]
      rcases r.drop with _ | b
      · rfl
      · simp only [Option.map_none] at hset
        rw [Option.map_some, Option.map_some, hset]
        rfl
  | write record =>
    rw [step, step, hbuf, VolatileRingBuffer.write_shift hd]
    rcases s.buf.write record with _ | ⟨ok, buf⟩ <;> rfl
  | read =>
    rw [step, step, hbuf, VolatileRingBuffer.read_shift hd]
    rcases s.buf.read with _ | ⟨found, buf⟩ <;> rfl

/-- **Sequence numbers may wrap**: a run from the shifted state gives the same answers, and
ends in the shifted state. -/
theorem run_shift (hs : s.buf.Masked) (k : Nat) (calls : List Request) :
    (s.shift (UInt64.ofNat (k * s.buf.capacity))).run calls =
      (s.run calls).map fun (answers, t) =>
        (answers, t.shift (UInt64.ofNat (k * s.buf.capacity))) := by
  refine Machine.run_commutes
    (I := fun t : Client => t.buf.Turns (UInt64.ofNat (k * s.buf.capacity))) ?_ ?_
    (hs.turns k) calls
  · exact fun t call answer t' hd hstep => hd.of_kept (VolatileRingBuffer.step_kept hstep)
  · exact fun t call hd => step_shift hd call

end

section Ieee

attribute [local instance] Hasher.ieee

/-- Two slots, both ready, under the last two sequence numbers of all; the numbers of the
calls to come start over at zero. -/
def beforeWrap : Client :=
  start { VolatileRingBuffer.blank 2 32 1000 100 false with
    slots := [⟨.ready, 2 ^ 64 - 2⟩, ⟨.ready, 2 ^ 64 - 1⟩],
    prodSeq := ⟨0, 1⟩, consSeq := ⟨2 ^ 64 - 2, 1⟩, overflowQueue := [Record.new [1] 7 0] }

/-- One turn further on, where the sequence numbers are small, everything is the same. -/
theorem run_shift_beforeWrap :
    (beforeWrap.shift (UInt64.ofNat (1 * beforeWrap.buf.capacity))).run
        [.read, .reserve 0 false, .commit 0, .write (Record.new [2] 7 0), .read] =
      (beforeWrap.run [.read, .reserve 0 false, .commit 0, .write (Record.new [2] 7 0), .read]).map
        (fun (answers, t) => (answers, t.shift (UInt64.ofNat (1 * beforeWrap.buf.capacity)))) ∧
    (beforeWrap.run [.read, .reserve 0 false, .commit 0, .write (Record.new [2] 7 0), .read]).map
        Prod.fst =
      some [.records [⟨⟨0, 0, 0, 0⟩, []⟩, ⟨⟨0, 0, 0, 0⟩, []⟩], .reserved (some 1), .done,
        .wrote false, .records []] :=
  ⟨run_shift ⟨⟨1, rfl⟩, rfl, rfl⟩ 1 _, by decide +kernel⟩

end Ieee

end Client

end Sherlog
