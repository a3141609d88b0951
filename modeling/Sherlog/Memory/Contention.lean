import Sherlog.Memory.Reservations

/-!
# Reserving side by side

`reserve` and `read` touch the buffer by single atomic accesses, and between two of them any
other thread may get in.

* `ReserveCall.turn`, `ReadCall.turn` — the next access of a call under way.
* `Contention` — a buffer and any number of threads that reserve, with one that reads;
  `Contention.step` — one turn.
* `ReserveCall.alone_eq`, `ReadCall.alone_eq` — left alone, the accesses of a call are
  `reserve` and `read`.
-/

namespace Sherlog

open Window VolatileRingBuffer

/-! ## The accesses of `reserve` -/

/-- The next access of a call of `reserve`. -/
inductive ReservePc where
  /-- The load of `prod_seq`, as long as there are spins left. -/
  | load (spins : Nat)
  /-- The load of the slot state. -/
  | look (spins : Nat) (prodSeq : UInt64)
  /-- The exchange of `Empty` for `Reserved`. -/
  | exchange (spins : Nat) (prodSeq : UInt64)
  /-- The store of `prod_seq`. -/
  | storeProd (prodSeq : UInt64)
  /-- The store of the sequence number of the slot. -/
  | storeSeq (prodSeq : UInt64)
deriving DecidableEq, Repr

/-- A call of `reserve` under way. -/
structure ReserveCall where
  /-- The size asked for, with the header. -/
  totalSize : Nat
  /-- Whether to block. -/
  block : Bool
  /-- The next access. -/
  pc : ReservePc
deriving DecidableEq, Repr

/-- What comes of an access of `reserve`. -/
inductive Reserving where
  /-- The call goes on. -/
  | goesOn (call : ReserveCall)
  /-- The call returns. -/
  | returns (res : Option Reservation)
deriving DecidableEq, Repr

namespace ReserveCall

/-- `reserve` called, `none` when the record does not fit a slot. -/
def start (b : VolatileRingBuffer) (size : Nat) (block : Bool) : Option ReserveCall :=
  let totalSize := wrapping (size + RecordHeader.SIZE)
  if b.slotSize < totalSize then none else some { totalSize, block, pc := .load 0 }

/-- One spin more. -/
def again (call : ReserveCall) (spins : Nat) : Reserving :=
  if call.block = false ∧ 10 < spins + 1 then .returns none
  else .goesOn { call with pc := .load (spins + 1) }

/-- The next access; `none` when there is no such slot. -/
def turn (call : ReserveCall) (b : VolatileRingBuffer) : Option (Reserving × VolatileRingBuffer) :=
  match call.pc with
  | .load spins =>
    if spins < b.maxSpins then some (.goesOn { call with pc := .look spins b.prodSeq.value }, b)
    else if call.block then some (.goesOn { call with pc := .load 0 }, b)
    else some (.returns none, b)
  | .look spins prodSeq =>
    (b.slots[b.prodSeq.physicalIndex prodSeq]?).map fun slot =>
      (if slot.state = .empty then .goesOn { call with pc := .exchange spins prodSeq }
        else call.again spins, b)
  | .exchange spins prodSeq =>
    (b.slots[b.prodSeq.physicalIndex prodSeq]?).map fun slot =>
      match slot.tryTransition .empty .reserved with
      | some slot =>
        (.goesOn { call with pc := .storeProd prodSeq },
          b.setSlot (b.prodSeq.physicalIndex prodSeq) slot)
      | none => (call.again spins, b)
  | .storeProd prodSeq =>
    some (.goesOn { call with pc := .storeSeq prodSeq },
      { b with prodSeq := { b.prodSeq with value := prodSeq + 1 } })
  | .storeSeq prodSeq =>
    (b.slots[b.prodSeq.physicalIndex prodSeq]?).map fun slot =>
      let b := b.setSlot (b.prodSeq.physicalIndex prodSeq) { slot with seq := prodSeq }
      (.returns (some { slotIdx := b.prodSeq.physicalIndex prodSeq, seq := prodSeq,
                        size := call.totalSize, buffer := b.clone, committed := false }), b)

/-- With no other thread about, the call comes back. -/
inductive Alone : ReserveCall → VolatileRingBuffer →
    Option Reservation × VolatileRingBuffer → Prop
  | returns {call b res b'} : call.turn b = some (.returns res, b') → Alone call b (res, b')
  | goesOn {call b call' b' out} :
      call.turn b = some (.goesOn call', b') → Alone call' b' out → Alone call b out

end ReserveCall

/-! ## The accesses of `read` -/

/-- The next access of a call of `read`. -/
inductive ReadPc where
  /-- The load of `cons_seq`. -/
  | load
  /-- The load of the slot state, as long as there are slots left to check. -/
  | look
  /-- The load of the sequence number of the slot. -/
  | compare
  /-- The copies of the header and the data. -/
  | copy
  /-- The store of `Consumed`. -/
  | consume
  /-- The store of `Empty`. -/
  | recycle
  /-- The store of `cons_seq`, if any slots have been processed. -/
  | store
  /-- The lock of the overflow queue. -/
  | lock
  /-- The queue, and the call of `reserve` for its first record. -/
  | pop
  /-- That call. -/
  | reserve (record : Record) (call : ReserveCall)
deriving DecidableEq, Repr

/-- A call of `read` under way. -/
structure ReadCall where
  /-- The slots left to check. -/
  left : Nat
  /-- The sequence number of the next slot. -/
  consSeq : UInt64
  /-- The records collected. -/
  records : List Record
  /-- The number of slots processed. -/
  processed : Nat
  /-- The next access. -/
  pc : ReadPc
deriving DecidableEq, Repr

/-- What comes of an access of `read`. -/
inductive Reading where
  /-- The call goes on. -/
  | goesOn (call : ReadCall)
  /-- The drain has reserved a slot, and committed the reservation. -/
  | reserved (call : ReadCall) (r : Reservation)
  /-- The call returns. -/
  | returns (records : List Record)
deriving DecidableEq, Repr

namespace ReadCall

/-- `read` called. -/
def start (b : VolatileRingBuffer) : ReadCall :=
  { left := b.capacity, consSeq := 0, records := [], processed := 0, pc := .load }

/-- Whether the call holds the lock of the overflow queue. -/
def locks (call : ReadCall) : Bool :=
  match call.pc with
  | .pop | .reserve _ _ => true
  | _ => false

/-- The drain after an access of its call of `reserve` for a record. -/
def settle (call : ReadCall) (record : Record) :
    Reserving × VolatileRingBuffer → Option (Reading × VolatileRingBuffer)
  | (.goesOn reserveCall, b) => some (.goesOn { call with pc := .reserve record reserveCall }, b)
  | (.returns (some r), b) =>
    (b.fill r record).map fun b => (.reserved { call with pc := .pop } r, b)
  | (.returns none, b) =>
    some (.returns call.records, { b with overflowQueue := record :: b.overflowQueue })

/-- The next access; `none` when the call panics. -/
def turn [Hasher] (call : ReadCall) (b : VolatileRingBuffer) :
    Option (Reading × VolatileRingBuffer) :=
  let slotIdx := b.consSeq.physicalIndex call.consSeq
  match call.pc with
  | .load => some (.goesOn { call with consSeq := b.consSeq.value, pc := .look }, b)
  | .look =>
    match call.left with
    | 0 => some (.goesOn { call with pc := .store }, b)
    | _ + 1 =>
      (b.slots[slotIdx]?).map fun slot =>
        (.goesOn { call with pc := if slot.state = .ready then .compare else .store }, b)
  | .compare =>
    (b.slots[slotIdx]?).map fun slot =>
      (.goesOn { call with pc := if slot.seq = call.consSeq then .copy else .store }, b)
  | .copy =>
    (b.slotRecord slotIdx).map fun record =>
      (.goesOn
        { call with
          records := if record.header.verifyCrc record.data then call.records ++ [record]
            else call.records
          pc := .consume }, b)
  | .consume =>
    (b.slots[slotIdx]?).map fun slot =>
      (.goesOn { call with pc := .recycle }, b.setSlot slotIdx { slot with state := .consumed })
  | .recycle =>
    (b.slots[slotIdx]?).map fun slot =>
      (.goesOn { call with left := call.left - 1, consSeq := call.consSeq + 1,
                           processed := call.processed + 1, pc := .look },
        b.setSlot slotIdx { slot with state := .empty })
  | .store =>
    if 0 < call.processed then
      some (.goesOn { call with pc := .lock },
        { b with consSeq := { b.consSeq with value := call.consSeq } })
    else some (.returns call.records, b)
  | .lock => some (.goesOn { call with pc := .pop }, b)
  | .pop =>
    match b.overflowQueue with
    | [] => some (.returns call.records, b)
    | record :: queue =>
      (ReserveCall.start b record.data.length false).map fun reserveCall =>
        (.goesOn { call with pc := .reserve record reserveCall },
          { b with overflowQueue := queue })
  | .reserve record reserveCall =>
    (reserveCall.turn b).bind (call.settle record)

/-- With no other thread about, the call comes back. -/
inductive Alone [Hasher] : ReadCall → VolatileRingBuffer →
    List Record × VolatileRingBuffer → Prop
  | returns {call b records b'} :
      call.turn b = some (.returns records, b') → Alone call b (records, b')
  | goesOn {call b call' b' out} :
      call.turn b = some (.goesOn call', b') → Alone call' b' out → Alone call b out
  | reserved {call b call' r b' out} :
      call.turn b = some (.reserved call' r, b') → Alone call' b' out → Alone call b out

end ReadCall

/-! ## Side by side -/

/-- A buffer shared by threads that reserve and one that reads. -/
structure Contention (ι : Type*) where
  /-- The buffer. -/
  buf : VolatileRingBuffer
  /-- The call of `reserve` each thread is in. -/
  calls : ι → Option ReserveCall
  /-- The call of `read` under way. -/
  reading : Option ReadCall
  /-- The reservations returned so far, by number; those committed or dropped are gone. -/
  held : List (Option Reservation)
  /-- The slot and the sequence number that each of them was returned with. -/
  granted : List (Nat × UInt64)

namespace Contention

/-- One turn. -/
inductive Turn (ι : Type*) where
  /-- A thread calls `reserve`. -/
  | reserve (i : ι) (size : Nat) (block : Bool)
  /-- Its call goes on to the next access. -/
  | access (i : ι)
  /-- `Reservation::write`, on the reservation with that number. -/
  | fill (k : Nat) (header : RecordHeader) (data : List UInt8)
  /-- `Reservation::commit` -/
  | commit (k : Nat)
  /-- A reservation dropped. -/
  | drop (k : Nat)
  /-- A `write` for which `reserve` has returned nothing queues its record. -/
  | enqueue (record : Record)
  /-- The consumer calls `read`. -/
  | read
  /-- Its call goes on to the next access. -/
  | readOn

variable {ι : Type*} [DecidableEq ι]

/-- Before the first call. -/
def start (b : VolatileRingBuffer) : Contention ι :=
  { buf := b, calls := fun _ => none, reading := none, held := [], granted := [] }

/-- The reservation with the given number, as long as it is held. -/
def holding (s : Contention ι) (k : Nat) : Option Reservation := (s.held[k]?).join

/-- A reservation returned; the drain has committed its own by then. -/
def grant (s : Contention ι) (r : Reservation) (kept : Bool) : Contention ι :=
  { s with held := s.held ++ [if kept then some r else none],
           granted := s.granted ++ [(r.slotIdx, r.seq)] }

/-- After an access of the call of `reserve` a thread is in; a panic ends the call. -/
def accessed (s : Contention ι) (i : ι) : Option (Reserving × VolatileRingBuffer) → Contention ι
  | none => { s with calls := Function.update s.calls i none }
  | some (.goesOn call, buf) => { s with buf, calls := Function.update s.calls i (some call) }
  | some (.returns none, buf) => { s with buf, calls := Function.update s.calls i none }
  | some (.returns (some r), buf) =>
    { s with buf, calls := Function.update s.calls i none }.grant r true

/-- After an access of the call of `read`. -/
def readOn (s : Contention ι) : Option (Reading × VolatileRingBuffer) → Contention ι
  | none => { s with reading := none }
  | some (.goesOn call, buf) => { s with buf, reading := some call }
  | some (.reserved call r, buf) => { s with buf, reading := some call }.grant r false
  | some (.returns _, buf) => { s with buf, reading := none }

/-- One turn.  What a thread that is in a call calls, and what needs a reservation that is
not held or the lock of the queue while the drain has it, is left for another turn. -/
def step [Hasher] (s : Contention ι) : Turn ι → Contention ι
  | .reserve i size block =>
    match s.calls i with
    | none => { s with calls := Function.update s.calls i (ReserveCall.start s.buf size block) }
    | some _ => s
  | .access i =>
    match s.calls i with
    | none => s
    | some call => s.accessed i (call.turn s.buf)
  | .fill k header data =>
    match (s.holding k).map fun r => r.write header data with
    | none => s
    -- a panic drops the reservation
    | some none => { s with held := s.held.set k none }
    | some (some r) => { s with held := s.held.set k (some r) }
  | .commit k =>
    match (s.holding k).bind Reservation.commit with
    | none => s
    | some (_, notified) =>
      { s with buf := { s.buf with consumerSignal := s.buf.consumerSignal || notified },
               held := s.held.set k none }
  | .drop k => { s with held := s.held.set k none }
  | .enqueue record =>
    if s.reading.any ReadCall.locks then s else { s with buf := s.buf.enqueue record }
  | .read =>
    match s.reading with
    | none => { s with reading := some (ReadCall.start s.buf) }
    | some _ => s
  | .readOn =>
    match s.reading with
    | none => s
    | some call => s.readOn (call.turn s.buf)

/-- A list of turns. -/
def run [Hasher] (s : Contention ι) (turns : List (Turn ι)) : Contention ι :=
  turns.foldl step s

end Contention

/-! ## Left alone -/

variable {b b' : VolatileRingBuffer}

/-- On an empty slot nothing stands in the way. -/
theorem ReserveCall.alone_taken {totalSize : Nat} {block : Bool} {spins : Nat} {slot : Slot}
    (hslot : b.slots[b.prodSeq.physicalIndex b.prodSeq.value]? = some slot)
    (hstate : slot.state = .empty) :
    ReserveCall.Alone ⟨totalSize, block, .look spins b.prodSeq.value⟩ b
      (some { slotIdx := b.prodSeq.physicalIndex b.prodSeq.value, seq := b.prodSeq.value,
              size := totalSize, buffer := b.clone, committed := false }, b.taken) := by
  obtain ⟨hlt, -⟩ := List.getElem?_eq_some_iff.mp hslot
  let b₁ := b.setSlot (b.prodSeq.physicalIndex b.prodSeq.value) { slot with state := .reserved }
  let b₂ := { b₁ with prodSeq := { b.prodSeq with value := b.prodSeq.value + 1 } }
  have hlook : ReserveCall.turn ⟨totalSize, block, .look spins b.prodSeq.value⟩ b =
      some (.goesOn ⟨totalSize, block, .exchange spins b.prodSeq.value⟩, b) := by
    simp only [ReserveCall.turn, hslot, Option.map_some, if_pos hstate]
  have hexchange : ReserveCall.turn ⟨totalSize, block, .exchange spins b.prodSeq.value⟩ b =
      some (.goesOn ⟨totalSize, block, .storeProd b.prodSeq.value⟩, b₁) := by
    simp only [ReserveCall.turn, hslot, Option.map_some, Slot.tryTransition, if_pos hstate]
    rfl
  have hstore : ReserveCall.turn ⟨totalSize, block, .storeProd b.prodSeq.value⟩ b₁ =
      some (.goesOn ⟨totalSize, block, .storeSeq b.prodSeq.value⟩, b₂) := rfl
  have hslot₂ : b₂.slots[b₂.prodSeq.physicalIndex b.prodSeq.value]? =
      some { slot with state := .reserved } := List.getElem?_set_self hlt
  have htaken : b₂.setSlot (b₂.prodSeq.physicalIndex b.prodSeq.value)
      ⟨.reserved, b.prodSeq.value⟩ = b.taken := by
    have hidx : b₂.prodSeq.physicalIndex b.prodSeq.value =
        b.prodSeq.physicalIndex b.prodSeq.value := rfl
    rw [hidx, VolatileRingBuffer.taken]
    simp only [setSlot, b₂, b₁, List.set_set]
  refine .goesOn hlook (.goesOn hexchange (.goesOn hstore (.returns ?_)))
  simp only [ReserveCall.turn, hslot₂, Option.map_some, htaken]
  rfl

/-- The `while` loop of `reserve`, access by access. -/
theorem ReserveCall.alone_loop {totalSize : Nat} {block : Bool} {left : Nat}
    {res : Option Reservation} :
    ∀ {spins}, spins + left = b.maxSpins →
      b.reserveLoop totalSize block left spins = some (res, b') →
        ReserveCall.Alone ⟨totalSize, block, .load spins⟩ b (res, b') := by
  induction left with
  | zero =>
    intro spins hspins h
    rw [reserveLoop] at h
    split at h
    · cases h
    · next hblock =>
      obtain ⟨rfl, rfl⟩ := Prod.mk.inj (Option.some.inj h)
      refine .returns ?_
      simp only [ReserveCall.turn]
      rw [if_neg (by omega), if_neg hblock]
  | succ left ih =>
    intro spins hspins h
    have hload : ReserveCall.turn ⟨totalSize, block, .load spins⟩ b =
        some (.goesOn ⟨totalSize, block, .look spins b.prodSeq.value⟩, b) :=
      if_pos (by omega)
    refine .goesOn hload ?_
    obtain ⟨slot, hslot, -⟩ := Option.bind_eq_some_iff.mp h
    by_cases hstate : slot.state = .empty
    · rw [reserveLoop_of_empty hslot hstate] at h
      obtain ⟨rfl, rfl⟩ := Prod.mk.inj (Option.some.inj h)
      exact alone_taken hslot hstate
    · rw [reserveLoop_of_not_empty hslot hstate] at h
      have hlook : ReserveCall.turn ⟨totalSize, block, .look spins b.prodSeq.value⟩ b =
          some (ReserveCall.again ⟨totalSize, block, .look spins b.prodSeq.value⟩ spins, b) := by
        simp only [ReserveCall.turn, hslot, Option.map_some, if_neg hstate]
      by_cases hgive : block = false ∧ 10 < spins + 1
      · rw [if_pos hgive] at h
        obtain ⟨rfl, rfl⟩ := Prod.mk.inj (Option.some.inj h)
        rw [ReserveCall.again, if_pos hgive] at hlook
        exact .returns hlook
      · rw [if_neg hgive] at h
        rw [ReserveCall.again, if_neg hgive] at hlook
        exact .goesOn hlook (ih (by omega) h)

/-- **Left alone, the accesses of a call are `reserve`.** -/
theorem ReserveCall.alone_eq {size : Nat} {block : Bool} {res : Option Reservation}
    (h : b.reserve size block = some (res, b')) :
    ∃ call, ReserveCall.start b size block = some call ∧ call.Alone b (res, b') := by
  simp only [reserve] at h
  split at h
  · cases h
  · next hfits =>
    exact ⟨_, if_neg hfits, alone_loop (Nat.zero_add _) h⟩

/-! ### The queue is no business of `reserve` -/

namespace VolatileRingBuffer

/-- Another overflow queue. -/
def withQueue (b : VolatileRingBuffer) (overflowQueue : List Record) : VolatileRingBuffer :=
  { b with overflowQueue }

theorem reserveLoop_withQueue (queue : List Record) (totalSize : Nat) (block : Bool) {left : Nat} :
    ∀ spins, (b.withQueue queue).reserveLoop totalSize block left spins =
      (b.reserveLoop totalSize block left spins).map fun (res, b') =>
        (res, b'.withQueue queue) := by
  induction left with
  | zero =>
    intro spins
    simp only [reserveLoop]
    split <;> rfl
  | succ left ih =>
    intro spins
    rcases hslot : b.slots[b.prodSeq.physicalIndex b.prodSeq.value]? with _ | slot
    · have hslot' : (b.withQueue queue).slots[(b.withQueue queue).prodSeq.physicalIndex
          (b.withQueue queue).prodSeq.value]? = none := hslot
      simp only [reserveLoop, hslot, hslot']
      rfl
    · have hslot' : (b.withQueue queue).slots[(b.withQueue queue).prodSeq.physicalIndex
          (b.withQueue queue).prodSeq.value]? = some slot := hslot
      by_cases hstate : slot.state = .empty
      · rw [reserveLoop_of_empty hslot hstate, reserveLoop_of_empty hslot' hstate]
        rfl
      · rw [reserveLoop_of_not_empty hslot hstate, reserveLoop_of_not_empty hslot' hstate]
        split
        · rfl
        · exact ih (spins + 1)

theorem reserve_withQueue (b : VolatileRingBuffer) (queue : List Record) (size : Nat)
    (block : Bool) :
    (b.withQueue queue).reserve size block =
      (b.reserve size block).map fun (res, b') => (res, b'.withQueue queue) := by
  have hslot : (b.withQueue queue).slotSize = b.slotSize := rfl
  simp only [reserve, hslot]
  split
  · rfl
  · exact reserveLoop_withQueue queue _ block 0

theorem fill_withQueue (b : VolatileRingBuffer) (queue : List Record) (r : Reservation)
    (record : Record) :
    (b.withQueue queue).fill r record = (b.fill r record).map (withQueue · queue) := by
  rw [fill, fill]
  rcases r.write record.header record.data with _ | r'
  · rfl
  · rw [Option.bind_some, Option.bind_some]
    rcases r'.commit with _ | res <;> rfl

theorem drain_withQueue {queue : List Record} :
    ∀ (b : VolatileRingBuffer) (queue' : List Record),
      (b.withQueue queue').drain queue = b.drain queue := by
  induction queue with
  | nil => exact fun _ _ => rfl
  | cons record queue ih =>
    intro b queue'
    rw [drain, drain, reserve_withQueue]
    rcases b.reserve record.data.length false with _ | ⟨_ | r, b₁⟩
    · rfl
    · rfl
    · rw [Option.map_some, Option.bind_some, Option.bind_some]
      show ((b₁.withQueue queue').fill r record).bind (fun b => b.drain queue) =
        (b₁.fill r record).bind fun b => b.drain queue
      rw [fill_withQueue]
      rcases b₁.fill r record with _ | b₂
      · rfl
      · exact ih b₂ queue'

end VolatileRingBuffer

/-! ### The accesses of `read`, left alone -/

namespace ReadCall

section

variable [Hasher]

theorem turn_reserve (call : ReadCall) (record : Record) (reserveCall : ReserveCall)
    (b : VolatileRingBuffer) :
    turn { call with pc := .reserve record reserveCall } b =
      (reserveCall.turn b).bind
        (settle { call with pc := .reserve record reserveCall } record) := rfl

/-- A record of the queue for which there is a slot. -/
theorem alone_of_reserved {reserveCall : ReserveCall} {r : Reservation} {b₁ b₂ : VolatileRingBuffer}
    (h : reserveCall.Alone b (some r, b₁)) {record : Record} (hfill : b₁.fill r record = some b₂)
    {call : ReadCall} {out : List Record × VolatileRingBuffer}
    (hrest : Alone { call with pc := .pop } b₂ out) :
    Alone { call with pc := .reserve record reserveCall } b out := by
  generalize hres : (some r, b₁) = res at h
  induction h with
  | returns hturn =>
    obtain ⟨rfl, rfl⟩ := Prod.mk.inj hres
    refine .reserved (r := r) ?_ hrest
    rw [turn_reserve, hturn, Option.bind_some, settle, hfill, Option.map_some]
  | goesOn hturn _ ih =>
    refine .goesOn ?_ (ih hres)
    rw [turn_reserve, hturn, Option.bind_some, settle]

/-- A record of the queue for which there is none. -/
theorem alone_of_not_reserved {reserveCall : ReserveCall} {b₁ : VolatileRingBuffer}
    (h : reserveCall.Alone b (none, b₁)) {record : Record} {call : ReadCall} :
    Alone { call with pc := .reserve record reserveCall } b
      (call.records, b₁.withQueue (record :: b₁.overflowQueue)) := by
  generalize hres : ((none : Option Reservation), b₁) = res at h
  induction h with
  | returns hturn =>
    obtain ⟨rfl, rfl⟩ := Prod.mk.inj hres
    refine .returns ?_
    rw [turn_reserve, hturn, Option.bind_some, settle, withQueue]
  | goesOn hturn _ ih =>
    refine .goesOn ?_ (ih hres)
    rw [turn_reserve, hturn, Option.bind_some, settle]

/-- The drain, access by access. -/
theorem alone_drain {queue : List Record} (call : ReadCall) :
    ∀ {b : VolatileRingBuffer}, b.overflowQueue = queue → b.drain queue = some b' →
      Alone { call with pc := .pop } b (call.records, b') := by
  induction queue with
  | nil =>
    intro b hqueue h
    obtain rfl := Option.some.inj h
    have hsame : { b with overflowQueue := [] } = b := by rw [← hqueue]
    rw [hsame]
    refine .returns ?_
    simp only [turn, hqueue]
  | cons record queue ih =>
    intro b hqueue h
    obtain ⟨⟨res, b₁⟩, hreserve, hrest⟩ := Option.bind_eq_some_iff.mp h
    have hpopped : (b.withQueue queue).reserve record.data.length false =
        some (res, b₁.withQueue queue) := by
      rw [reserve_withQueue, hreserve, Option.map_some]
    obtain ⟨reserveCall, hstart, halone⟩ := ReserveCall.alone_eq hpopped
    have hpop : turn { call with pc := .pop } b =
        some (.goesOn { call with pc := .reserve record reserveCall }, b.withQueue queue) := by
      have hsame : ReserveCall.start b record.data.length false = some reserveCall := hstart
      simp only [turn, hqueue, hsame, Option.map_some]
      rfl
    refine .goesOn hpop ?_
    cases res with
    | none =>
      obtain rfl := Option.some.inj hrest
      exact alone_of_not_reserved halone
    | some r =>
      obtain ⟨b₂, hfill, hdrain⟩ := Option.bind_eq_some_iff.mp hrest
      have hfilled : (b₁.withQueue queue).fill r record = some (b₂.withQueue queue) := by
        rw [fill_withQueue, hfill, Option.map_some]
      have hrest : (b₂.withQueue queue).drain queue = some b' := by
        rw [drain_withQueue]
        exact hdrain
      exact alone_of_reserved halone hfilled (ih rfl hrest)

/-- The slot loop, access by access. -/
theorem alone_slots {left : Nat} {b₁ : VolatileRingBuffer} {consSeq' : UInt64}
    {records' : List Record} {processed' : Nat} {out : List Record × VolatileRingBuffer}
    (hrest : ∀ left', Alone ⟨left', consSeq', records', processed', .store⟩ b₁ out) :
    ∀ {b : VolatileRingBuffer} {consSeq : UInt64} {records : List Record} {processed : Nat},
      readLoop left b consSeq records processed = some (b₁, consSeq', records', processed') →
        Alone ⟨left, consSeq, records, processed, .look⟩ b out := by
  induction left with
  | zero =>
    intro b consSeq records processed h
    obtain ⟨rfl, rfl, rfl, rfl⟩ := by simpa only [Prod.mk.injEq] using Option.some.inj h
    exact .goesOn rfl (hrest 0)
  | succ left ih =>
    intro b consSeq records processed h
    obtain ⟨slot, hslot, hmore⟩ := Option.bind_eq_some_iff.mp h
    have hlook : turn ⟨left + 1, consSeq, records, processed, .look⟩ b =
        some (.goesOn ⟨left + 1, consSeq, records, processed,
          if slot.state = .ready then .compare else .store⟩, b) := by
      simp only [turn, hslot, Option.map_some]
    have hcompare : turn ⟨left + 1, consSeq, records, processed, .compare⟩ b =
        some (.goesOn ⟨left + 1, consSeq, records, processed,
          if slot.seq = consSeq then .copy else .store⟩, b) := by
      simp only [turn, hslot, Option.map_some]
    by_cases hready : slot.state = .ready ∧ slot.seq = consSeq
    · rw [if_pos hready] at hmore
      obtain ⟨record, hrecord, hloop⟩ := Option.bind_eq_some_iff.mp hmore
      rw [if_pos hready.1] at hlook
      rw [if_pos hready.2] at hcompare
      let slotIdx := b.consSeq.physicalIndex consSeq
      let collected := if record.header.verifyCrc record.data then records ++ [record] else records
      obtain ⟨hlt, -⟩ := List.getElem?_eq_some_iff.mp hslot
      have hcopy : turn ⟨left + 1, consSeq, records, processed, .copy⟩ b =
          some (.goesOn ⟨left + 1, consSeq, collected, processed, .consume⟩, b) := by
        simp only [turn, hrecord, Option.map_some]
        rfl
      have hconsume : turn ⟨left + 1, consSeq, collected, processed, .consume⟩ b =
          some (.goesOn ⟨left + 1, consSeq, collected, processed, .recycle⟩,
            b.setSlot slotIdx { slot with state := .consumed }) := by
        simp only [turn, hslot, Option.map_some]
        rfl
      have hslot' : (b.setSlot slotIdx { slot with state := .consumed }).slots[slotIdx]? =
          some { slot with state := .consumed } := List.getElem?_set_self hlt
      have hrecycle : turn ⟨left + 1, consSeq, collected, processed, .recycle⟩
          (b.setSlot slotIdx { slot with state := .consumed }) =
          some (.goesOn ⟨left, consSeq + 1, collected, processed + 1, .look⟩,
            (b.setSlot slotIdx { slot with state := .consumed }).setSlot slotIdx
              { slot with state := .empty }) := by
        have hidx : (b.setSlot slotIdx { slot with state := .consumed }).consSeq.physicalIndex
            consSeq = slotIdx := rfl
        simp only [turn, hidx, hslot', Option.map_some]
        rfl
      exact .goesOn hlook (.goesOn hcompare (.goesOn hcopy (.goesOn hconsume
        (.goesOn hrecycle (ih hloop)))))
    · rw [if_neg hready] at hmore
      obtain ⟨rfl, rfl, rfl, rfl⟩ := by simpa only [Prod.mk.injEq] using Option.some.inj hmore
      by_cases hstate : slot.state = .ready
      · rw [if_pos hstate] at hlook
        rw [if_neg fun hseq => hready ⟨hstate, hseq⟩] at hcompare
        exact .goesOn hlook (.goesOn hcompare (hrest _))
      · rw [if_neg hstate] at hlook
        exact .goesOn hlook (hrest _)

/-- **Left alone, the accesses of a call are `read`.** -/
theorem alone_eq {found : List Record} (h : b.read = some (found, b')) :
    Alone (start b) b (found, b') := by
  obtain ⟨⟨b₁, consSeq, records, processed⟩, hloop, hrest⟩ := Option.bind_eq_some_iff.mp h
  have hload : turn (start b) b =
      some (.goesOn { start b with consSeq := b.consSeq.value, pc := .look }, b) := rfl
  refine .goesOn hload (alone_slots (fun left' => ?_) hloop)
  simp only at hrest
  split at hrest
  · next hprocessed =>
    obtain ⟨b₂, hdrain, hres⟩ := Option.map_eq_some_iff.mp hrest
    obtain ⟨rfl, rfl⟩ := Prod.mk.inj hres
    have hstore : turn ⟨left', consSeq, records, processed, .store⟩ b₁ =
        some (.goesOn ⟨left', consSeq, records, processed, .lock⟩,
          { b₁ with consSeq := { b₁.consSeq with value := consSeq } }) := by
      simp only [turn, if_pos hprocessed]
    exact .goesOn hstore (.goesOn rfl
      (alone_drain ⟨left', consSeq, records, processed, .pop⟩ rfl hdrain))
  · next hprocessed =>
    obtain ⟨rfl, rfl⟩ := Prod.mk.inj (Option.some.inj hrest)
    refine .returns ?_
    simp only [turn, if_neg hprocessed]

end

end ReadCall

end Sherlog
