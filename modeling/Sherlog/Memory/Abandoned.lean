import Sherlog.Memory.Reservations

/-!
# Abandoned reservations

Dropping a reservation is meant to give its space back.  The drop acts on the clone the
reservation carries, and so does a commit: the slot taken from the buffer itself stays
reserved, and what has been committed is not there to be read.

* `Account` — a client, and the records it has committed after a drop; `GivesBack` and
  `Repays` — what dropping a reservation should cost the others, namely nothing.
* `VolatileRingBuffer.room` — the number of empty slots, which never grows again
  (`Client.step_inert`); every reservation takes one of them (`Client.room_of_reserves`).
* `Account.costs_nothing_iff` — so the account is even exactly when nothing was ever taken.
-/

namespace Sherlog

/-- A client, and an account of what it has committed after a drop. -/
structure Account where
  /-- The client. -/
  client : Client
  /-- The record last written into each reservation handed out. -/
  filled : List (Option Record)
  /-- Whether a reservation has been dropped without a commit. -/
  dropped : Bool
  /-- The records committed since. -/
  late : List Record
  /-- Those of them that no read has returned since. -/
  owed : List Record
deriving DecidableEq, Repr

/-- The calls that take a slot if there is one. -/
def Request.Takes : Request → Prop
  | .reserve _ _ | .write _ => True
  | _ => False

namespace Account

/-- Before the first call. -/
def start (b : VolatileRingBuffer) : Account := ⟨Client.start b, [], false, [], []⟩

/-- Records committed. -/
def commits (s : Account) (records : List Record) : Account :=
  if s.dropped then { s with late := s.late ++ records, owed := s.owed ++ records } else s

/-- What a call and its answer change in the account. -/
def note (s : Account) : Request → Answer → Account
  | .reserve _ _, .reserved (some _) => { s with filled := s.filled ++ [none] }
  | .fill i header data, _ => { s with filled := s.filled.set i (some { header, data }) }
  | .commit i, _ => s.commits (s.filled[i]?).join.toList
  | .drop _, _ => { s with dropped := true }
  | .write record, .wrote true => s.commits [record]
  | .read, .records found => { s with owed := s.owed.diff found }
  | _, _ => s

/-- Every reservation handed out has been committed or dropped. -/
def Settled (s : Account) : Prop := ∀ i, s.client.holding i = none

variable [Hasher]

/-- One call. -/
def step (s : Account) (call : Request) : Option (Answer × Account) :=
  (s.client.step call).map fun res => (res.1, { s.note call res.1 with client := res.2 })

/-- A list of calls. -/
def run (s : Account) (calls : List Request) : Option (List Answer × Account) :=
  Machine.run step s calls

/-- Once no reservation is held and a read returns nothing, as many non-blocking calls of
`reserve` as there are slots succeed, whatever the sizes, as long as they fit a slot. -/
def GivesBack (s : Account) : Prop :=
  s.Settled → ∀ buf, s.client.buf.read = some ([], buf) →
    ∀ sizes : List Nat, sizes.length = buf.capacity →
      (∀ size ∈ sizes, size + RecordHeader.SIZE ≤ buf.slotSize) →
        ∃ answers t, ({ s.client with buf } : Client).run
            (sizes.map fun size => .reserve size false) = some (answers, t) ∧
          ∀ answer ∈ answers, ∃ slotIdx, answer = .reserved (some slotIdx)

/-- Every record committed after a drop has been returned after some more reads. -/
def Repays (s : Account) : Prop :=
  ∃ n answers t, s.run (List.replicate n .read) = some (answers, t) ∧ t.owed = []

end Account

/-! ## Empty slots -/

namespace VolatileRingBuffer

/-- The number of empty slots. -/
def room (b : VolatileRingBuffer) : Nat := b.slots.countP fun slot => slot.state = .empty

/-- A buffer from which nothing can be read. -/
structure Inert (b : VolatileRingBuffer) : Prop extends b.Laid where
  quiet : b.Quiet

variable {b b' : VolatileRingBuffer}

/-- **A slot taken is one empty slot less.** -/
theorem room_taken {slot : Slot}
    (hslot : b.slots[b.prodSeq.physicalIndex b.prodSeq.value]? = some slot)
    (hstate : slot.state = .empty) : b.taken.room + 1 = b.room := by
  obtain ⟨hlt, rfl⟩ := List.getElem?_eq_some_iff.mp hslot
  have hpos : 0 < b.room :=
    List.countP_pos_iff.mpr ⟨_, List.getElem_mem hlt, decide_eq_true hstate⟩
  have hset := List.countP_set (p := fun slot : Slot => decide (slot.state = .empty))
    (a := ⟨.reserved, b.prodSeq.value⟩) hlt
  simp only [hstate, decide_true, if_true, reduceCtorEq, decide_false, Bool.false_eq_true,
    if_false] at hset
  unfold room at hpos ⊢
  unfold taken setSlot
  simp only [hset]
  omega

/-- The next `n` slots are empty. -/
def EmptyAhead (b : VolatileRingBuffer) (n : Nat) : Prop :=
  ∀ i < n, ∃ slot,
    b.slots[b.prodSeq.physicalIndex (b.prodSeq.value + UInt64.ofNat i)]? = some slot ∧
      slot.state = .empty

theorem EmptyAhead.next {n : Nat} (h : b.EmptyAhead (n + 1)) :
    ∃ slot, b.slots[b.prodSeq.physicalIndex b.prodSeq.value]? = some slot ∧
      slot.state = .empty := by
  have hzero : b.prodSeq.value + UInt64.ofNat 0 = b.prodSeq.value := UInt64.add_zero _
  have hnext := h 0 (Nat.succ_pos n)
  rwa [hzero] at hnext

/-- The slots of the sequence numbers to come are others than the one taken. -/
theorem EmptyAhead.taken (hb : b.Laid) {n : Nat} (hn : n < b.capacity)
    (h : b.EmptyAhead (n + 1)) : b.taken.EmptyAhead n := by
  intro i hi
  obtain ⟨slot, hslot, hstate⟩ := h (i + 1) (by omega)
  have hidx (i : Nat) := AtomicIndex.physicalIndex_add hb.capacity_eq hb.prodMask b.prodSeq.value i
  have hzero : b.prodSeq.value + UInt64.ofNat 0 = b.prodSeq.value := UInt64.add_zero _
  have hsucc : b.prodSeq.value + 1 + UInt64.ofNat i = b.prodSeq.value + UInt64.ofNat (i + 1) := by
    rw [UInt64.ofNat_add, UInt64.add_assoc, UInt64.add_comm 1]
    rfl
  have hother : b.prodSeq.physicalIndex b.prodSeq.value ≠
      b.prodSeq.physicalIndex (b.prodSeq.value + UInt64.ofNat (i + 1)) := by
    have hfirst := hidx 0
    rw [hzero] at hfirst
    rw [hfirst, hidx (i + 1)]
    intro heq
    have := Ring.slot_injective (by omega) (by omega) heq
    omega
  refine ⟨slot, ?_, hstate⟩
  show (b.slots.set _ _)[b.prodSeq.physicalIndex (b.prodSeq.value + 1 + UInt64.ofNat i)]? = _
  rw [hsucc, List.getElem?_set_ne hother]
  exact hslot

/-- A reservation handed out takes one empty slot. -/
theorem reserve_room {size : Nat} {block : Bool} {res : Option Reservation}
    (h : b.reserve size block = some (res, b')) :
    b'.room + res.toList.length = b.room := by
  rcases reserve_cases h with ⟨rfl, rfl⟩ | ⟨slot, hslot, hstate, rfl, rfl⟩
  · rfl
  · exact room_taken hslot hstate

end VolatileRingBuffer

namespace Client

open VolatileRingBuffer

variable [Hasher] {s t : Client}

/-- **From an inert buffer nothing is ever read, and no slot of it becomes empty again.** -/
theorem step_inert (hs : s.buf.Inert) {call : Request} {answer : Answer}
    (h : s.step call = some (answer, t)) :
    t.buf.Inert ∧ t.buf.room ≤ s.buf.room ∧ (∀ found, answer = .records found → found = []) := by
  have hlaid : t.buf.Laid := (step_kept h).laid hs.toLaid
  cases call with
  | reserve size block =>
    obtain ⟨⟨res, buf⟩, hreserve, hres⟩ := Option.map_eq_some_iff.mp h
    obtain ⟨rfl, rfl⟩ := Prod.mk.inj hres
    have hbuf : (s.handOut (res, buf)).buf = buf := by cases res <;> rfl
    have hroom := reserve_room hreserve
    rw [hbuf] at hlaid ⊢
    refine ⟨⟨hlaid, ?_⟩, by omega, fun found hfound => by cases hfound⟩
    rcases reserve_cases hreserve with ⟨-, rfl⟩ | ⟨slot, -, -, rfl, -⟩
    · exact hs.quiet
    · exact hs.quiet.taken
  | fill i header data =>
    obtain ⟨r, -, hrest⟩ := Option.bind_eq_some_iff.mp h
    obtain ⟨r', -, hres⟩ := Option.map_eq_some_iff.mp hrest
    obtain ⟨rfl, rfl⟩ := Prod.mk.inj hres
    exact ⟨hs, le_rfl, fun found hfound => by cases hfound⟩
  | commit i =>
    obtain ⟨r, -, hrest⟩ := Option.bind_eq_some_iff.mp h
    obtain ⟨res, -, hres⟩ := Option.map_eq_some_iff.mp hrest
    obtain ⟨rfl, rfl⟩ := Prod.mk.inj hres
    exact ⟨⟨hlaid, hs.quiet⟩, le_rfl, fun found hfound => by cases hfound⟩
  | drop i =>
    obtain ⟨r, -, hrest⟩ := Option.bind_eq_some_iff.mp h
    obtain ⟨b', -, hres⟩ := Option.map_eq_some_iff.mp hrest
    obtain ⟨rfl, rfl⟩ := Prod.mk.inj hres
    exact ⟨hs, le_rfl, fun found hfound => by cases hfound⟩
  | write record =>
    obtain ⟨⟨ok, buf⟩, hwrite, hres⟩ := Option.map_eq_some_iff.mp h
    obtain ⟨rfl, rfl⟩ := Prod.mk.inj hres
    rcases write_cases hwrite with ⟨-, queue, rfl⟩ | ⟨slot, hslot, hstate, -, signal, rfl⟩
    · exact ⟨⟨hlaid, hs.quiet⟩, le_rfl, fun found hfound => by cases hfound⟩
    · exact ⟨⟨hlaid, hs.quiet.taken⟩, Nat.le_of_succ_le (room_taken hslot hstate).le,
        fun found hfound => by cases hfound⟩
  | read =>
    rw [step, read_of_quiet hs.toShaped hs.quiet] at h
    obtain ⟨rfl, rfl⟩ := Prod.mk.inj (Option.some.inj h)
    exact ⟨hs, le_rfl, fun found hfound => (Answer.records.inj hfound).symm⟩

/-- The first call that takes a slot of a buffer whose next slot is empty leaves less room. -/
theorem step_takes (hs : s.buf.Inert) {slot : Slot}
    (hslot : s.buf.slots[s.buf.prodSeq.physicalIndex s.buf.prodSeq.value]? = some slot)
    (hstate : slot.state = .empty) {call : Request} {answer : Answer} (hcall : call.Takes)
    (h : s.step call = some (answer, t)) : t.buf.room < s.buf.room := by
  have hroom := room_taken hslot hstate
  cases call with
  | reserve size block =>
    obtain ⟨⟨res, buf⟩, hreserve, hres⟩ := Option.map_eq_some_iff.mp h
    obtain ⟨rfl, rfl⟩ := Prod.mk.inj hres
    obtain ⟨-, rfl⟩ := reserve_takes hslot hstate hs.maxSpins_pos hreserve
    have hbuf : (s.handOut (res, s.buf.taken)).buf = s.buf.taken := by cases res <;> rfl
    rw [hbuf]
    omega
  | write record =>
    obtain ⟨⟨ok, buf⟩, hwrite, hres⟩ := Option.map_eq_some_iff.mp h
    obtain ⟨rfl, rfl⟩ := Prod.mk.inj hres
    obtain ⟨⟨res, b₁⟩, hreserve, hrest⟩ := Option.bind_eq_some_iff.mp hwrite
    obtain ⟨hres, rfl⟩ := reserve_takes hslot hstate hs.maxSpins_pos hreserve
    obtain ⟨reservation, rfl⟩ := Option.isSome_iff_exists.mp hres
    obtain ⟨b₂, hfill, hres⟩ := Option.map_eq_some_iff.mp hrest
    obtain ⟨-, rfl⟩ := Prod.mk.inj hres
    obtain ⟨signal, rfl⟩ := fill_eq hfill
    show s.buf.taken.room < s.buf.room
    omega
  | fill | commit | drop | read => exact hcall.elim

/-! ## Reserving one slot after the other -/

/-- **Each reservation takes a slot.** -/
theorem room_of_reserves {sizes : List Nat} :
    ∀ {s t : Client} {answers : List Answer},
      s.run (sizes.map fun size => .reserve size false) = some (answers, t) →
        (∀ answer ∈ answers, ∃ slotIdx, answer = .reserved (some slotIdx)) →
          t.buf.room + sizes.length = s.buf.room := by
  induction sizes with
  | nil =>
    intro s t answers h _
    obtain ⟨-, rfl⟩ := Prod.mk.inj (Option.some.inj h)
    rfl
  | cons size sizes ih =>
    intro s t answers h hall
    obtain ⟨answer, s', answers', hstep, hrun, rfl⟩ := Machine.run_cons_eq_some.mp h
    have hrest := ih hrun fun a ha => hall a (List.mem_cons_of_mem _ ha)
    obtain ⟨slotIdx, hanswer⟩ := hall answer (List.mem_cons_self ..)
    obtain ⟨⟨res, buf⟩, hreserve, hres⟩ := Option.map_eq_some_iff.mp hstep
    obtain ⟨rfl, rfl⟩ := Prod.mk.inj hres
    obtain ⟨r, rfl, -⟩ := Option.map_eq_some_iff.mp (Answer.reserved.inj hanswer)
    have hroom : buf.room + 1 = s.buf.room := reserve_room hreserve
    have hbuf : (s.handOut (some r, buf)).buf = buf := rfl
    rw [hbuf] at hrest
    rw [List.length_cons]
    omega

/-- **On empty slots one reservation after the other succeeds.** -/
theorem reserves_succeed {sizes : List Nat} :
    ∀ {s : Client}, s.buf.Laid → sizes.length ≤ s.buf.capacity → s.buf.EmptyAhead sizes.length →
      (∀ size ∈ sizes, size + RecordHeader.SIZE ≤ s.buf.slotSize) →
        ∃ answers t, s.run (sizes.map fun size => .reserve size false) = some (answers, t) ∧
          ∀ answer ∈ answers, ∃ slotIdx, answer = .reserved (some slotIdx) := by
  induction sizes with
  | nil => exact fun {s} _ _ _ _ => ⟨[], s, rfl, by simp⟩
  | cons size sizes ih =>
    intro s hs hlen hempty hfits
    rw [List.length_cons] at hlen hempty
    have hlt := hs.capacity_mul_lt
    have hle : s.buf.slotSize ≤ s.buf.capacity * s.buf.slotSize :=
      Nat.le_mul_of_pos_left _ (by omega)
    obtain ⟨slot, hslot, hstate⟩ := hempty.next
    have hreserve := reserve_of_empty hs.toShaped (hfits size (List.mem_cons_self ..))
      (by omega) hslot hstate
    let r : Reservation :=
      { slotIdx := s.buf.prodSeq.physicalIndex s.buf.prodSeq.value, seq := s.buf.prodSeq.value,
        size := size + RecordHeader.SIZE, buffer := s.buf.clone, committed := false }
    obtain ⟨answers, t, hrun, hall⟩ := ih (s := s.handOut (some r, s.buf.taken))
      (s.buf.kept_taken.laid hs) (Nat.le_of_succ_le hlen) (hempty.taken hs hlen)
      fun size' hmem => hfits size' (List.mem_cons_of_mem _ hmem)
    refine ⟨.reserved (some r.slotIdx) :: answers, t, ?_, ?_⟩
    · refine Machine.run_cons_eq_some.mpr ⟨_, _, answers, ?_, hrun, rfl⟩
      rw [step, hreserve]
      rfl
    · intro answer hmem
      rcases List.mem_cons.mp hmem with rfl | hmem
      · exact ⟨_, rfl⟩
      · exact hall answer hmem

end Client

namespace VolatileRingBuffer

variable {b : VolatileRingBuffer} {capacity : Nat}

theorem inert_of_new (hnew : new capacity = some b) : b.Inert :=
  ⟨laid_of_new hnew, (quiet_of_new hnew).1⟩

/-- In a new buffer every slot is empty. -/
theorem room_of_new (hnew : new capacity = some b) : b.room = b.capacity := by
  rw [← (laid_of_new hnew).length_slots]
  refine List.countP_eq_length.mpr fun slot hslot => ?_
  exact decide_eq_true ((quiet_of_new hnew).2.2 slot hslot)

theorem emptyAhead_of_new (hnew : new capacity = some b) (n : Nat) : b.EmptyAhead n := by
  intro i _
  obtain ⟨slot, hmem, hslot⟩ := (laid_of_new hnew).exists_slot
    ((laid_of_new hnew).prod_lt (b.prodSeq.value + UInt64.ofNat i))
  exact ⟨slot, hslot, (quiet_of_new hnew).2.2 slot hmem⟩

end VolatileRingBuffer

namespace Account

open VolatileRingBuffer

variable {s t : Account} {b : VolatileRingBuffer}

/-- What is committed is owed. -/
theorem commits_owed (hs : s.owed = s.late) (records : List Record) :
    (s.commits records).owed = (s.commits records).late := by
  unfold commits
  split
  · exact congrArg (· ++ records) hs
  · exact hs

/-- Without a read that finds something, what has been committed late stays owed. -/
theorem note_owed (hs : s.owed = s.late) {call : Request} {answer : Answer}
    (hanswer : ∀ found, answer = .records found → found = []) :
    (s.note call answer).owed = (s.note call answer).late := by
  unfold note
  split
  · exact hs
  · exact hs
  · exact commits_owed hs _
  · exact hs
  · exact commits_owed hs _
  · next found => rw [hanswer found rfl, List.diff_nil, hs]
  · exact hs

/-- Nothing can be read, and what has been committed late is owed. -/
structure Stuck (s : Account) : Prop where
  inert : s.client.buf.Inert
  owed_eq : s.owed = s.late

theorem stuck_start {capacity : Nat} (hnew : new capacity = some b) : (start b).Stuck :=
  ⟨inert_of_new hnew, rfl⟩

section

variable [Hasher]

theorem step_eq_some {call : Request} {answer : Answer} (h : s.step call = some (answer, t)) :
    s.client.step call = some (answer, t.client) ∧
      t = { s.note call answer with client := t.client } := by
  obtain ⟨⟨answer', client⟩, hstep, hres⟩ := Option.map_eq_some_iff.mp h
  obtain ⟨rfl, rfl⟩ := Prod.mk.inj hres
  exact ⟨hstep, rfl⟩

theorem Stuck.step (hs : s.Stuck) {call : Request} {answer : Answer}
    (h : s.step call = some (answer, t)) :
    t.Stuck ∧ t.client.buf.room ≤ s.client.buf.room := by
  obtain ⟨hstep, ht⟩ := step_eq_some h
  obtain ⟨hinert, hroom, hfound⟩ := Client.step_inert hs.inert hstep
  have howed : (s.note call answer).owed = (s.note call answer).late :=
    note_owed hs.owed_eq hfound
  refine ⟨⟨hinert, ?_⟩, hroom⟩
  rw [ht]
  exact howed

/-- **In no run does a slot become empty again.** -/
theorem Stuck.run (hs : s.Stuck) {calls : List Request} {answers : List Answer}
    (h : s.run calls = some (answers, t)) :
    t.Stuck ∧ t.client.buf.room ≤ s.client.buf.room := by
  refine Machine.run_preserves
    (I := fun u : Account => u.Stuck ∧ u.client.buf.room ≤ s.client.buf.room) ?_
    ⟨hs, le_rfl⟩ h
  intro u call answer u' hu hstep
  obtain ⟨hstuck, hroom⟩ := hu.1.step hstep
  exact ⟨hstuck, hroom.trans hu.2⟩

theorem shape_run {capacity : Nat} (hnew : new capacity = some b) {calls : List Request}
    {answers : List Answer} (h : (start b).run calls = some (answers, t)) :
    t.client.buf.capacity = b.capacity ∧ t.client.buf.slotSize = 256 := by
  have hkept := Machine.run_preserves (I := fun u : Account => b.Kept u.client.buf)
    (fun u call answer u' hu hstep => hu.trans (step_kept (step_eq_some hstep).1))
    (Kept.refl b) h
  refine ⟨hkept.capacity, hkept.slotSize.trans ?_⟩
  rw [(new_eq_some hnew).1]
  rfl

/-- Before anything is taken every call leaves everything as it is. -/
theorem step_start (hb : b.Inert) {call : Request} (hcall : ¬ call.Takes) {answer : Answer}
    (h : (start b).step call = some (answer, t)) : t = start b := by
  cases call with
  | reserve | write => exact absurd trivial hcall
  | fill | commit | drop => cases h
  | read =>
    have hread : (Client.start b).buf.read = some ([], b) := read_of_quiet hb.toShaped hb.quiet
    obtain ⟨hstep, ht⟩ := step_eq_some h
    rw [show (start b).client = Client.start b from rfl, Client.step, hread] at hstep
    obtain ⟨rfl, hclient⟩ := Prod.mk.inj (Option.some.inj hstep)
    rw [ht, ← hclient]
    rfl

theorem run_start (hb : b.Inert) {calls : List Request} (hcalls : ∀ call ∈ calls, ¬ call.Takes)
    {answers : List Answer} (h : (start b).run calls = some (answers, t)) : t = start b := by
  induction calls generalizing answers with
  | nil => exact (Prod.mk.inj (Option.some.inj h)).2.symm
  | cons call calls ih =>
    obtain ⟨answer, s', answers', hstep, hrun, rfl⟩ := Machine.run_cons_eq_some.mp h
    obtain rfl := step_start hb (hcalls call (List.mem_cons_self ..)) hstep
    exact ih (fun call' hmem => hcalls call' (List.mem_cons_of_mem _ hmem)) hrun

/-- **What is taken is gone**: once a run has called `reserve` or `write`, not all the slots
are empty any more. -/
theorem run_takes {capacity : Nat} (hnew : new capacity = some b) {calls : List Request}
    (hcalls : ∃ call ∈ calls, call.Takes) {answers : List Answer}
    (h : (start b).run calls = some (answers, t)) : t.client.buf.room < b.capacity := by
  have hb := inert_of_new hnew
  induction calls generalizing answers with
  | nil => simp at hcalls
  | cons call calls ih =>
    obtain ⟨answer, s', answers', hstep, hrun, rfl⟩ := Machine.run_cons_eq_some.mp h
    by_cases hcall : call.Takes
    · obtain ⟨slot, hslot, hstate⟩ := (emptyAhead_of_new hnew 1).next
      have hless := Client.step_takes (s := Client.start b) hb hslot hstate hcall
        (step_eq_some hstep).1
      have hroom := ((stuck_start hnew).step hstep).1.run hrun
      have hfirst : (Client.start b).buf.room = b.capacity := room_of_new hnew
      omega
    · obtain rfl := step_start hb hcall hstep
      refine ih ?_ hrun
      obtain ⟨call', hmem, htakes⟩ := hcalls
      rcases List.mem_cons.mp hmem with rfl | hmem
      · exact absurd htakes hcall
      · exact ⟨call', hmem, htakes⟩

/-- Reads alone pay nothing back. -/
theorem Stuck.run_reads (hs : s.Stuck) (n : Nat) :
    ∃ answers, s.run (List.replicate n .read) = some (answers, s) := by
  have hstep : s.step .read = some (.records [], s) := by
    rw [Account.step, Client.step, read_of_quiet hs.inert.toShaped hs.inert.quiet]
    rfl
  induction n with
  | zero => exact ⟨[], rfl⟩
  | succ n ih =>
    obtain ⟨answers, hrun⟩ := ih
    exact ⟨_, Machine.run_cons_eq_some.mpr ⟨_, s, answers, hstep, hrun, rfl⟩⟩

theorem Stuck.repays_iff (hs : s.Stuck) : s.Repays ↔ s.late = [] := by
  rw [← hs.owed_eq]
  constructor
  · rintro ⟨n, answers, t, hrun, howed⟩
    obtain ⟨answers', hsame⟩ := hs.run_reads n
    obtain ⟨-, rfl⟩ := Prod.mk.inj (Option.some.inj (hrun.symm.trans hsame))
    exact howed
  · exact fun howed => ⟨0, [], s, rfl, howed⟩

/-- With less room than slots, not as many reservations as there are slots succeed. -/
theorem Stuck.not_givesBack (hs : s.Stuck) (hsettled : s.Settled)
    (hslot : RecordHeader.SIZE ≤ s.client.buf.slotSize)
    (hroom : s.client.buf.room < s.client.buf.capacity) : ¬ s.GivesBack := by
  intro hgives
  have hread := read_of_quiet hs.inert.toShaped hs.inert.quiet
  obtain ⟨answers, t, hrun, hall⟩ := hgives hsettled s.client.buf hread
    (List.replicate s.client.buf.capacity 0) List.length_replicate
    (fun size hmem => by rw [List.eq_of_mem_replicate hmem]; omega)
  have htaken : t.buf.room + (List.replicate s.client.buf.capacity 0).length =
      s.client.buf.room := Client.room_of_reserves hrun hall
  rw [List.length_replicate] at htaken
  omega

/-- In a new buffer there is a slot for everybody. -/
theorem givesBack_start {capacity : Nat} (hnew : new capacity = some b) :
    (start b).GivesBack := by
  intro _ buf hread sizes hlen hfits
  have hb := inert_of_new hnew
  have hquiet : (start b).client.buf.read = some ([], b) := read_of_quiet hb.toShaped hb.quiet
  obtain ⟨-, rfl⟩ := Prod.mk.inj (Option.some.inj (hquiet.symm.trans hread))
  exact Client.reserves_succeed (s := { (start b).client with buf := b }) hb.toLaid hlen.le
    (emptyAhead_of_new hnew _) hfits

/-- **Abandoned reservations cost the others nothing exactly when nobody takes a slot**: for
every capacity that can be had, and every run that comes back.  When every reservation has
been committed or dropped, space is given back only if the run has never called `reserve` or
`write`; and a record committed after a drop is never read. -/
theorem costs_nothing_iff (capacity : Nat) (b : VolatileRingBuffer) (hnew : new capacity = some b)
    (calls : List Request) (answers : List Answer) (t : Account)
    (hrun : (start b).run calls = some (answers, t)) :
    (t.GivesBack ∧ t.Repays) ↔
      (t.Settled → ∀ call ∈ calls, ¬ call.Takes) ∧ t.late = [] := by
  have hstuck := ((stuck_start hnew).run hrun).1
  rw [hstuck.repays_iff]
  refine and_congr_left fun _ => ?_
  constructor
  · intro hgives hsettled call hmem htakes
    have hroom := run_takes hnew ⟨call, hmem, htakes⟩ hrun
    obtain ⟨hcap, hslot⟩ := shape_run hnew hrun
    exact hstuck.not_givesBack hsettled (by rw [hslot]; decide) (by rw [hcap]; exact hroom) hgives
  · intro hnone hsettled
    obtain rfl := run_start (inert_of_new hnew) (hnone hsettled) hrun
    exact givesBack_start hnew hsettled

end

section Ieee

attribute [local instance] Hasher.ieee

/-- A buffer of two slots: one is reserved and dropped, a record is written to the other.
Neither slot is given back, and no read will ever return the record. -/
theorem abandoned_costs_both :
    ∃ b answers t, VolatileRingBuffer.new 2 = some b ∧
      (start b).run [.reserve 0 false, .drop 0, .write (Record.new [1] 7 0)] = some (answers, t) ∧
      answers = [.reserved (some 0), .done, .wrote true] ∧ t.Settled ∧
      t.late = [Record.new [1] 7 0] ∧ ¬ t.GivesBack ∧ ¬ t.Repays := by
  have hsome : (VolatileRingBuffer.new 2).isSome = true := by decide +kernel
  obtain ⟨b, hnew⟩ := Option.isSome_iff_exists.mp hsome
  have hparts : ((VolatileRingBuffer.new 2).bind fun b =>
      (start b).run [.reserve 0 false, .drop 0, .write (Record.new [1] 7 0)]).map
        (fun res => (res.1, res.2.client.held.map Option.isSome, res.2.late)) =
      some ([.reserved (some 0), .done, .wrote true], [false], [Record.new [1] 7 0]) := by
    decide +kernel
  rw [hnew, Option.bind_some] at hparts
  obtain ⟨⟨answers, t⟩, hrun, hres⟩ := Option.map_eq_some_iff.mp hparts
  simp only [Prod.mk.injEq] at hres
  obtain ⟨hanswers, hheld, hlate⟩ := hres
  have hstuck := ((stuck_start hnew).run hrun).1
  have hsettled : t.Settled := by
    intro i
    rw [Client.holding]
    rcases hi : t.client.held[i]? with _ | _ | r
    · rfl
    · rfl
    · have hmem := List.mem_map_of_mem (f := Option.isSome) (List.mem_of_getElem? hi)
      rw [hheld] at hmem
      simp at hmem
  have hroom := run_takes hnew ⟨.reserve 0 false, List.mem_cons_self .., trivial⟩ hrun
  obtain ⟨hcap, hslot⟩ := shape_run hnew hrun
  refine ⟨b, answers, t, hnew, hrun, hanswers, hsettled, hlate, ?_, ?_⟩
  · exact hstuck.not_givesBack hsettled (by rw [hslot]; decide) (by rw [hcap]; exact hroom)
  · rw [hstuck.repays_iff, hlate]
    exact List.cons_ne_nil _ _

/-- Reading alone costs nobody anything, and neither does a reservation as long as it is held. -/
theorem reads_cost_nothing :
    (∃ b answers t, VolatileRingBuffer.new 2 = some b ∧
      (start b).run [.read, .read] = some (answers, t) ∧ t.GivesBack ∧ t.Repays) ∧
    ∃ b answers t, VolatileRingBuffer.new 2 = some b ∧
      (start b).run [.reserve 0 false, .read] = some (answers, t) ∧
      answers = [.reserved (some 0), .records []] ∧ ¬ t.Settled ∧ t.GivesBack ∧ t.Repays := by
  have hsome : (VolatileRingBuffer.new 2).isSome = true := by decide +kernel
  obtain ⟨b, hnew⟩ := Option.isSome_iff_exists.mp hsome
  constructor
  · obtain ⟨answers, hrun⟩ := (stuck_start hnew).run_reads 2
    refine ⟨b, answers, start b, hnew, hrun, ?_⟩
    refine (costs_nothing_iff 2 b hnew [.read, .read] answers (start b) hrun).mpr ⟨?_, rfl⟩
    intro _ call hmem
    simp only [List.mem_cons, List.not_mem_nil, or_false, or_self] at hmem
    rw [hmem]
    exact id
  · have hparts : ((VolatileRingBuffer.new 2).bind fun b =>
        (start b).run [.reserve 0 false, .read]).map
          (fun res => (res.1, res.2.client.held.map Option.isSome, res.2.late)) =
        some ([.reserved (some 0), .records []], [true], []) := by
      decide +kernel
    rw [hnew, Option.bind_some] at hparts
    obtain ⟨⟨answers, t⟩, hrun, hres⟩ := Option.map_eq_some_iff.mp hparts
    simp only [Prod.mk.injEq] at hres
    obtain ⟨hanswers, hheld, hlate⟩ := hres
    have hopen : ¬ t.Settled := by
      intro hsettled
      obtain ⟨r, hr⟩ : ∃ r, t.client.held = [some r] := by
        rcases hlist : t.client.held with _ | ⟨_ | r, _ | _⟩ <;> rw [hlist] at hheld <;>
          simp at hheld
        exact ⟨r, rfl⟩
      have hfirst := hsettled 0
      rw [Client.holding, hr] at hfirst
      cases hfirst
    refine ⟨b, answers, t, hnew, hrun, hanswers, hopen, ?_⟩
    exact (costs_nothing_iff 2 b hnew _ answers t hrun).mpr ⟨fun h => absurd h hopen, hlate⟩

end Ieee

end Account

end Sherlog
