import Sherlog.Lib.Machine
import Sherlog.Memory.Exclusive

/-!
# How long a volatile buffer lasts

A slot that has been taken is never given back to the buffer itself, so a buffer has as many
reservations to give as it has slots, over its whole life.

* `Contention.Ordered.length_granted_le` — no more are ever granted;
  `Contention.Ordered.takes_eq_none` — with all of them granted, no thread holds a number.
* `Contention.Silent` — no read has found a record, and the queue holds the newest of the
  records that the writes have put there; `Silent.step` — every turn keeps it.
* `Contention.lifetime` — what becomes of a buffer, for any number of threads and every order of
  turns.
-/

namespace Sherlog

open VolatileRingBuffer

namespace Contention

variable {ι : Type*} {s : Contention ι}

/-! ## The reservations there are -/

/-- The numbers granted. -/
def numbers (s : Contention ι) : Finset Nat := (s.granted.map fun x => x.2.toNat).toFinset

theorem Ordered.card_numbers (hs : s.Ordered) : s.numbers.card = s.granted.length := by
  rw [numbers, List.toFinset_card_of_nodup, List.length_map]
  have hmap : s.granted.map (fun x => x.2.toNat) =
      (s.granted.map Prod.snd).map UInt64.toNat := by
    rw [List.map_map]
    rfl
  rw [hmap]
  exact hs.nodup.map fun _ _ => UInt64.toNat_inj.mp

theorem Ordered.numbers_subset (hs : s.Ordered) : s.numbers ⊆ Finset.range s.buf.capacity := by
  intro n hn
  obtain ⟨x, hx, rfl⟩ := List.mem_map.mp (List.mem_toFinset.mp hn)
  exact Finset.mem_range.mpr (Nat.lt_of_lt_of_le (hs.granted x hx).2 hs.filling.prodSeq_le)

/-- **No more reservations are granted than there are slots.** -/
theorem Ordered.length_granted_le (hs : s.Ordered) : s.granted.length ≤ s.buf.capacity := by
  rw [← hs.card_numbers, ← Finset.card_range s.buf.capacity]
  exact Finset.card_le_card hs.numbers_subset

/-- With all of them granted no thread has taken another. -/
theorem Ordered.takes_eq_none (hs : s.Ordered) (hfull : s.granted.length = s.buf.capacity) (i : ι) :
    takes s.calls i = none := by
  have hall : s.numbers = Finset.range s.buf.capacity :=
    Finset.eq_of_subset_of_card_le hs.numbers_subset
      (by rw [Finset.card_range, hs.card_numbers, hfull])
  rcases htakes : takes s.calls i with _ | seq
  · rfl
  · have hmem : seq.toNat ∈ s.numbers := by
      rw [hall]
      exact Finset.mem_range.mpr (hs.takes_lt htakes)
    obtain ⟨x, hx, heq⟩ := List.mem_map.mp (List.mem_toFinset.mp hmem)
    exact absurd (List.mem_map.mpr ⟨x, hx, UInt64.toNat_inj.mp heq⟩) (hs.fresh i seq htakes)

/-- And every slot is taken. -/
theorem Ordered.reserved_of_full (hs : s.Ordered) (hfull : s.granted.length = s.buf.capacity)
    {slotIdx : Nat} {slot : Slot} (hslot : s.buf.slots[slotIdx]? = some slot) :
    slot.state = .reserved := by
  have hall : s.numbers = Finset.range s.buf.capacity :=
    Finset.eq_of_subset_of_card_le hs.numbers_subset
      (by rw [Finset.card_range, hs.card_numbers, hfull])
  obtain ⟨hlt, -⟩ := List.getElem?_eq_some_iff.mp hslot
  rw [hs.filling.length_slots] at hlt
  have hmem : slotIdx ∈ s.numbers := hall ▸ Finset.mem_range.mpr hlt
  obtain ⟨x, hx, rfl⟩ := List.mem_map.mp (List.mem_toFinset.mp hmem)
  exact hs.filling.below _ (hs.granted x hx).2 slot hslot

/-! ## What a turn leaves behind -/

variable {b b' : VolatileRingBuffer}

/-- An access of `reserve` comes nowhere near the queue. -/
theorem does_queue {call : ReserveCall} {res : Reserving} (h : call.Does b (res, b')) :
    b'.overflowQueue = b.overflowQueue ∧ b'.maxOverflow = b.maxOverflow := by
  cases h <;> exact ⟨rfl, rfl⟩

/-- The records that the writers queue. -/
def queued (turns : List (Turn ι)) : List Record :=
  turns.filterMap fun
    | .enqueue record => some record
    | _ => none

/-- Whether a turn is that of a producer with a reservation. -/
def Turn.reserving : Turn ι → Bool
  | .enqueue _ | .read | .readOn => false
  | _ => true

/-- The newest of the records, as many as there is room for. -/
def newest (maxOverflow : Nat) (records : List Record) : List Record :=
  records.drop (records.length - maxOverflow)

/-- Queuing a record keeps the newest. -/
theorem newest_enqueue {records : List Record} (hmax : 0 < b.maxOverflow)
    (hqueue : b.overflowQueue = newest b.maxOverflow records) (record : Record) :
    (b.enqueue record).overflowQueue = newest b.maxOverflow (records ++ [record]) := by
  have hlength : b.overflowQueue.length = min records.length b.maxOverflow := by
    rw [hqueue, newest, List.length_drop]
    omega
  rw [newest, List.length_append, List.length_singleton, enqueue]
  split
  · next hroom =>
    have hall : records.length < b.maxOverflow := by omega
    rw [show records.length + 1 - b.maxOverflow = 0 by omega, List.drop_zero]
    show b.overflowQueue ++ [record] = _
    rw [hqueue, newest, show records.length - b.maxOverflow = 0 by omega, List.drop_zero]
  · next hfull =>
    have hmore : records.length - b.maxOverflow < records.length := by omega
    split
    · next hnil =>
      rw [hnil] at hlength
      exact absurd hlength (by simp only [List.length_nil]; omega)
    · next oldest queue hcons =>
      show queue ++ [record] = _
      have htail : queue = records.drop (records.length - b.maxOverflow + 1) := by
        have hdrop := congrArg (List.drop 1) (hcons.symm.trans hqueue)
        rwa [List.drop_one, List.tail_cons, newest, List.drop_drop] at hdrop
      rw [show records.length + 1 - b.maxOverflow = records.length - b.maxOverflow + 1 by omega,
        List.drop_append_of_le_length (by omega), htail]

/-! ## Any order of turns -/

/-- No read has found a record, and the queue holds the newest of those queued. -/
structure Silent (maxOverflow : Nat) (records : List Record) (s : Contention ι) : Prop where
  ordered : s.Ordered
  found : ∀ call, s.reading = some call → call.records = []
  maxOverflow_eq : s.buf.maxOverflow = maxOverflow
  queue : s.buf.overflowQueue = newest maxOverflow records

/-- A buffer freshly created, with nobody at it. -/
theorem silent_start {capacity : Nat} {b : VolatileRingBuffer} (hnew : new capacity = some b) :
    0 < b.maxOverflow ∧ Silent b.maxOverflow [] (start b : Contention ι) := by
  obtain ⟨hblank, -⟩ := new_eq_some hnew
  refine ⟨by rw [hblank]; exact Nat.zero_lt_succ _, ordered_start hnew, by rintro _ ⟨⟩, rfl, ?_⟩
  show b.overflowQueue = newest b.maxOverflow []
  rw [hblank]
  exact List.drop_nil.symm

section

variable {maxOverflow : Nat} {records : List Record}

/-- The signal is no part of it. -/
theorem Silent.signal (hs : Silent maxOverflow records s) (consumerSignal : Bool) :
    Silent maxOverflow records { s with buf := { s.buf with consumerSignal } } :=
  { hs with ordered := (hs.ordered.around consumerSignal s.buf.overflowQueue).ordered }

variable [Hasher]

/-- The consumer finds nothing, and comes back with nothing. -/
theorem Silent.readOn (hs : Silent maxOverflow records s) {call : ReadCall}
    (hcall : s.reading = some call) :
    (∀ found buf, call.turn s.buf = some (.returns found, buf) → found = []) ∧
      Silent maxOverflow records (s.readOn (call.turn s.buf)) := by
  have hordered := (hs.ordered.readOn hcall).ordered
  obtain ⟨hprocessed, hpc⟩ := hs.ordered.reading call hcall
  have hfound := hs.found call hcall
  obtain ⟨left, consSeq, found, processed, pc⟩ := call
  obtain rfl : found = [] := hfound
  obtain rfl : processed = 0 := hprocessed
  have hon : ∀ {left consSeq pc},
      (⟨left, consSeq, [], 0, pc⟩ : ReadCall).records = [] := rfl
  rcases hpc with rfl | rfl | rfl
  · exact ⟨by rintro _ _ ⟨⟩, hordered, by rintro _ ⟨⟩; rfl, hs.maxOverflow_eq, hs.queue⟩
  · rcases hturn : (⟨left, consSeq, [], 0, .look⟩ : ReadCall).turn s.buf with _ | ⟨out, buf⟩
    · rw [hturn] at hordered
      exact ⟨by rintro _ _ ⟨⟩, hordered, by rintro _ ⟨⟩, hs.maxOverflow_eq, hs.queue⟩
    · rw [hturn] at hordered
      obtain ⟨pc, heq⟩ : ∃ pc, (out, buf) = (.goesOn ⟨left, consSeq, [], 0, pc⟩, s.buf) := by
        cases left with
        | zero => exact ⟨.store, (Option.some.inj hturn).symm⟩
        | succ left =>
          obtain ⟨slot, -, hout⟩ := Option.map_eq_some_iff.mp hturn
          exact ⟨_, hout.symm⟩
      obtain ⟨rfl, rfl⟩ := Prod.mk.inj heq
      exact ⟨by rintro _ _ ⟨⟩, hordered, by rintro _ ⟨⟩; rfl, hs.maxOverflow_eq, hs.queue⟩
  · exact ⟨by rintro _ _ ⟨⟩; rfl, hordered, by rintro _ ⟨⟩, hs.maxOverflow_eq, hs.queue⟩

variable [DecidableEq ι]

/-- What the producers do with their reservations leaves the queue and the consumer alone. -/
theorem Ordered.step_apart (hs : s.Ordered) {turn : Turn ι} (h : turn.reserving = true) :
    (s.step turn).reading = s.reading ∧
      (s.step turn).buf.overflowQueue = s.buf.overflowQueue ∧
      (s.step turn).buf.maxOverflow = s.buf.maxOverflow := by
  cases turn with
  | reserve i size block =>
    rw [Contention.step]
    split <;> exact ⟨rfl, rfl, rfl⟩
  | access i =>
    rw [Contention.step]
    split
    · exact ⟨rfl, rfl, rfl⟩
    · next call hcall =>
      rcases hturn : call.turn s.buf with _ | ⟨res, buf⟩
      · exact ⟨rfl, rfl, rfl⟩
      · have hqueue :=
          does_queue (ReserveCall.turn_cases hs.filling (hs.timely i call hcall) hturn)
        rcases res with call' | _ | r <;> exact ⟨rfl, hqueue⟩
  | fill k header data =>
    rw [Contention.step]
    split <;> exact ⟨rfl, rfl, rfl⟩
  | commit k =>
    rw [Contention.step]
    split <;> exact ⟨rfl, rfl, rfl⟩
  | drop k => exact ⟨rfl, rfl, rfl⟩
  | enqueue | read | readOn => cases h

/-- **Every turn keeps it**, with the records that it queues. -/
theorem Silent.step (hmax : 0 < maxOverflow) (hs : Silent maxOverflow records s)
    (turn : Turn ι) : Silent maxOverflow (records ++ queued [turn]) (s.step turn) := by
  have hordered := (hs.ordered.step turn).ordered
  have hapart : turn.reserving = true → Silent maxOverflow records (s.step turn) := by
    intro h
    obtain ⟨hreading, hqueue, hmax⟩ := hs.ordered.step_apart h
    exact ⟨hordered, hreading ▸ hs.found, hmax.trans hs.maxOverflow_eq, hqueue.trans hs.queue⟩
  have hnone : records ++ [] = records := List.append_nil records
  cases turn with
  | reserve | access | fill | commit | drop => exact hnone.symm ▸ hapart rfl
  | enqueue record =>
    -- the consumer never gets as far as the lock of the queue
    have hfree : ¬ s.reading.any ReadCall.locks = true := by
      intro hany
      obtain ⟨call, hcall, hlocks⟩ := (Option.any_eq_true _ _).mp hany
      rcases (hs.ordered.reading call hcall).2 with h | h | h <;>
        · rw [ReadCall.locks, h] at hlocks
          cases hlocks
    have hstep : s.step (.enqueue record) = { s with buf := s.buf.enqueue record } := if_neg hfree
    have hnewest : s.buf.overflowQueue = newest s.buf.maxOverflow records :=
      hs.maxOverflow_eq ▸ hs.queue
    have hqueue := newest_enqueue (hs.maxOverflow_eq ▸ hmax) hnewest record
    obtain ⟨queue, henqueue⟩ := s.buf.enqueue_eq record
    rw [hstep] at hordered ⊢
    refine ⟨hordered, hs.found, ?_, hs.maxOverflow_eq ▸ hqueue⟩
    rw [henqueue]
    exact hs.maxOverflow_eq
  | read =>
    refine hnone.symm ▸ ?_
    rcases hreading : s.reading with _ | call
    · have hstep : s.step .read = { s with reading := some (ReadCall.start s.buf) } := by
        simp only [Contention.step, hreading]
      rw [hstep] at hordered ⊢
      exact ⟨hordered, by rintro _ ⟨⟩; rfl, hs.maxOverflow_eq, hs.queue⟩
    · have hstep : s.step .read = s := by simp only [Contention.step, hreading]
      exact hstep.symm ▸ hs
  | readOn =>
    refine hnone.symm ▸ ?_
    rcases hreading : s.reading with _ | call
    · have hstep : s.step .readOn = s := by simp only [Contention.step, hreading]
      exact hstep.symm ▸ hs
    · have hstep : s.step .readOn = s.readOn (call.turn s.buf) := by
        simp only [Contention.step, hreading]
      exact hstep.symm ▸ (hs.readOn hreading).2

theorem Silent.run (hmax : 0 < maxOverflow) {turns : List (Turn ι)} :
    ∀ {s : Contention ι} {records : List Record}, Silent maxOverflow records s →
      Silent maxOverflow (records ++ queued turns) (s.run turns) := by
  induction turns with
  | nil =>
    intro s records hs
    exact (List.append_nil records).symm ▸ hs
  | cons turn turns ih =>
    intro s records hs
    have hqueued : queued (turn :: turns) = queued [turn] ++ queued turns := by
      rw [queued, queued, queued, ← List.filterMap_append, List.singleton_append]
    rw [hqueued, ← List.append_assoc]
    exact ih (hs.step hmax turn)

end

/-! ## A buffer that has given all it had -/

section

variable [Hasher]

omit [Hasher] in
theorem granted_accessed [DecidableEq ι] (s : Contention ι) (i : ι)
    (out : Option (Reserving × VolatileRingBuffer)) :
    s.granted <+: (s.accessed i out).granted := by
  rcases out with _ | ⟨_ | _ | r, buf⟩
  · exact List.prefix_rfl
  · exact List.prefix_rfl
  · exact List.prefix_rfl
  · exact List.prefix_append _ _

omit [Hasher] in
theorem granted_readOn (s : Contention ι) (out : Option (Reading × VolatileRingBuffer)) :
    s.granted <+: (s.readOn out).granted := by
  rcases out with _ | ⟨_ | _ | _, buf⟩
  · exact List.prefix_rfl
  · exact List.prefix_rfl
  · exact List.prefix_append _ _
  · exact List.prefix_rfl

variable [DecidableEq ι]

/-- Nothing granted is ever taken back. -/
theorem granted_step (s : Contention ι) (turn : Turn ι) : s.granted <+: (s.step turn).granted := by
  cases turn with
  | reserve | fill | commit | enqueue | read =>
    rw [Contention.step]
    split <;> exact List.prefix_rfl
  | access i =>
    rw [Contention.step]
    split
    · exact List.prefix_rfl
    · exact s.granted_accessed i _
  | drop k => exact List.prefix_rfl
  | readOn =>
    rw [Contention.step]
    split
    · exact List.prefix_rfl
    · exact s.granted_readOn _

/-- Every slot granted. -/
structure Spent (s : Contention ι) : Prop where
  ordered : s.Ordered
  full : s.granted.length = s.buf.capacity

/-- **There is nothing left to grant.** -/
theorem Spent.step (hs : s.Spent) (turn : Turn ι) :
    (s.step turn).Spent ∧ (s.step turn).granted = s.granted := by
  have hadvances := hs.ordered.step turn
  have hprefix := s.granted_step turn
  have hle := hadvances.ordered.length_granted_le
  rw [hadvances.capacity_eq, ← hs.full] at hle
  have hsame := hprefix.eq_of_length_le hle
  exact ⟨⟨hadvances.ordered, by rw [← hsame, hadvances.capacity_eq]; exact hs.full⟩, hsame.symm⟩

theorem Spent.run (hs : s.Spent) (turns : List (Turn ι)) :
    (s.run turns).Spent ∧ (s.run turns).granted = s.granted := by
  refine Machine.foldl_preserves (I := fun t : Contention ι => t.Spent ∧ t.granted = s.granted) ?_
    ⟨hs, rfl⟩ turns
  exact fun t turn ht => ⟨(ht.1.step turn).1, (ht.1.step turn).2.trans ht.2⟩

omit [Hasher] [DecidableEq ι] in
/-- Wherever a call looks, the slot is taken. -/
theorem Spent.slot (hs : s.Spent) (seq : UInt64) :
    ∃ slot, s.buf.slots[s.buf.prodSeq.physicalIndex seq]? = some slot ∧
      slot.state = .reserved := by
  have hlt : s.buf.prodSeq.physicalIndex seq < s.buf.slots.length := by
    have hb := hs.ordered.filling.toLaid
    rw [hb.length_slots, AtomicIndex.physicalIndex_eq hb.capacity_eq hb.prodMask]
    obtain ⟨n, hn⟩ := hb.capacity_eq
    exact Nat.mod_lt _ (hn ▸ Nat.two_pow_pos n)
  have hslot := List.getElem?_eq_getElem hlt
  exact ⟨_, hslot, hs.ordered.reserved_of_full hs.full hslot⟩

omit [Hasher] [DecidableEq ι] in
/-- A blocking call goes on, and leaves the buffer as it is. -/
theorem Spent.turn (hs : s.Spent) {i : ι} {call : ReserveCall} (hcall : s.calls i = some call)
    (hblock : call.block = true) :
    ∃ call', call.turn s.buf = some (.goesOn call', s.buf) ∧ call'.block = true := by
  have htaking : call.pc.taking = none := by
    have htakes := hs.ordered.takes_eq_none hs.full i
    rwa [takes, hcall] at htakes
  obtain ⟨totalSize, block, pc⟩ := call
  obtain rfl : block = true := hblock
  have hagain : ∀ spins pc, ReserveCall.again ⟨totalSize, true, pc⟩ spins =
      .goesOn ⟨totalSize, true, .load (spins + 1)⟩ :=
    fun spins pc => if_neg fun h => Bool.noConfusion h.1
  cases pc with
  | load spins =>
    by_cases hspins : spins < s.buf.maxSpins
    · exact ⟨_, if_pos hspins, rfl⟩
    · exact ⟨_, (if_neg hspins).trans (if_pos rfl), rfl⟩
  | look spins seq =>
    obtain ⟨slot, hslot, hstate⟩ := hs.slot seq
    refine ⟨⟨totalSize, true, .load (spins + 1)⟩, ?_, rfl⟩
    simp only [ReserveCall.turn, hslot, Option.map_some, hstate, reduceCtorEq, if_false, hagain]
  | exchange spins seq =>
    obtain ⟨slot, hslot, hstate⟩ := hs.slot seq
    refine ⟨⟨totalSize, true, .load (spins + 1)⟩, ?_, rfl⟩
    simp only [ReserveCall.turn, hslot, Option.map_some, Slot.tryTransition, hstate, reduceCtorEq,
      if_false, hagain]
  | storeProd seq => cases htaking
  | storeSeq seq => cases htaking

/-- So it never comes back. -/
theorem Spent.blocked (hs : s.Spent) {i : ι} {call : ReserveCall} (hcall : s.calls i = some call)
    (hblock : call.block = true) (turn : Turn ι) :
    ∃ call', (s.step turn).calls i = some call' ∧ call'.block = true := by
  have hsame : ∀ {s' : Contention ι}, s'.calls = s.calls →
      ∃ call', s'.calls i = some call' ∧ call'.block = true :=
    fun heq => ⟨call, heq ▸ hcall, hblock⟩
  cases turn with
  | reserve j size block =>
    rw [Contention.step]
    split
    · next hidle =>
      have hne : i ≠ j := by
        rintro rfl
        cases hcall.symm.trans hidle
      exact ⟨call, (Function.update_of_ne hne _ _).trans hcall, hblock⟩
    · exact hsame rfl
  | access j =>
    by_cases hj : i = j
    · subst hj
      obtain ⟨call', hturn, hblock'⟩ := hs.turn hcall hblock
      refine ⟨call', ?_, hblock'⟩
      simp only [Contention.step, hcall, hturn, accessed, Function.update_self]
    · refine ⟨call, ?_, hblock⟩
      rw [Contention.step, ← hcall]
      split
      · rfl
      · next call' _ =>
        rcases call'.turn s.buf with _ | ⟨_ | _ | r, buf⟩ <;> exact Function.update_of_ne hj _ _
  | fill | commit | enqueue | read =>
    rw [Contention.step]
    split <;> exact hsame rfl
  | drop k => exact hsame rfl
  | readOn =>
    rw [Contention.step]
    split
    · exact hsame rfl
    · next call' _ =>
      rcases call'.turn s.buf with _ | ⟨_ | _ | _, buf⟩ <;> exact hsame rfl

/-- **A buffer gives as many reservations as it has slots, and then no more.**  For every
capacity that can be had, any number of threads and every order of turns: no more
reservations are ever granted than there are slots.  Once they are, none is granted whatever
happens, and a thread in a blocking call is in one for ever.  No call of `read` ever returns a
record, and the overflow queue holds the newest of the records put there, as many as there is
room for, in their order. -/
theorem lifetime (capacity : Nat) (b : VolatileRingBuffer) (hnew : new capacity = some b)
    (turns more : List (Turn ι)) :
    let s := (start b).run turns
    let s' := s.run more
    s.granted.length ≤ b.capacity ∧
    (s.granted.length = b.capacity → s'.granted = s.granted ∧
      ∀ i call, s.calls i = some call → call.block = true →
        ∃ call', s'.calls i = some call' ∧ call'.block = true) ∧
    (∀ call found buf, s.reading = some call →
      call.turn s.buf = some (.returns found, buf) → found = []) ∧
    s.buf.overflowQueue = newest b.maxOverflow (queued turns) := by
  intro s s'
  have hadvances : (start b).Advances s := (ordered_start hnew).run turns
  have hs := hadvances.ordered
  have hcapacity : s.buf.capacity = b.capacity := hadvances.capacity_eq
  have hsilent : Silent b.maxOverflow (queued turns) s := by
    obtain ⟨hmax, hstart⟩ := silent_start (ι := ι) hnew
    exact hstart.run hmax
  refine ⟨hcapacity ▸ hs.length_granted_le, fun hfull => ?_, ?_, hsilent.queue⟩
  · have hspent : s.Spent := ⟨hs, hcapacity.symm ▸ hfull⟩
    refine ⟨(hspent.run more).2, fun i call hcall hblock => ?_⟩
    have hstays : s'.Spent ∧ ∃ call', s'.calls i = some call' ∧ call'.block = true := by
      refine Machine.foldl_preserves (I := fun t : Contention ι =>
        t.Spent ∧ ∃ call', t.calls i = some call' ∧ call'.block = true) ?_
        ⟨hspent, call, hcall, hblock⟩ more
      rintro t turn ⟨ht, call', hcall', hblock'⟩
      exact ⟨(ht.step turn).1, ht.blocked hcall' hblock' turn⟩
    exact hstays.2
  · exact fun call found buf hcall hturn => (hsilent.readOn hcall).1 found buf hturn

end

end Contention

section Ieee

attribute [local instance] Hasher.ieee

namespace Contention

/-- Two threads take both slots, and the first one asks for another. -/
def allTaken : List (Turn Bool) :=
  bothLook ++ [.access true, .access true, .access true, .access false, .access false,
    .access false, .access false, .access false, .access false, .reserve true 0 true]

theorem lifetime_of_two :
    ∃ b, VolatileRingBuffer.new 2 = some b ∧ ((start b).run allTaken).granted.length = 2 ∧
      ∀ more, (((start b).run allTaken).run more).granted.length = 2 ∧
        ∃ call, (((start b).run allTaken).run more).calls true = some call ∧
          call.block = true := by
  have htaken : (VolatileRingBuffer.new 2).map (fun b =>
      (b.capacity, ((start b).run allTaken).granted.length,
        ((start b).run allTaken).calls true)) = some (2, 2, some ⟨24, true, .load 0⟩) := by
    decide +kernel
  obtain ⟨b, hnew, hres⟩ := Option.map_eq_some_iff.mp htaken
  obtain ⟨hcapacity, hgranted, hcalls⟩ := by simpa only [Prod.mk.injEq] using hres
  refine ⟨b, hnew, hgranted, fun more => ?_⟩
  obtain ⟨-, hfull, -, -⟩ := lifetime 2 b hnew allTaken more
  obtain ⟨hsame, hblocked⟩ := hfull (hgranted.trans hcapacity.symm)
  exact ⟨by rw [hsame]; exact hgranted, hblocked true _ hcalls rfl⟩

end Contention

end Ieee

end Sherlog
