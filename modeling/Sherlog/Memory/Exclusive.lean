import Sherlog.Memory.Contention

/-!
# Reservations are exclusive

The number loaded from `prod_seq` may be stale by the time of the exchange, and `prod_seq`
is then stored without looking again.  What rules out that a stale number is stored is that
no slot ever becomes empty again: what is committed, dropped or read is never a slot of the
buffer itself.

* `VolatileRingBuffer.Filling` — the slots below `prod_seq` are taken, and none is ready.
* `ReservePc.Timely` — how far behind `prod_seq` the number of a call may be, by its next
  access; `ReserveCall.turn_cases` — all that an access can do.
* `Contention.Ordered` — the invariant: the numbers of the slots taken are all different.
* `Contention.exclusive` — so no two reservations share a slot or a sequence number,
  `prod_seq` never decreases, and it is never further ahead than there are slots.
-/

namespace Sherlog

open VolatileRingBuffer

/-! ## One access -/

/-- Slots are only ever taken. -/
structure VolatileRingBuffer.Filling (b : VolatileRingBuffer) : Prop extends b.Laid where
  consSeq_eq : b.consSeq.value = 0
  capacity_lt : b.capacity < 2 ^ 64
  prodSeq_le : b.prodSeq.value.toNat ≤ b.capacity
  quiet : ∀ slot ∈ b.slots, slot.state = .empty ∨ slot.state = .reserved
  below : ∀ slotIdx < b.prodSeq.value.toNat, ∀ slot, b.slots[slotIdx]? = some slot →
    slot.state = .reserved

/-- How late the number of a call may be. -/
def ReservePc.Timely (b : VolatileRingBuffer) : ReservePc → Prop
  | .load _ => True
  | .look _ prodSeq | .exchange _ prodSeq => prodSeq.toNat ≤ b.prodSeq.value.toNat
  | .storeProd prodSeq =>
    prodSeq = b.prodSeq.value ∧ prodSeq.toNat < b.capacity ∧
      ∀ slot, b.slots[prodSeq.toNat]? = some slot → slot.state = .reserved
  | .storeSeq prodSeq => prodSeq.toNat < b.prodSeq.value.toNat

/-- The number of the slot that a call has taken and not returned yet. -/
def ReservePc.taking : ReservePc → Option UInt64
  | .storeProd prodSeq | .storeSeq prodSeq => some prodSeq
  | _ => none

section

variable {b b' : VolatileRingBuffer} {call : ReserveCall}

/-- Below the capacity a sequence number is its own slot. -/
theorem VolatileRingBuffer.Laid.prodIndex_eq (hb : b.Laid) {seq : UInt64}
    (hlt : seq.toNat < b.capacity) : b.prodSeq.physicalIndex seq = seq.toNat := by
  rw [AtomicIndex.physicalIndex_eq hb.capacity_eq hb.prodMask, Nat.mod_eq_of_lt hlt]

/-- An empty slot is that of `prod_seq` itself, whenever the number was loaded. -/
theorem VolatileRingBuffer.Filling.eq_prodSeq (hb : b.Filling) {seq : UInt64}
    (hle : seq.toNat ≤ b.prodSeq.value.toNat) {slot : Slot}
    (hslot : b.slots[b.prodSeq.physicalIndex seq]? = some slot) (hstate : slot.state = .empty) :
    seq = b.prodSeq.value ∧ seq.toNat < b.capacity ∧
      b.prodSeq.physicalIndex seq = seq.toNat := by
  have hprod := hb.prodSeq_le
  have hpos := hb.prodMask
  have hlt : seq.toNat < b.capacity := by
    by_contra hge
    -- all the slots are taken by then, the first one too
    have hfull : seq.toNat = b.capacity := by omega
    have hidx : b.prodSeq.physicalIndex seq = 0 := by
      rw [AtomicIndex.physicalIndex_eq hb.capacity_eq hb.prodMask, hfull, Nat.mod_self]
    rw [hidx] at hslot
    rw [hb.below 0 (by omega) slot hslot] at hstate
    cases hstate
  have hidx := hb.toLaid.prodIndex_eq hlt
  refine ⟨?_, hlt, hidx⟩
  rw [hidx] at hslot
  by_contra hne
  have hless : seq.toNat < b.prodSeq.value.toNat := by
    refine Nat.lt_of_le_of_ne hle fun heq => hne ?_
    exact UInt64.toNat_inj.mp heq
  rw [hb.below _ hless slot hslot] at hstate
  cases hstate

/-- All that an access of `reserve` can do. -/
inductive ReserveCall.Does (call : ReserveCall) (b : VolatileRingBuffer) :
    Reserving × VolatileRingBuffer → Prop
  /-- Nothing yet. -/
  | looks (pc : ReservePc) : pc.Timely b → pc.taking = none → call.pc.taking = none →
      Does call b (.goesOn { call with pc }, b)
  /-- Nothing at all. -/
  | givesUp : call.pc.taking = none → Does call b (.returns none, b)
  /-- It takes the slot of `prod_seq`. -/
  | takes (slot : Slot) : call.pc.taking = none → b.prodSeq.value.toNat < b.capacity →
      b.slots[b.prodSeq.value.toNat]? = some slot → slot.state = .empty →
      Does call b (.goesOn { call with pc := .storeProd b.prodSeq.value },
        b.setSlot b.prodSeq.value.toNat { slot with state := .reserved })
  /-- It moves `prod_seq` behind the slot it has taken. -/
  | moves : call.pc = .storeProd b.prodSeq.value →
      Does call b (.goesOn { call with pc := .storeSeq b.prodSeq.value },
        { b with prodSeq := { b.prodSeq with value := b.prodSeq.value + 1 } })
  /-- It numbers the slot it has taken, and returns. -/
  | returns (seq : UInt64) (slot : Slot) (r : Reservation) : call.pc = .storeSeq seq →
      b.slots[seq.toNat]? = some slot → r.slotIdx = seq.toNat → r.seq = seq →
      Does call b (.returns (some r), b.setSlot seq.toNat { slot with seq })

theorem ReserveCall.does_again (hcall : call.pc.taking = none) (spins : Nat) :
    call.Does b (call.again spins, b) := by
  unfold again
  split
  · exact .givesUp hcall
  · exact .looks _ trivial rfl hcall

/-- **All that an access can do**, as long as its number is timely. -/
theorem ReserveCall.turn_cases (hb : b.Filling) (hcall : call.pc.Timely b)
    {out : Reserving × VolatileRingBuffer} (h : call.turn b = some out) : call.Does b out := by
  obtain ⟨totalSize, block, pc⟩ := call
  cases pc with
  | load spins =>
    simp only [turn] at h
    split at h
    · obtain rfl := Option.some.inj h
      exact .looks (.look spins b.prodSeq.value) (Nat.le_refl _) rfl rfl
    · split at h
      · obtain rfl := Option.some.inj h
        exact .looks (.load 0) trivial rfl rfl
      · obtain rfl := Option.some.inj h
        exact .givesUp rfl
  | look spins seq =>
    obtain ⟨slot, hslot, rfl⟩ := Option.map_eq_some_iff.mp h
    split
    · exact .looks (.exchange spins seq) hcall rfl rfl
    · exact does_again rfl spins
  | exchange spins seq =>
    obtain ⟨slot, hslot, rfl⟩ := Option.map_eq_some_iff.mp h
    by_cases hstate : slot.state = .empty
    · obtain ⟨rfl, hlt, hidx⟩ := hb.eq_prodSeq hcall hslot hstate
      rw [hidx] at hslot
      simp only [Slot.tryTransition, if_pos hstate, hidx]
      exact .takes slot rfl hlt hslot hstate
    · simp only [Slot.tryTransition, if_neg hstate]
      exact does_again rfl spins
  | storeProd seq =>
    obtain rfl := Option.some.inj h
    obtain ⟨rfl, -, -⟩ := hcall
    exact .moves rfl
  | storeSeq seq =>
    obtain ⟨slot, hslot, rfl⟩ := Option.map_eq_some_iff.mp h
    have hlt : seq.toNat < b.capacity := Nat.lt_of_lt_of_le hcall hb.prodSeq_le
    have hidx := hb.toLaid.prodIndex_eq hlt
    rw [hidx] at hslot
    have hkept : (b.setSlot (b.prodSeq.physicalIndex seq) { slot with seq }).prodSeq.physicalIndex
        seq = seq.toNat := hidx
    simp only [hidx]
    exact .returns seq slot _ rfl hslot hkept rfl

/-! ## What an access leaves as it is -/

theorem VolatileRingBuffer.kept_setSlot (b : VolatileRingBuffer) (slotIdx : Nat) (slot : Slot) :
    b.Kept (b.setSlot slotIdx slot) := ⟨rfl, rfl, rfl, rfl, List.length_set, rfl, rfl⟩

/-- A reserved slot stays reserved when a slot is reserved. -/
theorem VolatileRingBuffer.reserved_setSlot {slotIdx slotIdx' : Nat} {slot : Slot}
    (hstate : slot.state = .reserved)
    (h : ∀ slot', b.slots[slotIdx']? = some slot' → slot'.state = .reserved) :
    ∀ slot', (b.setSlot slotIdx slot).slots[slotIdx']? = some slot' →
      slot'.state = .reserved := by
  intro slot' hslot'
  rw [setSlot, List.getElem?_set] at hslot'
  split at hslot'
  · split at hslot'
    · rw [← Option.some.inj hslot']
      exact hstate
    · cases hslot'
  · exact h slot' hslot'

theorem VolatileRingBuffer.Filling.setSlot (hb : b.Filling) {slotIdx : Nat} {slot : Slot}
    (hstate : slot.state = .reserved) : (b.setSlot slotIdx slot).Filling where
  toLaid := (b.kept_setSlot slotIdx slot).laid hb.toLaid
  consSeq_eq := hb.consSeq_eq
  capacity_lt := hb.capacity_lt
  prodSeq_le := hb.prodSeq_le
  quiet := by
    intro slot' hslot'
    rcases List.mem_or_eq_of_mem_set hslot' with hold | rfl
    · exact hb.quiet slot' hold
    · exact Or.inr hstate
  below := fun slotIdx' hlt => reserved_setSlot hstate (hb.below slotIdx' hlt)

theorem ReservePc.Timely.setSlot {pc : ReservePc} (h : pc.Timely b) {slotIdx : Nat} {slot : Slot}
    (hstate : slot.state = .reserved) : pc.Timely (b.setSlot slotIdx slot) := by
  cases pc with
  | load | look | exchange | storeSeq => exact h
  | storeProd seq => exact ⟨h.1, h.2.1, reserved_setSlot hstate h.2.2⟩

theorem VolatileRingBuffer.filling_of_new {capacity : Nat} (hnew : new capacity = some b) :
    b.Filling := by
  have hb := laid_of_new hnew
  have hempty := (quiet_of_new hnew).2.2
  obtain ⟨hblank, -⟩ := new_eq_some hnew
  have hprod : b.prodSeq.value = 0 := by rw [hblank]; rfl
  have hslot : b.slotSize = 256 := by rw [hblank]; rfl
  refine ⟨hb, by rw [hblank]; rfl, ?_, ?_, fun slot hmem => Or.inl (hempty slot hmem), ?_⟩
  · have hlt := hb.capacity_mul_lt
    rw [hslot] at hlt
    omega
  · rw [hprod]
    exact Nat.zero_le _
  · rw [hprod]
    exact fun slotIdx hlt => absurd hlt (Nat.not_lt_zero slotIdx)

/-- The buffer with `prod_seq` moved on. -/
def VolatileRingBuffer.moved (b : VolatileRingBuffer) : VolatileRingBuffer :=
  { b with prodSeq := { b.prodSeq with value := b.prodSeq.value + 1 } }

theorem VolatileRingBuffer.Filling.toNat_moved (hb : b.Filling)
    (hlt : b.prodSeq.value.toNat < b.capacity) :
    b.moved.prodSeq.value.toNat = b.prodSeq.value.toNat + 1 := by
  have hcap := hb.capacity_lt
  show (b.prodSeq.value + 1).toNat = _
  rw [UInt64.toNat_add]
  exact Nat.mod_eq_of_lt (by show b.prodSeq.value.toNat + 1 < 2 ^ 64; omega)

theorem VolatileRingBuffer.Filling.moved (hb : b.Filling)
    (hcall : (ReservePc.storeProd b.prodSeq.value).Timely b) : b.moved.Filling where
  toLaid := (Kept.mk rfl rfl rfl rfl rfl rfl rfl : b.Kept b.moved).laid hb.toLaid
  consSeq_eq := hb.consSeq_eq
  capacity_lt := hb.capacity_lt
  prodSeq_le := by
    rw [hb.toNat_moved hcall.2.1]
    exact hcall.2.1
  quiet := hb.quiet
  below := by
    intro slotIdx hlt slot hslot
    rw [hb.toNat_moved hcall.2.1] at hlt
    rcases Nat.lt_succ_iff_lt_or_eq.mp hlt with hlt | rfl
    · exact hb.below slotIdx hlt slot hslot
    · exact hcall.2.2 slot hslot

/-- Whoever is not about to store `prod_seq` may see it move on. -/
theorem ReservePc.Timely.moved (hb : b.Filling) (hlt : b.prodSeq.value.toNat < b.capacity)
    {pc : ReservePc} (h : pc.Timely b) (hne : pc.taking ≠ some b.prodSeq.value) :
    pc.Timely b.moved := by
  have hprod := hb.toNat_moved hlt
  cases pc with
  | load => trivial
  | look spins seq | exchange spins seq =>
    show seq.toNat ≤ b.moved.prodSeq.value.toNat
    exact hprod ▸ Nat.le_succ_of_le h
  | storeProd seq => exact absurd (congrArg some h.1) hne
  | storeSeq seq =>
    show seq.toNat < b.moved.prodSeq.value.toNat
    exact hprod ▸ Nat.lt_succ_of_lt h

/-- A slot taken is at most that of `prod_seq`. -/
theorem ReservePc.Timely.of_taking {pc : ReservePc} (h : pc.Timely b) {seq : UInt64}
    (htaking : pc.taking = some seq) :
    seq.toNat < b.prodSeq.value.toNat ∨
      pc = .storeProd b.prodSeq.value ∧ seq = b.prodSeq.value := by
  cases pc with
  | load | look | exchange => cases htaking
  | storeProd seq' =>
    obtain rfl := Option.some.inj htaking
    obtain ⟨rfl, -, -⟩ := h
    exact Or.inr ⟨rfl, rfl⟩
  | storeSeq seq' =>
    obtain rfl := Option.some.inj htaking
    exact Or.inl h

end

/-! ## Any order of turns -/

namespace Contention

variable {ι : Type*}

/-- The number of the slot that a thread has taken and not returned yet. -/
def takes (calls : ι → Option ReserveCall) (i : ι) : Option UInt64 :=
  (calls i).bind fun call => call.pc.taking

/-- The numbers of the slots taken are all different, and none of them is ahead of
`prod_seq`. -/
structure Ordered (s : Contention ι) : Prop where
  filling : s.buf.Filling
  reading : ∀ call, s.reading = some call →
    call.processed = 0 ∧ (call.pc = .load ∨ call.pc = .look ∨ call.pc = .store)
  timely : ∀ i call, s.calls i = some call → call.pc.Timely s.buf
  distinct : ∀ i j seq, takes s.calls i = some seq → takes s.calls j = some seq → i = j
  fresh : ∀ i seq, takes s.calls i = some seq → seq ∉ s.granted.map Prod.snd
  granted : ∀ x ∈ s.granted, x.1 = x.2.toNat ∧ x.2.toNat < s.buf.prodSeq.value.toNat
  nodup : (s.granted.map Prod.snd).Nodup
  length_held : s.held.length = s.granted.length
  held : ∀ k r, s.holding k = some r → s.granted[k]? = some (r.slotIdx, r.seq)

theorem ordered_start {capacity : Nat} {b : VolatileRingBuffer} (hnew : new capacity = some b) :
    (start b : Contention ι).Ordered where
  filling := filling_of_new hnew
  reading := by rintro call ⟨⟩
  timely := by rintro i call ⟨⟩
  distinct := by rintro i j seq ⟨⟩
  fresh := by rintro i seq ⟨⟩
  granted := by rintro x ⟨⟩
  nodup := List.nodup_nil
  length_held := rfl
  held := by
    intro k r h
    simp [holding, start] at h

variable {s : Contention ι}

/-- No thread has taken the slot of `prod_seq`, as long as it is empty. -/
theorem Ordered.takes_ne (hs : s.Ordered) {slot : Slot}
    (hslot : s.buf.slots[s.buf.prodSeq.value.toNat]? = some slot) (hstate : slot.state = .empty)
    (j : ι) : takes s.calls j ≠ some s.buf.prodSeq.value := by
  intro h
  obtain ⟨call, hcall, htaking⟩ := Option.bind_eq_some_iff.mp h
  have htimely := hs.timely j call hcall
  rcases htimely.of_taking htaking with hlt | ⟨hpc, -⟩
  · exact Nat.lt_irrefl _ hlt
  · rw [hpc] at htimely
    rw [htimely.2.2 slot hslot] at hstate
    cases hstate

theorem Ordered.not_granted (hs : s.Ordered) : s.buf.prodSeq.value ∉ s.granted.map Prod.snd := by
  intro hmem
  obtain ⟨x, hx, heq⟩ := List.mem_map.mp hmem
  have hlt := (hs.granted x hx).2
  rw [heq] at hlt
  exact Nat.lt_irrefl _ hlt

variable [DecidableEq ι] {i : ι}

theorem takes_update (calls : ι → Option ReserveCall) (i : ι) (call? : Option ReserveCall)
    (j : ι) :
    takes (Function.update calls i call?) j =
      if j = i then call?.bind fun call => call.pc.taking else takes calls j := by
  unfold takes
  by_cases h : j = i
  · subst h
    rw [if_pos rfl, Function.update_self]
  · rw [if_neg h, Function.update_of_ne h]

/-- A call replaced by one that has taken no slot, or the same. -/
theorem Ordered.update (hs : s.Ordered) {call? : Option ReserveCall}
    (htimely : ∀ call, call? = some call → call.pc.Timely s.buf)
    (htaking : ∀ seq, (call?.bind fun call => call.pc.taking) = some seq →
      takes s.calls i = some seq) :
    Ordered { s with calls := Function.update s.calls i call? } where
  filling := hs.filling
  reading := hs.reading
  timely := by
    intro j call hcall
    simp only [Function.update_apply] at hcall
    split at hcall
    · exact htimely call hcall
    · exact hs.timely j call hcall
  distinct := by
    intro j j' seq hj hj'
    have hold : ∀ j, takes (Function.update s.calls i call?) j = some seq →
        takes s.calls j = some seq := by
      intro j h
      rw [takes_update] at h
      split at h
      · next heq => exact heq ▸ htaking seq h
      · exact h
    exact hs.distinct j j' seq (hold j hj) (hold j' hj')
  fresh := by
    intro j seq h
    simp only [takes_update] at h
    split at h
    · exact hs.fresh i seq (htaking seq h)
    · exact hs.fresh j seq h
  granted := hs.granted
  nodup := hs.nodup
  length_held := hs.length_held
  held := hs.held

/-- **A slot taken.** -/
theorem Ordered.takes_slot (hs : s.Ordered) {call : ReserveCall} {slot : Slot}
    (hlt : s.buf.prodSeq.value.toNat < s.buf.capacity)
    (hslot : s.buf.slots[s.buf.prodSeq.value.toNat]? = some slot) (hstate : slot.state = .empty) :
    Ordered { s with
      buf := s.buf.setSlot s.buf.prodSeq.value.toNat { slot with state := .reserved }
      calls := Function.update s.calls i
        (some { call with pc := .storeProd s.buf.prodSeq.value }) } where
  filling := hs.filling.setSlot rfl
  reading := hs.reading
  timely := by
    intro j call' hcall
    simp only [Function.update_apply] at hcall
    split at hcall
    · obtain rfl := Option.some.inj hcall
      obtain ⟨hidx, -⟩ := List.getElem?_eq_some_iff.mp hslot
      refine ⟨rfl, hlt, fun slot' hslot' => ?_⟩
      have hself : (s.buf.setSlot s.buf.prodSeq.value.toNat { slot with state := .reserved }).slots[
          s.buf.prodSeq.value.toNat]? = some { slot with state := .reserved } :=
        List.getElem?_set_self hidx
      rw [← Option.some.inj (hself.symm.trans hslot')]
    · exact (hs.timely j call' hcall).setSlot rfl
  distinct := by
    intro j j' seq hj hj'
    simp only [takes_update] at hj hj'
    split at hj <;> split at hj'
    · next h h' => exact h.trans h'.symm
    · obtain rfl := Option.some.inj hj
      exact absurd hj' (hs.takes_ne hslot hstate j')
    · obtain rfl := Option.some.inj hj'
      exact absurd hj (hs.takes_ne hslot hstate j)
    · exact hs.distinct j j' seq hj hj'
  fresh := by
    intro j seq hj
    simp only [takes_update] at hj
    split at hj
    · obtain rfl := Option.some.inj hj
      exact hs.not_granted
    · exact hs.fresh j seq hj
  granted := hs.granted
  nodup := hs.nodup
  length_held := hs.length_held
  held := hs.held

/-- **`prod_seq` moved on.** -/
theorem Ordered.moves (hs : s.Ordered) {call : ReserveCall} (hcall : s.calls i = some call)
    (hpc : call.pc = .storeProd s.buf.prodSeq.value) :
    Ordered { s with
      buf := s.buf.moved
      calls := Function.update s.calls i
        (some { call with pc := .storeSeq s.buf.prodSeq.value }) } := by
  have hpending : (ReservePc.storeProd s.buf.prodSeq.value).Timely s.buf :=
    hpc ▸ hs.timely i call hcall
  have hprod := hs.filling.toNat_moved hpending.2.1
  have htakes : takes s.calls i = some s.buf.prodSeq.value := by
    rw [takes, hcall, Option.bind_some, hpc]
    rfl
  have hsame : ∀ j, takes (Function.update s.calls i
      (some { call with pc := .storeSeq s.buf.prodSeq.value })) j = takes s.calls j := by
    intro j
    rw [takes_update]
    split
    · next heq => exact heq ▸ htakes.symm
    · rfl
  exact
    { filling := hs.filling.moved hpending
      reading := hs.reading
      timely := by
        intro j call' hcall'
        simp only [Function.update_apply] at hcall'
        split at hcall'
        · obtain rfl := Option.some.inj hcall'
          show s.buf.prodSeq.value.toNat < s.buf.moved.prodSeq.value.toNat
          omega
        · next hne =>
          refine (hs.timely j call' hcall').moved hs.filling hpending.2.1 fun htaking => hne ?_
          refine hs.distinct j i s.buf.prodSeq.value ?_ htakes
          rw [takes, hcall', Option.bind_some, htaking]
      distinct := by
        intro j j' seq hj hj'
        simp only [hsame] at hj hj'
        exact hs.distinct j j' seq hj hj'
      fresh := by
        intro j seq hj
        simp only [hsame] at hj
        exact hs.fresh j seq hj
      granted := by
        intro x hx
        obtain ⟨hslot, hlt⟩ := hs.granted x hx
        exact ⟨hslot, hprod ▸ Nat.lt_succ_of_lt hlt⟩
      nodup := hs.nodup
      length_held := hs.length_held
      held := hs.held }

/-- **A reservation returned.** -/
theorem Ordered.returns (hs : s.Ordered) {call : ReserveCall} (hcall : s.calls i = some call)
    {seq : UInt64} (hpc : call.pc = .storeSeq seq) {slot : Slot}
    (hslot : s.buf.slots[seq.toNat]? = some slot) {r : Reservation} (hidx : r.slotIdx = seq.toNat)
    (hseq : r.seq = seq) :
    Ordered (grant { s with
      buf := s.buf.setSlot seq.toNat { slot with seq }
      calls := Function.update s.calls i none } r true) := by
  have hlt : seq.toNat < s.buf.prodSeq.value.toNat := by
    have htimely := hs.timely i call hcall
    rwa [hpc] at htimely
  have hstate : ({ slot with seq } : Slot).state = .reserved :=
    hs.filling.below seq.toNat hlt slot hslot
  have htakes : takes s.calls i = some seq := by
    rw [takes, hcall, Option.bind_some, hpc]
    rfl
  have hold : ∀ j seq', takes (Function.update s.calls i none) j = some seq' →
      j ≠ i ∧ takes s.calls j = some seq' := by
    intro j seq' h
    rw [takes_update] at h
    split at h
    · cases h
    · next hne => exact ⟨hne, h⟩
  exact
    { filling := hs.filling.setSlot hstate
      reading := hs.reading
      timely := by
        intro j call' hcall'
        simp only [grant, Function.update_apply] at hcall'
        split at hcall'
        · cases hcall'
        · exact (hs.timely j call' hcall').setSlot hstate
      distinct := fun j j' seq' hj hj' =>
        hs.distinct j j' seq' (hold j seq' hj).2 (hold j' seq' hj').2
      fresh := by
        intro j seq' hj hmem
        obtain ⟨hne, hj⟩ := hold j seq' hj
        simp only [grant, List.map_append, List.map_cons, List.map_nil, List.mem_append,
          List.mem_singleton] at hmem
        rcases hmem with hmem | rfl
        · exact hs.fresh j seq' hj hmem
        · exact hne (hs.distinct j i _ hj (hseq ▸ htakes))
      granted := by
        intro x hx
        simp only [grant, List.mem_append, List.mem_singleton] at hx
        rcases hx with hx | rfl
        · exact hs.granted x hx
        · exact ⟨by rw [hidx, hseq], hseq.symm ▸ hlt⟩
      nodup := by
        simp only [grant, List.map_append, List.map_cons, List.map_nil]
        rw [List.nodup_append]
        refine ⟨hs.nodup, List.nodup_singleton _, ?_⟩
        rintro a ha b hb rfl
        rw [List.mem_singleton.mp hb, hseq] at ha
        exact hs.fresh i seq htakes ha
      length_held := by
        simp only [grant, List.length_append, List.length_singleton, hs.length_held]
      held := by
        intro k r' hk
        simp only [holding, grant, if_true] at hk ⊢
        rw [List.getElem?_append] at hk
        split at hk
        · next hlt' =>
          rw [List.getElem?_append_left (hs.length_held ▸ hlt')]
          exact hs.held k r' hk
        · next hge =>
          have hzero : k - s.held.length = 0 := by
            by_contra hpos
            obtain ⟨n, hn⟩ := Nat.exists_eq_succ_of_ne_zero hpos
            rw [hn] at hk
            cases hk
          rw [hzero] at hk
          obtain rfl := Option.some.inj hk
          rw [List.getElem?_append_right (by have := hs.length_held; omega),
            ← hs.length_held, hzero]
          rfl }

/-- What one turn does to the order: it stays, and `prod_seq` goes no way but up. -/
structure Advances (s s' : Contention ι) : Prop where
  ordered : s'.Ordered
  prodSeq_le : s.buf.prodSeq.value.toNat ≤ s'.buf.prodSeq.value.toNat
  capacity_eq : s'.buf.capacity = s.buf.capacity

omit [DecidableEq ι] in
theorem Advances.trans {s' s'' : Contention ι} (h : s.Advances s') (h' : s'.Advances s'') :
    s.Advances s'' :=
  ⟨h'.ordered, h.prodSeq_le.trans h'.prodSeq_le, h'.capacity_eq.trans h.capacity_eq⟩

/-- An access of a call of `reserve` keeps the order. -/
theorem Ordered.accessed (hs : s.Ordered) {call : ReserveCall} (hcall : s.calls i = some call) :
    s.Advances (s.accessed i (call.turn s.buf)) := by
  have htimely := hs.timely i call hcall
  rcases hturn : call.turn s.buf with _ | out
  · exact ⟨hs.update (by rintro _ ⟨⟩) (by rintro _ ⟨⟩), Nat.le_refl _, rfl⟩
  · cases ReserveCall.turn_cases hs.filling htimely hturn with
    | looks pc hpc htaking _ =>
      refine ⟨hs.update ?_ ?_, Nat.le_refl _, rfl⟩
      · intro call' hcall'
        obtain rfl := Option.some.inj hcall'
        exact hpc
      · intro seq hseq
        rw [Option.bind_some] at hseq
        cases htaking.symm.trans hseq
    | givesUp _ => exact ⟨hs.update (by rintro _ ⟨⟩) (by rintro _ ⟨⟩), Nat.le_refl _, rfl⟩
    | takes slot _ hlt hslot hstate =>
      exact ⟨hs.takes_slot hlt hslot hstate, Nat.le_refl _, rfl⟩
    | moves hpc =>
      refine ⟨hs.moves hcall hpc, ?_, rfl⟩
      rw [hpc] at htimely
      exact hs.filling.toNat_moved htimely.2.1 ▸ Nat.le_succ _
    | returns seq slot r hpc hslot hidx hseq =>
      exact ⟨hs.returns hcall hpc hslot hidx hseq, Nat.le_refl _, rfl⟩

omit [DecidableEq ι] in
/-- The parts of the buffer that no reservation looks at. -/
theorem Ordered.around (hs : s.Ordered) (consumerSignal : Bool) (overflowQueue : List Record) :
    s.Advances { s with buf := { s.buf with consumerSignal, overflowQueue } } where
  ordered :=
    { hs with
      filling :=
        { hs.filling with
          toLaid := Kept.laid (b := s.buf) ⟨rfl, rfl, rfl, rfl, rfl, rfl, rfl⟩ hs.filling.toLaid }
      timely := by
        intro i call hcall
        have htimely := hs.timely i call hcall
        revert htimely
        cases call.pc <;> exact id }
  prodSeq_le := Nat.le_refl _
  capacity_eq := rfl

omit [DecidableEq ι] in
/-- A reservation that is written into keeps its slot; one that is committed or dropped is
gone. -/
theorem Ordered.set_held (hs : s.Ordered) {k : Nat} {res : Option Reservation}
    (hres : ∀ r, res = some r → ∃ r', s.holding k = some r' ∧ r.slotIdx = r'.slotIdx ∧
      r.seq = r'.seq) :
    s.Advances { s with held := s.held.set k res } where
  ordered :=
    { hs with
      length_held := List.length_set.trans hs.length_held
      held := by
        intro k' r hk'
        simp only [holding, List.getElem?_set] at hk'
        split at hk'
        · next heq =>
          subst heq
          split at hk'
          · obtain ⟨r', hr', hidx, hseq⟩ := hres r hk'
            rw [hidx, hseq]
            exact hs.held k r' hr'
          · cases hk'
        · exact hs.held k' r hk' }
  prodSeq_le := Nat.le_refl _
  capacity_eq := rfl

end Contention

theorem Reservation.write_eq_some {r r' : Reservation} {header : RecordHeader}
    {data : List UInt8} (h : r.write header data = some r') :
    r'.slotIdx = r.slotIdx ∧ r'.seq = r.seq := by
  rw [write] at h
  split at h
  · cases h
  · obtain ⟨bytes, -, rfl⟩ := Option.map_eq_some_iff.mp h
    exact ⟨rfl, rfl⟩

namespace Contention

variable {ι : Type*} {s : Contention ι}

section

variable [Hasher]

/-- **The consumer never comes past a slot**, since none is ever ready. -/
theorem Ordered.readOn (hs : s.Ordered) {call : ReadCall} (hcall : s.reading = some call) :
    s.Advances (s.readOn (call.turn s.buf)) := by
  obtain ⟨hprocessed, hpc⟩ := hs.reading call hcall
  obtain ⟨reading, heq, hreading⟩ : ∃ reading, s.readOn (call.turn s.buf) = { s with reading } ∧
      ∀ call', reading = some call' →
        call'.processed = 0 ∧ (call'.pc = .load ∨ call'.pc = .look ∨ call'.pc = .store) := by
    obtain ⟨left, consSeq, records, processed, pc⟩ := call
    have hdone : ∀ call', some (⟨left, consSeq, records, processed, .store⟩ : ReadCall) =
        some call' → call'.processed = 0 ∧
          (call'.pc = .load ∨ call'.pc = .look ∨ call'.pc = .store) := by
      rintro call' ⟨⟩
      exact ⟨hprocessed, Or.inr (Or.inr rfl)⟩
    rcases hpc with rfl | rfl | rfl
    · refine ⟨some ⟨left, s.buf.consSeq.value, records, processed, .look⟩, rfl, ?_⟩
      rintro call' ⟨⟩
      exact ⟨hprocessed, Or.inr (Or.inl rfl)⟩
    · rcases left with _ | left
      · exact ⟨_, rfl, hdone⟩
      · rcases hslot : s.buf.slots[s.buf.consSeq.physicalIndex consSeq]? with _ | slot
        · refine ⟨none, ?_, by rintro call' ⟨⟩⟩
          simp only [ReadCall.turn, hslot, Option.map_none]
          rfl
        · have hnot : slot.state ≠ .ready := by
            rcases hs.filling.quiet slot (List.mem_of_getElem? hslot) with h | h <;>
              exact h ▸ SlotState.noConfusion
          refine ⟨_, ?_, hdone⟩
          simp only [ReadCall.turn, hslot, Option.map_some, if_neg hnot]
          rfl
    · refine ⟨none, ?_, by rintro call' ⟨⟩⟩
      have hzero : ¬ 0 < processed := by
        have hprocessed : processed = 0 := hprocessed
        omega
      simp only [ReadCall.turn, if_neg hzero]
      rfl
  rw [heq]
  exact ⟨{ hs with reading := hreading }, Nat.le_refl _, rfl⟩

variable [DecidableEq ι]

/-- **Every turn keeps the order.** -/
theorem Ordered.step (hs : s.Ordered) (turn : Turn ι) : s.Advances (s.step turn) := by
  have hsame : s.Advances s := ⟨hs, Nat.le_refl _, rfl⟩
  cases turn with
  | reserve i size block =>
    rw [Contention.step]
    split
    · refine ⟨hs.update ?_ ?_, Nat.le_refl _, rfl⟩
      · intro call hcall
        rw [ReserveCall.start] at hcall
        split at hcall
        · cases hcall
        · obtain rfl := Option.some.inj hcall
          trivial
      · intro seq hseq
        obtain ⟨call, hcall, htaking⟩ := Option.bind_eq_some_iff.mp hseq
        rw [ReserveCall.start] at hcall
        split at hcall
        · cases hcall
        · obtain rfl := Option.some.inj hcall
          cases htaking
    · exact hsame
  | access i =>
    rw [Contention.step]
    split
    · exact hsame
    · next call hcall => exact hs.accessed hcall
  | fill k header data =>
    rw [Contention.step]
    split
    · exact hsame
    · exact hs.set_held (by rintro r ⟨⟩)
    · next r' hwrite =>
      obtain ⟨r, hr, hfilled⟩ := Option.map_eq_some_iff.mp hwrite
      refine hs.set_held fun r'' hr'' => ⟨r, hr, ?_⟩
      obtain rfl := Option.some.inj hr''
      exact Reservation.write_eq_some hfilled
  | commit k =>
    rw [Contention.step]
    split
    · exact hsame
    · next _ notified _ =>
      have hgone : s.Advances { s with held := s.held.set k none } :=
        hs.set_held (by rintro r ⟨⟩)
      exact hgone.trans
        (hgone.ordered.around (s.buf.consumerSignal || notified) s.buf.overflowQueue)
  | drop k => exact hs.set_held (by rintro r ⟨⟩)
  | enqueue record =>
    rw [Contention.step]
    split
    · exact hsame
    · obtain ⟨queue, hqueue⟩ := s.buf.enqueue_eq record
      rw [hqueue]
      exact hs.around s.buf.consumerSignal queue
  | read =>
    rw [Contention.step]
    split
    · refine ⟨{ hs with reading := ?_ }, Nat.le_refl _, rfl⟩
      rintro call ⟨⟩
      exact ⟨rfl, Or.inl rfl⟩
    · exact hsame
  | readOn =>
    rw [Contention.step]
    split
    · exact hsame
    · next call hcall => exact hs.readOn hcall

/-- And so does every list of turns. -/
theorem Ordered.run (hs : s.Ordered) (turns : List (Turn ι)) : s.Advances (s.run turns) := by
  refine Machine.foldl_preserves (I := fun t : Contention ι => s.Advances t) ?_
    ⟨hs, Nat.le_refl _, rfl⟩ turns
  exact fun t turn ht => ht.trans (ht.ordered.step turn)

end

/-! ## Who holds a slot -/

/-- Who may hold a slot. -/
inductive Holder (ι : Type*) where
  /-- A reservation returned, until it is committed or dropped. -/
  | reservation (k : Nat)
  /-- A call of `reserve` that has taken a slot and not returned yet. -/
  | call (i : ι)
  /-- The drain of `read`, while its call of `reserve` has. -/
  | drain

/-- The slot held, and the sequence number that goes with it. -/
def holds (s : Contention ι) : Holder ι → Option (Nat × UInt64)
  | .reservation k => (s.holding k).map fun r => (r.slotIdx, r.seq)
  | .call i => (takes s.calls i).map fun seq => (s.buf.prodSeq.physicalIndex seq, seq)
  | .drain =>
    match s.reading with
    | some { pc := .reserve _ call, .. } =>
      call.pc.taking.map fun seq => (s.buf.prodSeq.physicalIndex seq, seq)
    | _ => none

theorem Ordered.holds_drain (hs : s.Ordered) : s.holds .drain = none := by
  rw [holds]
  split
  · next record call hreading =>
    rcases (hs.reading _ hreading).2 with h | h | h <;> cases h
  · rfl

/-- The slot that a thread has taken goes with its number. -/
theorem Ordered.takes_lt (hs : s.Ordered) {i : ι} {seq : UInt64}
    (h : takes s.calls i = some seq) : seq.toNat < s.buf.capacity := by
  obtain ⟨call, hcall, htaking⟩ := Option.bind_eq_some_iff.mp h
  have htimely := hs.timely i call hcall
  rcases htimely.of_taking htaking with hlt | ⟨hpc, rfl⟩
  · exact Nat.lt_of_lt_of_le hlt hs.filling.prodSeq_le
  · rw [hpc] at htimely
    exact htimely.2.1

/-- The slot held is that of the number, and nobody else has the number. -/
theorem Ordered.slot_eq (hs : s.Ordered) {o : Holder ι} {slotIdx : Nat} {seq : UInt64}
    (h : s.holds o = some (slotIdx, seq)) : slotIdx = seq.toNat := by
  cases o with
  | reservation k =>
    obtain ⟨r, hr, heq⟩ := Option.map_eq_some_iff.mp h
    have hmem := List.mem_of_getElem? (hs.held k r hr)
    rw [heq] at hmem
    exact (hs.granted _ hmem).1
  | call i =>
    obtain ⟨seq', htakes, heq⟩ := Option.map_eq_some_iff.mp h
    obtain ⟨rfl, rfl⟩ := Prod.mk.inj heq
    exact hs.filling.toLaid.prodIndex_eq (hs.takes_lt htakes)
  | drain => cases hs.holds_drain.symm.trans h

theorem Ordered.getElem_of_holds (hs : s.Ordered) {k : Nat} {slotIdx : Nat} {seq : UInt64}
    (h : s.holds (.reservation k) = some (slotIdx, seq)) :
    (s.granted.map Prod.snd)[k]? = some seq := by
  obtain ⟨r, hr, heq⟩ := Option.map_eq_some_iff.mp h
  rw [List.getElem?_map, hs.held k r hr, heq]
  rfl

/-- **Different holders have different numbers.** -/
theorem Ordered.holder_eq (hs : s.Ordered) {o o' : Holder ι} {slotIdx slotIdx' : Nat}
    {seq : UInt64} (h : s.holds o = some (slotIdx, seq))
    (h' : s.holds o' = some (slotIdx', seq)) : o = o' := by
  have hcall : ∀ {i : ι} {slotIdx : Nat}, s.holds (.call i) = some (slotIdx, seq) →
      takes s.calls i = some seq := by
    intro i slotIdx h
    obtain ⟨seq', htakes, heq⟩ := Option.map_eq_some_iff.mp h
    rw [htakes, (Prod.mk.inj heq).2]
  have hapart : ∀ {i : ι} {k slotIdx slotIdx' : Nat}, s.holds (.call i) = some (slotIdx, seq) →
      s.holds (.reservation k) ≠ some (slotIdx', seq) := by
    intro i k slotIdx slotIdx' h h'
    exact hs.fresh i seq (hcall h) (List.mem_of_getElem? (hs.getElem_of_holds h'))
  cases o with
  | reservation k =>
    cases o' with
    | reservation k' =>
      have hk := hs.getElem_of_holds h
      have hk' := hs.getElem_of_holds h'
      obtain ⟨hlt, -⟩ := List.getElem?_eq_some_iff.mp hk
      rw [(List.getElem?_inj hlt hs.nodup).mp (hk.trans hk'.symm)]
    | call i => exact absurd h (hapart h')
    | drain => cases hs.holds_drain.symm.trans h'
  | call i =>
    cases o' with
    | reservation k => exact absurd h' (hapart h)
    | call i' => rw [hs.distinct i i' seq (hcall h) (hcall h')]
    | drain => cases hs.holds_drain.symm.trans h'
  | drain => cases hs.holds_drain.symm.trans h

/-- **Reservations are exclusive**: for every capacity that can be had, any number of threads
and every order of turns.  No two reservations hold the same slot or carry the same sequence
number at a time, from the moment the slot is taken; no two reservations ever returned carry
the same sequence number; and `prod_seq` never decreases, nor is it ever ahead of `cons_seq`
by more than the capacity. -/
theorem exclusive [Hasher] [DecidableEq ι] (capacity : Nat) (b : VolatileRingBuffer)
    (hnew : new capacity = some b) (turns more : List (Turn ι)) :
    let s := (start b).run turns
    let s' := s.run more
    (∀ o o' slotIdx slotIdx' seq seq', s.holds o = some (slotIdx, seq) →
      s.holds o' = some (slotIdx', seq') → o ≠ o' → slotIdx ≠ slotIdx' ∧ seq ≠ seq') ∧
    (s.granted.map Prod.snd).Nodup ∧
    s.buf.prodSeq.value.toNat ≤ s'.buf.prodSeq.value.toNat ∧
    s.buf.consSeq.value ≤ s.buf.prodSeq.value ∧
    (s.buf.prodSeq.value - s.buf.consSeq.value).toNat ≤ b.capacity := by
  intro s s'
  have hrun : (start b).Advances s := (ordered_start hnew).run turns
  have hs := hrun.ordered
  refine ⟨?_, hs.nodup, (hs.run more).prodSeq_le, ?_, ?_⟩
  · intro o o' slotIdx slotIdx' seq seq' h h' hne
    have hseq : seq ≠ seq' := by
      rintro rfl
      exact hne (hs.holder_eq h h')
    refine ⟨?_, hseq⟩
    rw [hs.slot_eq h, hs.slot_eq h']
    exact fun heq => hseq (UInt64.toNat_inj.mp heq)
  · rw [hs.filling.consSeq_eq]
    exact UInt64.zero_le
  · rw [hs.filling.consSeq_eq, UInt64.sub_zero]
    exact hrun.capacity_eq ▸ hs.filling.prodSeq_le

end Contention

section Ieee

attribute [local instance] Hasher.ieee

namespace Contention

/-- Two threads load the same number, and both find the slot empty. -/
def bothLook : List (Turn Bool) :=
  [.reserve true 0 false, .reserve false 0 false, .access true, .access false, .access true,
    .access false]

/-- The thread whose exchange comes too late is left with the next slot. -/
theorem exclusive_of_two :
    ∃ b, VolatileRingBuffer.new 2 = some b ∧
      let s := (start b).run (bothLook ++ [.access true, .access false, .access true,
        .access true, .access false, .access false, .access false, .access false])
      s.holds (.reservation 0) = some (0, 0) ∧ s.holds (.call false) = some (1, 1) ∧
        (s.buf.prodSeq.value - s.buf.consSeq.value).toNat ≤ b.capacity := by
  have hholds : (VolatileRingBuffer.new 2).map (fun b =>
      let s := (start b).run (bothLook ++ [.access true, .access false, .access true,
        .access true, .access false, .access false, .access false, .access false])
      (s.holds (.reservation 0), s.holds (.call false))) =
      some (some (0, 0), some (1, 1)) := by decide +kernel
  obtain ⟨b, hnew, hres⟩ := Option.map_eq_some_iff.mp hholds
  obtain ⟨hfirst, hsecond⟩ := Prod.mk.inj hres
  obtain ⟨-, -, -, -, hroom⟩ := exclusive 2 b hnew (bothLook ++ [.access true, .access false,
    .access true, .access true, .access false, .access false, .access false, .access false]) []
  exact ⟨b, hnew, hfirst, hsecond, hroom⟩

end Contention

end Ieee

end Sherlog
