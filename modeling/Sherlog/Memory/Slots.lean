import Sherlog.Memory.Fifo
import Sherlog.Lib.Ring

/-!
# Sequence numbers and slots

A sequence number is masked to find its slot.  With as many slots as the mask has values
that is the remainder by the capacity, and the number of sequence numbers, `2 ^ 64`, is a
multiple of it.

* `VolatileRingBuffer.Laid` — the shape of a buffer whose slots and bytes are all there.
* `physicalIndex_eq` — the slot of a sequence number, and `physicalIndex_add` of one that is
  so many further; `capacity_dvd` — the turns of the ring fill up the sequence numbers.
-/

namespace Sherlog

open Window

namespace VolatileRingBuffer

/-- The shape of a buffer, for whatever its slots and its bytes hold. -/
structure Laid (b : VolatileRingBuffer) : Prop extends b.Shaped where
  capacity_eq : ∃ n, b.capacity = 2 ^ n
  length_data : b.data.length = b.capacity * b.slotSize

/-- What `new` makes is laid. -/
theorem laid_of_new {capacity : Nat} {b : VolatileRingBuffer} (h : new capacity = some b) :
    b.Laid := by
  obtain ⟨hb, hshaped⟩ := new_eq_some h
  refine ⟨hshaped, ?_, ?_⟩
  · obtain ⟨n, hn⟩ := Nat.isPowerOfTwo_nextPowerOfTwo capacity
    exact ⟨n, by rw [hb]; exact hn⟩
  · rw [hb]
    exact List.length_replicate

end VolatileRingBuffer

namespace AtomicIndex

/-- The slot of a sequence number. -/
theorem physicalIndex_eq {index : AtomicIndex} {capacity : Nat} (hcap : ∃ n, capacity = 2 ^ n)
    (hmask : index.mask.toNat + 1 = capacity) (seq : UInt64) :
    index.physicalIndex seq = seq.toNat % capacity := by
  obtain ⟨n, hn⟩ := hcap
  rw [physicalIndex, UInt64.toNat_and, Ring.and_mask (hmask.trans hn), hmask]

/-- The number of sequence numbers is a multiple of the capacity. -/
theorem capacity_dvd {index : AtomicIndex} {capacity : Nat} (hcap : ∃ n, capacity = 2 ^ n)
    (hmask : index.mask.toNat + 1 = capacity) : capacity ∣ 2 ^ 64 := by
  obtain ⟨n, rfl⟩ := hcap
  have hlt := index.mask.toNat_lt
  refine Nat.pow_dvd_pow 2 ?_
  by_contra hn
  have hle : 2 ^ 65 ≤ 2 ^ n := Nat.pow_le_pow_right (by omega) (by omega)
  omega

/-- The slot of the sequence number `i` behind another. -/
theorem physicalIndex_add {index : AtomicIndex} {capacity : Nat} (hcap : ∃ n, capacity = 2 ^ n)
    (hmask : index.mask.toNat + 1 = capacity) (seq : UInt64) (i : Nat) :
    index.physicalIndex (seq + UInt64.ofNat i) = (seq.toNat + i) % capacity := by
  rw [physicalIndex_eq hcap hmask, UInt64.toNat_add, UInt64.toNat_ofNat', Nat.add_mod_mod,
    Ring.slot_wrap (capacity_dvd hcap hmask)]

end AtomicIndex

end Sherlog
