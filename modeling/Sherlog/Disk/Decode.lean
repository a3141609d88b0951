import Sherlog.Disk.Persistent

/-!
# Decoding the data area

`readAt` checks one bound after the other and computes every position modulo
`2 ^ 64`.  On a buffer whose mapping really is a control block followed by a data
area of the given size (`Sound`) all of that comes down to one function of the bytes
of the area, `decodeAt`, and no index leaves the mapping: `readAt_eq`.

* `decodeAt_of_window` — where the bytes of a record lie whole, that record is read.
* `DecodesTo` — from a position on, given records lie end to end up to another.
* `readLoop_of_decodesTo` — over such a stretch the scan of `read_all` returns exactly
  those records and stops at the end.
-/

namespace Sherlog

open LittleEndian Window

variable [Hasher]

/-- The record at a position of the data area, with the bounds checks of `readAt`
but without its modular arithmetic. -/
def decodeAt (area : List UInt8) (p : Nat) : Except PersistentError (Option (Record × Nat)) :=
  if area.length < p + Header.SIZE then .ok none
  else
    let header := Header.ofBytes (window area p Header.SIZE)
    if header.isValid = false then .ok none
    else
      if area.length < p + Header.SIZE + header.size.toNat then .ok none
      else
        let data := window area (p + Header.SIZE) header.size.toNat
        if header.verifyCrc data = false then .error .invalidRecord
        else
          .ok (some ({ header := { size := header.size, crc32 := header.crc32,
                                   timestampUs := header.timestampUs, tag := header.tag },
                       data }, Header.SIZE + header.size.toNat))

/-- Where the bytes of a record lie whole, the header read is the one `write` made. -/
theorem ofBytes_window_of_diskImage {area : List UInt8} {p : Nat} {r : Record}
    (h : window area p r.footprint = r.diskImage) :
    Header.ofBytes (window area p Header.SIZE) = r.diskHeader := by
  have hsub := window_window area (p := p) (n := r.footprint) (q := 0) (k := Header.SIZE)
    (by simp [Record.footprint])
  rw [Nat.add_zero, h, Record.diskImage] at hsub
  have hfront := window_front r.diskHeader.toBytes r.data
  rw [Header.length_toBytes] at hfront
  rw [← hsub, hfront, Header.ofBytes_toBytes]

/-- And behind it lies the data. -/
theorem window_data_of_diskImage {area : List UInt8} {p : Nat} {r : Record}
    (h : window area p r.footprint = r.diskImage) :
    window area (p + Header.SIZE) r.data.length = r.data := by
  have hsub := window_window area (p := p) (n := r.footprint) (q := Header.SIZE)
    (k := r.data.length) (by simp [Record.footprint])
  have hback := window_append_right r.diskHeader.toBytes r.data 0 r.data.length
  rw [Header.length_toBytes, Nat.add_zero, window_zero_length] at hback
  rw [← hsub, h, Record.diskImage, hback]

/-- **A record whose bytes lie whole is read**, if its length fits the size field. -/
theorem decodeAt_of_window {area : List UInt8} {p : Nat} {r : Record}
    (hfit : p + r.footprint ≤ area.length) (hshort : r.data.length < 2 ^ 32)
    (h : window area p r.footprint = r.diskImage) :
    decodeAt area p = .ok (some (r.stored, r.footprint)) := by
  have hsize : r.diskHeader.size.toNat = r.data.length := by
    show (UInt32.ofNat r.data.length).toNat = _
    rw [UInt32.toNat_ofNat', Nat.mod_eq_of_lt hshort]
  have hvalid : r.diskHeader.isValid = true := rfl
  have hcrc : r.diskHeader.verifyCrc r.data = true := by
    simp [Header.verifyCrc, Record.diskHeader, Header.updateCrc]
  rw [Record.footprint] at hfit
  rw [decodeAt, if_neg (by omega), ofBytes_window_of_diskImage h]
  simp only [hvalid, hsize, window_data_of_diskImage h, hcrc, Bool.true_eq_false, if_false]
  rw [if_neg (by omega)]
  rfl

/-- Where the bytes of a record lie whole something is read, if only an error: its header
carries the marker, and the size field does not claim more than there is. -/
theorem decodeAt_ne_none {area : List UInt8} {p : Nat} {r : Record}
    (hfit : p + r.footprint ≤ area.length) (h : window area p r.footprint = r.diskImage) :
    decodeAt area p ≠ .ok none := by
  have hsize : r.diskHeader.size.toNat ≤ r.data.length := by
    show (UInt32.ofNat r.data.length).toNat ≤ _
    rw [UInt32.toNat_ofNat']
    exact Nat.mod_le _ _
  have hvalid : r.diskHeader.isValid = true := rfl
  rw [Record.footprint] at hfit
  rw [decodeAt, if_neg (by omega), ofBytes_window_of_diskImage h]
  simp only [hvalid, Bool.true_eq_false, if_false]
  rw [if_neg (by omega)]
  split <;> simp

/-- What is read at a position takes at least a header and stays inside the area. -/
theorem decodeAt_some {area : List UInt8} {p n : Nat} {r : Record}
    (h : decodeAt area p = .ok (some (r, n))) :
    n = Header.SIZE + r.data.length ∧ p + n ≤ area.length := by
  simp only [decodeAt] at h
  split_ifs at h <;>
    simp only [Except.ok.injEq, Option.some.injEq, Prod.mk.injEq, reduceCtorEq] at h
  obtain ⟨rfl, rfl⟩ := h
  rw [length_window (by omega)]
  omega

namespace PersistentRingBuffer

/-- The bytes behind the control block. -/
def area (b : PersistentRingBuffer) : List UInt8 := b.mmap.drop ControlBlock.SIZE

/-- The mapping is a control block and a data area of `size` bytes. -/
structure Sound (b : PersistentRingBuffer) : Prop where
  length_mmap : b.mmap.length = ControlBlock.SIZE + b.size
  size_lt : ControlBlock.SIZE + b.size < 2 ^ 63

variable {b : PersistentRingBuffer}

omit [Hasher] in
theorem Sound.length_area (hb : b.Sound) : b.area.length = b.size := by
  rw [area, List.length_drop, hb.length_mmap, Nat.add_sub_cancel_left]

omit [Hasher] in
theorem window_mmap (b : PersistentRingBuffer) (p n : Nat) :
    window b.mmap (ControlBlock.SIZE + p) n = window b.area p n := by
  rw [window, window, area, List.drop_drop]

/-- **On a sound buffer `readAt` is `decodeAt`**: no sum wraps around and no slice
index leaves the mapping. -/
theorem readAt_eq (hb : b.Sound) (p : UInt64) : b.readAt p = some (decodeAt b.area p.toNat) := by
  have hlen := hb.length_mmap
  have hlt := hb.size_lt
  have hu32 : ∀ x : UInt32, x.toNat < 2 ^ 32 := fun x => x.toNat_lt
  simp only [ControlBlock.SIZE] at hlen hlt
  unfold readAt decodeAt
  rw [hb.length_area]
  by_cases h0 : b.size ≤ p.toNat
  · rw [if_pos h0, if_pos (by simp only [Header.SIZE]; omega)]
  · have h1 : wrapping (ControlBlock.SIZE + p.toNat) = ControlBlock.SIZE + p.toNat :=
      wrapping_of_lt (by simp only [ControlBlock.SIZE]; omega)
    have h2 : wrapping (ControlBlock.SIZE + p.toNat + Header.SIZE) =
        ControlBlock.SIZE + p.toNat + Header.SIZE :=
      wrapping_of_lt (by simp only [ControlBlock.SIZE, Header.SIZE]; omega)
    rw [if_neg h0]
    simp only [h1, h2]
    by_cases hhead : b.size < p.toNat + Header.SIZE
    · rw [if_pos hhead, if_pos (by simp only [ControlBlock.SIZE]; omega)]
    · rw [if_neg hhead, if_neg (by simp only [ControlBlock.SIZE]; omega),
        slice_eq_some (by simp only [ControlBlock.SIZE]; omega), window_mmap]
      simp only [Option.bind_some]
      generalize Header.ofBytes (window b.area p.toNat Header.SIZE) = header
      cases hvalid : header.isValid with
      | false => rfl
      | true =>
        have h3 : wrapping (ControlBlock.SIZE + p.toNat + Header.SIZE + header.size.toNat) =
            ControlBlock.SIZE + p.toNat + Header.SIZE + header.size.toNat :=
          wrapping_of_lt (by
            have := hu32 header.size
            simp only [ControlBlock.SIZE, Header.SIZE]
            omega)
        simp only [h3, Bool.true_eq_false, if_false]
        by_cases hdata : b.size < p.toNat + Header.SIZE + header.size.toNat
        · rw [if_pos hdata, if_pos (by simp only [ControlBlock.SIZE]; omega)]
        · rw [if_neg hdata, if_neg (by simp only [ControlBlock.SIZE]; omega),
            slice_eq_some (by simp only [ControlBlock.SIZE]; omega),
            Nat.add_assoc ControlBlock.SIZE, window_mmap]
          simp only [Option.map_some]

/-! ## Records end to end -/

/-- From position `p` on the records `rs` lie end to end, up to position `q`. -/
def DecodesTo (b : PersistentRingBuffer) : Nat → List Record → Nat → Prop
  | p, [], q => p = q
  | p, r :: rs, q =>
    b.readAt (UInt64.ofNat p) = some (.ok (some (r.stored, r.footprint))) ∧
      b.DecodesTo (p + r.footprint) rs q

theorem DecodesTo.length_le {p q : Nat} {rs : List Record} (h : b.DecodesTo p rs q) :
    p + rs.length ≤ q := by
  induction rs generalizing p with
  | nil => exact (show p = q from h).le
  | cons r rs ih =>
    have := ih h.2
    have := r.footprint_pos
    simp only [List.length_cons]
    omega

/-- **The scan over records that lie end to end** returns them and stops behind the
last one. -/
theorem readLoop_of_decodesTo {writePos : UInt64} {rs : List Record} :
    ∀ {p fuel : Nat} {acc : List Record}, b.DecodesTo p rs writePos.toNat → rs.length < fuel →
      b.readLoop writePos fuel (UInt64.ofNat p) acc =
        some (.ok (writePos, acc ++ rs.map Record.stored)) := by
  induction rs with
  | nil =>
    intro p fuel acc h hfuel
    obtain ⟨fuel, rfl⟩ := Nat.exists_eq_add_of_lt hfuel
    have hp : p = writePos.toNat := h
    subst hp
    rw [List.length_nil, Nat.zero_add, readLoop, UInt64.ofNat_toNat, if_neg (by simp)]
    simp
  | cons r rs ih =>
    intro p fuel acc h hfuel
    obtain ⟨fuel, rfl⟩ : ∃ f, fuel = f + 1 := ⟨fuel - 1, by omega⟩
    have hle := h.length_le
    have hlt : UInt64.ofNat p < writePos := by
      have := writePos.toNat_lt
      rw [List.length_cons] at hle
      rw [UInt64.lt_iff_toNat_lt, UInt64.toNat_ofNat', Nat.mod_eq_of_lt (by omega)]
      omega
    rw [readLoop, if_pos hlt, h.1]
    simp only
    rw [← UInt64.ofNat_add, ih h.2 (by simp only [List.length_cons] at hfuel; omega)]
    simp

theorem DecodesTo.length_lt_scanFuel {p : Nat} {writePos : UInt64} {rs : List Record}
    (h : b.DecodesTo p rs writePos.toNat) : rs.length < scanFuel := by
  have := h.length_le
  have := writePos.toNat_lt
  unfold scanFuel
  omega

end PersistentRingBuffer

end Sherlog
