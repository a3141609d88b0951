import Sherlog.Disk.Run

/-!
# What the bytes of a record say

The header in front of a record is decoded field by field, and every byte of it but the two
reserved ones counts.

* `Header.toBytes_ofBytes` — what `ptr::read` takes for a header is stored again as it was.
* `Header.LiesAt` — a header with the marker lies at a position, with as many bytes behind it as
  it says; `decodeAt_of_liesAt`, `decodeAt_of_not_liesAt` — this is all that is looked at.
* `PersistentRingBuffer.readAt_answers` — what `read_at` answers, for every content of the area.
* `Record.diskImage_append_inj` — no image is a proper prefix of another, so that a lap can be
  taken apart in one way only: `Live.lap_determined`.
-/

namespace Sherlog

open LittleEndian Window LapLog

/-- **A header is stored as it was read.** -/
theorem Header.toBytes_ofBytes {bytes : List UInt8} (h : bytes.length = SIZE) :
    (ofBytes bytes).toBytes = bytes := by
  have key := packFields_unpackFields [4, 4, 8, 4, 2, 2] (h.symm : _ = bytes.length)
  have hword : ∀ w n, leBytes w (n % 2 ^ (8 * w)) = leBytes w n := by
    intro w n
    rw [Nat.pow_mul]
    exact leBytes_mod w n
  have h2 := hword 2
  have h4 := hword 4
  have h8 := hword 8
  norm_num at h2 h4 h8
  simpa [toBytes, fields, ofBytes, unpackFields, packFields_cons, h2, h4, h8] using key

/-- A header with the marker lies at a position of the area, and behind it as many bytes of data
as it says. -/
structure Header.LiesAt (h : Header) (data area : List UInt8) (p : Nat) : Prop where
  fits : p + SIZE + data.length ≤ area.length
  bytes : window area p (SIZE + data.length) = h.toBytes ++ data
  valid : h.isValid = true
  size_eq : h.size.toNat = data.length

/-- The record that is read there. -/
def Header.record (h : Header) (data : List UInt8) : Record :=
  { header := { size := h.size, crc32 := h.crc32, timestampUs := h.timestampUs, tag := h.tag },
    data }

variable {h : Header} {area data : List UInt8} {p : Nat}

/-- The two parts of the bytes. -/
theorem Header.bytes_iff (hfits : p + SIZE + data.length ≤ area.length) :
    window area p (SIZE + data.length) = h.toBytes ++ data ↔
      ofBytes (window area p SIZE) = h ∧ window area (p + SIZE) data.length = data := by
  have hsplit : window area p (SIZE + data.length) =
      window area p SIZE ++ window area (p + SIZE) data.length := by
    rw [window, window, window, List.take_add, List.drop_drop]
  have hlength : (window area p SIZE).length = SIZE := length_window (by omega)
  rw [hsplit]
  constructor
  · intro heq
    obtain ⟨hheader, hdata⟩ := List.append_inj heq (by rw [hlength, length_toBytes])
    exact ⟨by rw [hheader, ofBytes_toBytes], hdata⟩
  · rintro ⟨rfl, hdata⟩
    rw [toBytes_ofBytes hlength, hdata]

section

variable [Hasher]

/-- **What lies at a position is what is read there**, or an error if its checksum is wrong. -/
theorem decodeAt_of_liesAt (hlies : h.LiesAt data area p) :
    decodeAt area p =
      if h.verifyCrc data then .ok (some (h.record data, Header.SIZE + data.length))
      else .error .invalidRecord := by
  obtain ⟨hfits, hbytes, hvalid, hsize⟩ := hlies
  obtain ⟨rfl, hdata⟩ := (Header.bytes_iff hfits).mp hbytes
  rw [decodeAt, if_neg (by omega)]
  simp only [hvalid, hsize, hdata, Bool.true_eq_false, if_false]
  rw [if_neg (by omega)]
  cases (Header.ofBytes (window area p Header.SIZE)).verifyCrc data <;> simp [Header.record]

/-- **Where nothing lies nothing is read.** -/
theorem decodeAt_of_not_liesAt (hno : ∀ (h : Header) (data : List UInt8), ¬ h.LiesAt data area p) :
    decodeAt area p = .ok none := by
  rw [decodeAt]
  by_cases hhead : area.length < p + Header.SIZE
  · rw [if_pos hhead]
  rw [if_neg hhead]
  generalize hheader : Header.ofBytes (window area p Header.SIZE) = h
  by_cases hvalid : h.isValid = false
  · simp only [hvalid, if_true]
  by_cases hdata : area.length < p + Header.SIZE + h.size.toNat
  · simp [hvalid, hdata]
  · have hlength : (window area (p + Header.SIZE) h.size.toNat).length = h.size.toNat :=
      length_window (by omega)
    have hfits : p + Header.SIZE + (window area (p + Header.SIZE) h.size.toNat).length ≤
        area.length := by omega
    refine absurd ⟨hfits, ?_, by simpa using hvalid, hlength.symm⟩ (hno h _)
    exact (Header.bytes_iff hfits).mpr ⟨hheader, by rw [hlength]⟩

/-! ## The three answers -/

theorem decodeAt_ok_iff {r : Record} {n : Nat} :
    decodeAt area p = .ok (some (r, n)) ↔
      ∃ h data, Header.LiesAt h data area p ∧ h.verifyCrc data = true ∧
        r = h.record data ∧ n = Header.SIZE + data.length := by
  constructor
  · intro heq
    by_cases hlies : ∃ (h : Header) (data : List UInt8), h.LiesAt data area p
    · obtain ⟨h, data, hlies⟩ := hlies
      rw [decodeAt_of_liesAt hlies] at heq
      cases hcrc : h.verifyCrc data <;> simp [hcrc] at heq
      exact ⟨h, data, hlies, hcrc, heq.1.symm, heq.2.symm⟩
    · rw [decodeAt_of_not_liesAt fun h data hno => hlies ⟨h, data, hno⟩] at heq
      simp at heq
  · rintro ⟨h, data, hlies, hcrc, rfl, rfl⟩
    rw [decodeAt_of_liesAt hlies, if_pos hcrc]

theorem decodeAt_error_iff {e : PersistentError} :
    decodeAt area p = .error e ↔ e = .invalidRecord ∧
      ∃ h data, Header.LiesAt h data area p ∧ h.verifyCrc data = false := by
  constructor
  · intro heq
    by_cases hlies : ∃ (h : Header) (data : List UInt8), h.LiesAt data area p
    · obtain ⟨h, data, hlies⟩ := hlies
      rw [decodeAt_of_liesAt hlies] at heq
      cases hcrc : h.verifyCrc data <;> simp [hcrc] at heq
      exact ⟨heq.symm, h, data, hlies, hcrc⟩
    · rw [decodeAt_of_not_liesAt fun h data hno => hlies ⟨h, data, hno⟩] at heq
      simp at heq
  · rintro ⟨rfl, h, data, hlies, hcrc⟩
    rw [decodeAt_of_liesAt hlies, if_neg (by simp [hcrc])]

theorem decodeAt_none_iff :
    decodeAt area p = .ok none ↔ ∀ h data, ¬ Header.LiesAt h data area p := by
  refine ⟨fun heq h data hlies => ?_, decodeAt_of_not_liesAt⟩
  rw [decodeAt_of_liesAt hlies] at heq
  split at heq <;> simp at heq

/-- The bytes of a record, with anything in the reserved field of its header. -/
def Record.image (r : Record) (reserved : UInt16) : List UInt8 :=
  { r.diskHeader with reserved }.toBytes ++ r.data

/-- The headers under which a stored record is read. -/
theorem Header.record_eq_stored_iff {r : Record} (hvalid : h.isValid = true) :
    h.verifyCrc data = true ∧ h.record data = r.stored ↔
      h = { r.diskHeader with reserved := h.reserved } ∧ data = r.data := by
  have hmarker : h.marker = MARKER := by simpa [isValid] using hvalid
  obtain ⟨size, crc32, timestampUs, tag, marker, reserved⟩ := h
  obtain rfl : marker = MARKER := hmarker
  simp only [verifyCrc, record, Record.stored, Record.diskHeader, updateCrc, Header.new, beq_iff_eq,
    Record.mk.injEq, RecordHeader.mk.injEq, mk.injEq, and_true]
  constructor
  · rintro ⟨-, ⟨rfl, rfl, rfl, rfl⟩, rfl⟩
    exact ⟨⟨rfl, rfl, rfl, rfl⟩, rfl⟩
  · rintro ⟨⟨rfl, rfl, rfl, rfl⟩, rfl⟩
    exact ⟨rfl, ⟨rfl, rfl, rfl, rfl⟩, rfl⟩

/-- What a write stores is read exactly where its image lies. -/
theorem decodeAt_stored_iff {r : Record} (hshort : r.data.length < 2 ^ 32) :
    decodeAt area p = .ok (some (r.stored, r.footprint)) ↔
      p + r.footprint ≤ area.length ∧
        ∃ reserved, window area p r.footprint = r.image reserved := by
  rw [decodeAt_ok_iff]
  constructor
  · rintro ⟨h, data, hlies, hcrc, hrecord, -⟩
    obtain ⟨hheader, rfl⟩ := (Header.record_eq_stored_iff hlies.valid).mp ⟨hcrc, hrecord.symm⟩
    refine ⟨by rw [Record.footprint, ← Nat.add_assoc]; exact hlies.fits, h.reserved, ?_⟩
    rw [Record.image, ← hheader]
    exact hlies.bytes
  · rintro ⟨hfits, reserved, hbytes⟩
    have hsize : (UInt32.ofNat r.data.length).toNat = r.data.length := by
      rw [UInt32.toNat_ofNat', Nat.mod_eq_of_lt hshort]
    have hvalid : Header.isValid { r.diskHeader with reserved } = true := rfl
    obtain ⟨hcrc, hrecord⟩ := (Header.record_eq_stored_iff hvalid).mpr ⟨rfl, rfl⟩
    exact ⟨_, r.data, ⟨by rwa [Nat.add_assoc], hbytes, hvalid, hsize⟩, hcrc, hrecord.symm, rfl⟩

namespace PersistentRingBuffer

variable {b : PersistentRingBuffer}

/-- **The three answers of `read_at`**, for every content of the data area and every position.
It returns a record exactly when a header with the marker lies there, with as many bytes behind
it as it says and with their checksum in it, and then it returns these bytes, under the fields of
that header; it fails exactly when only the checksum is another one; and it finds nothing exactly
when no such header lies there.  So it returns what a write stores exactly where the image of the
record lies, but for the reserved field. -/
theorem readAt_answers (hb : b.Sound) (p : UInt64) :
    (∀ r n, b.readAt p = some (.ok (some (r, n))) ↔
      ∃ h data, Header.LiesAt h data b.area p.toNat ∧ h.verifyCrc data = true ∧
        r = h.record data ∧ n = Header.SIZE + data.length) ∧
    (∀ e, b.readAt p = some (.error e) ↔ e = .invalidRecord ∧
      ∃ h data, Header.LiesAt h data b.area p.toNat ∧ h.verifyCrc data = false) ∧
    (b.readAt p = some (.ok none) ↔ ∀ h data, ¬ Header.LiesAt h data b.area p.toNat) ∧
    ∀ r : Record, r.data.length < 2 ^ 32 →
      (b.readAt p = some (.ok (some (r.stored, r.footprint))) ↔
        p.toNat + r.footprint ≤ b.size ∧
          ∃ reserved, window b.area p.toNat r.footprint = r.image reserved) := by
  have hread := readAt_eq hb p
  have hlength := hb.length_area
  refine ⟨fun r n => ?_, fun e => ?_, ?_, fun r hshort => ?_⟩
  · rw [hread, Option.some.injEq, decodeAt_ok_iff]
  · rw [hread, Option.some.injEq, decodeAt_error_iff]
  · rw [hread, Option.some.injEq, decodeAt_none_iff]
  · rw [hread, Option.some.injEq, decodeAt_stored_iff hshort, hlength]

end PersistentRingBuffer

/-! ## A lap taken apart -/

/-- **No image is a proper prefix of another.** -/
theorem Record.diskImage_append_inj {r s : Record} (hr : r.data.length < 2 ^ 32)
    (hs : s.data.length < 2 ^ 32) {rest rest' : List UInt8}
    (heq : r.diskImage ++ rest = s.diskImage ++ rest') :
    r.content = s.content ∧ rest = rest' := by
  rw [diskImage, diskImage, List.append_assoc, List.append_assoc] at heq
  obtain ⟨hheader, hrest⟩ := List.append_inj heq (by simp)
  have hfields : r.diskHeader = s.diskHeader := by
    rw [← Header.ofBytes_toBytes r.diskHeader, hheader, Header.ofBytes_toBytes]
  have hlength : r.data.length = s.data.length := by
    have hsize : UInt32.ofNat r.data.length = UInt32.ofNat s.data.length :=
      congrArg Header.size hfields
    have hnat := congrArg UInt32.toNat hsize
    rwa [UInt32.toNat_ofNat', UInt32.toNat_ofNat', Nat.mod_eq_of_lt hr, Nat.mod_eq_of_lt hs]
      at hnat
  obtain ⟨hdata, hrest⟩ := List.append_inj hrest hlength
  have htime : r.header.timestampUs = s.header.timestampUs := congrArg Header.timestampUs hfields
  have htag : r.header.tag = s.header.tag := congrArg Header.tag hfields
  exact ⟨by rw [content, content, hdata, htime, htag], hrest⟩

/-- So records that lie end to end can be told apart. -/
theorem lapCells_injective {rs : List Record} :
    ∀ {ss : List Record}, (∀ r ∈ rs, r.data.length < 2 ^ 32) → (∀ s ∈ ss, s.data.length < 2 ^ 32) →
      lapCells Record.diskImage rs = lapCells Record.diskImage ss →
        rs.map Record.content = ss.map Record.content := by
  have hne : ∀ (r : Record) (rest : List UInt8), r.diskImage ++ rest ≠ [] := by
    intro r rest hnil
    have hlength := congrArg List.length hnil
    rw [List.length_append, Record.length_diskImage, List.length_nil] at hlength
    have := r.footprint_pos
    omega
  induction rs with
  | nil =>
    intro ss _ _ heq
    cases ss with
    | nil => rfl
    | cons s ss =>
      rw [lapCells, lapCells, List.flatMap_nil, List.flatMap_cons] at heq
      exact absurd heq.symm (hne s _)
  | cons r rs ih =>
    intro ss hr hs heq
    cases ss with
    | nil =>
      rw [lapCells, lapCells, List.flatMap_nil, List.flatMap_cons] at heq
      exact absurd heq (hne r _)
    | cons s ss =>
      rw [List.forall_mem_cons] at hr hs
      rw [lapCells, lapCells, List.flatMap_cons, List.flatMap_cons] at heq
      obtain ⟨hcontent, hrest⟩ := Record.diskImage_append_inj hr.1 hs.1 heq
      rw [List.map_cons, List.map_cons, hcontent, ih hr.2 hs.2 hrest]

namespace Live

/-- In front of a write position below 4 GiB all records are short. -/
theorem short_of_writePos (b : Live) (hsmall : b.writePos < 2 ^ 32) :
    ∀ r ∈ b.log.lap, r.data.length < 2 ^ 32 := by
  intro r hr
  have hle : r.footprint ≤ (b.log.lap.map Record.footprint).sum :=
    List.le_sum_of_mem (List.mem_map_of_mem hr)
  rw [← PersistentRingBuffer.extent_diskImage, ← b.writePos_eq_extent, Record.footprint] at hle
  omega

/-- The bytes in front of the write position are those of the records of the lap. -/
theorem window_lap (b : Live) :
    window b.buf.area 0 b.writePos = lapCells Record.diskImage b.log.lap := by
  rw [b.represents.area_eq, b.writePos_eq_extent]
  exact Log.window_cells_lap b.log _

/-- **The bytes in front of the write position determine the records of the lap.**  Two buffers,
whatever has led to them, with the same write position below 4 GiB and the same bytes in front of
it, hold the same records in their current laps: as many, in the same order, with the same data,
times and tags. -/
theorem lap_determined (b b' : Live) (hsmall : b.writePos < 2 ^ 32)
    (hpos : b.writePos = b'.writePos)
    (hbytes : window b.buf.area 0 b.writePos = window b'.buf.area 0 b.writePos) :
    b.log.lap.map Record.content = b'.log.lap.map Record.content := by
  rw [b.window_lap, hpos, b'.window_lap] at hbytes
  exact lapCells_injective (b.short_of_writePos hsmall) (b'.short_of_writePos (hpos ▸ hsmall))
    hbytes

end Live

end

section Ieee

attribute [local instance] Hasher.ieee

/-- The image of a record with something in its reserved field. -/
theorem PersistentRingBuffer.readAt_answers_reserved :
    let r := Record.new [1, 2, 3] 7 0
    let b : PersistentRingBuffer := { (Live.fresh 64 (by decide) Sys.ok).buf with
      mmap := (ControlBlock.new 64).toBytes 0 ++ r.image 9 ++ List.replicate 37 0 }
    b.readAt 0 = some (.ok (some (r.stored, 27))) := by
  intro r b
  have hb : b.Sound := ⟨by decide +kernel, by decide⟩
  refine ((readAt_answers hb 0).2.2.2 r (by decide)).mpr ⟨by decide, 9, ?_⟩
  decide +kernel

/-- A buffer of 200 bytes that a reader has been at, and one of 100 that has wrapped. -/
theorem Live.lap_determined_of_two :
    let record := fun tag => Record.new (List.replicate 40 tag.toUInt8) tag 0
    let b := (fresh 200 (by decide) Sys.ok).after [.write (record 2) Sys.ok, .readAll Sys.ok]
    let b' := (fresh 100 (by decide) Sys.ok).after (Op.writes [record 1, record 2])
    b.log.lap.map Record.content = b'.log.lap.map Record.content := by
  intro record b b'
  exact lap_determined b b' (by decide +kernel) (by decide +kernel) (by decide +kernel)

end Ieee

end Sherlog
