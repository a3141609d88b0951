import Sherlog.Memory.Record

/-!
# The bytes on disk

The two `repr(C)` structs of `disk/mod.rs` and their images in the mapped file, on
a 64-bit little-endian target.

* `ControlBlock` — the first 48 bytes of the file: 44 bytes of fields and four
  bytes of padding that the compiler leaves as they are (the parameter `pad`).
  `ofBytes_toBytes` reads a block back.
* `updateCrc` / `verifyCrc` hash all but the last four bytes of the struct.  Those
  last four bytes are the padding: the 44 bytes hashed end with the checksum field
  itself (`hashedBytes_eq`).  So `verifyCrc_updateCrc` does not say that a block
  just sealed verifies; it verifies exactly when it did so before it was sealed.
* `Header` — the 24 bytes in front of the data of a record, without padding.
* `Record.diskImage` — the bytes `write` stores for a record, and `Record.stored`,
  the record `readAt` makes of them.
-/

namespace Sherlog

open LittleEndian Window

/-! ## The control block -/

/-- Buffer control block for persistent storage. -/
structure ControlBlock where
  /-- Magic number to identify the buffer format. -/
  magic : UInt32
  /-- Version of the buffer format. -/
  version : UInt32
  /-- Total size of the buffer in bytes. -/
  bufferSize : UInt64
  /-- Current write position. -/
  writePos : UInt64
  /-- Current read position. -/
  readPos : UInt64
  /-- Number of wraps around the buffer. -/
  wrapCount : UInt64
  /-- Checksum of the control block. -/
  crc32 : UInt32
deriving DecidableEq, Repr, Inhabited

namespace ControlBlock

/-- `ControlBlock::SIZE`. -/
def SIZE : Nat := 48

/-- `ControlBlock::MAGIC`, "SHRL". -/
def MAGIC : UInt32 := 0x5348524C

/-- `ControlBlock::VERSION`. -/
def VERSION : UInt32 := 1

/-- The fields in struct order, with their widths; the last is the padding. -/
def fields (c : ControlBlock) (pad : UInt32) : List (Nat × Nat) :=
  [(4, c.magic.toNat), (4, c.version.toNat), (8, c.bufferSize.toNat), (8, c.writePos.toNat),
    (8, c.readPos.toNat), (8, c.wrapCount.toNat), (4, c.crc32.toNat), (4, pad.toNat)]

/-- The image of the struct in memory, with `pad` in its padding. -/
def toBytes (c : ControlBlock) (pad : UInt32) : List UInt8 := packFields (c.fields pad)

/-- The struct that `ptr::read` takes out of an image. -/
def ofBytes (bytes : List UInt8) : ControlBlock :=
  let f := unpackFields [4, 4, 8, 8, 8, 8, 4] bytes
  { magic := UInt32.ofNat (f.getD 0 0), version := UInt32.ofNat (f.getD 1 0),
    bufferSize := UInt64.ofNat (f.getD 2 0), writePos := UInt64.ofNat (f.getD 3 0),
    readPos := UInt64.ofNat (f.getD 4 0), wrapCount := UInt64.ofNat (f.getD 5 0),
    crc32 := UInt32.ofNat (f.getD 6 0) }

/-- The bytes the checksum is taken over: the first `SIZE - 4` of the struct, out of
the reach of the padding. -/
def hashedBytes (c : ControlBlock) : List UInt8 := (c.toBytes 0).take (SIZE - 4)

/-- `ControlBlock::update_crc`. -/
def updateCrc [Hasher] (c : ControlBlock) : ControlBlock :=
  { c with crc32 := Hasher.finalize c.hashedBytes }

/-- `ControlBlock::verify_crc`. -/
def verifyCrc [Hasher] (c : ControlBlock) : Bool := c.crc32 == Hasher.finalize c.hashedBytes

/-- The block `ControlBlock::new` fills in before it calls `update_crc`. -/
def blank (bufferSize : UInt64) : ControlBlock :=
  { magic := MAGIC, version := VERSION, bufferSize, writePos := 0, readPos := 0, wrapCount := 0,
    crc32 := 0 }

/-- `ControlBlock::new`. -/
def new [Hasher] (bufferSize : UInt64) : ControlBlock := (blank bufferSize).updateCrc

end ControlBlock

/-! ## The record header -/

/-- Record header for disk storage. -/
structure Header where
  /-- Size of the record data in bytes. -/
  size : UInt32
  /-- Checksum of the record data. -/
  crc32 : UInt32
  /-- Microseconds since the epoch. -/
  timestampUs : UInt64
  /-- Record type. -/
  tag : UInt32
  /-- A marker indicating a valid record. -/
  marker : UInt16
  /-- Reserved for future use. -/
  reserved : UInt16
deriving DecidableEq, Repr, Inhabited

namespace Header

/-- `Header::SIZE`. -/
def SIZE : Nat := 24

/-- `Header::MARKER`. -/
def MARKER : UInt16 := 0xAA55

/-- `Header::new`. -/
def new (size : UInt32) (timestampUs : UInt64) (tag : UInt32) : Header :=
  { size, crc32 := 0, timestampUs, tag, marker := MARKER, reserved := 0 }

/-- `Header::update_crc`. -/
def updateCrc [Hasher] (h : Header) (data : List UInt8) : Header :=
  { h with crc32 := Hasher.finalize data }

/-- `Header::verify_crc`. -/
def verifyCrc [Hasher] (h : Header) (data : List UInt8) : Bool := h.crc32 == Hasher.finalize data

/-- `Header::is_valid`. -/
def isValid (h : Header) : Bool := h.marker == MARKER

/-- The fields in struct order, with their widths. -/
def fields (h : Header) : List (Nat × Nat) :=
  [(4, h.size.toNat), (4, h.crc32.toNat), (8, h.timestampUs.toNat), (4, h.tag.toNat),
    (2, h.marker.toNat), (2, h.reserved.toNat)]

/-- The image of the struct in memory. -/
def toBytes (h : Header) : List UInt8 := packFields h.fields

/-- The struct that `ptr::read` takes out of an image. -/
def ofBytes (bytes : List UInt8) : Header :=
  let f := unpackFields [4, 4, 8, 4, 2, 2] bytes
  { size := UInt32.ofNat (f.getD 0 0), crc32 := UInt32.ofNat (f.getD 1 0),
    timestampUs := UInt64.ofNat (f.getD 2 0), tag := UInt32.ofNat (f.getD 3 0),
    marker := UInt16.ofNat (f.getD 4 0), reserved := UInt16.ofNat (f.getD 5 0) }

end Header

/-! ## Round trips -/

namespace ControlBlock

@[simp] theorem length_toBytes (c : ControlBlock) (pad : UInt32) :
    (c.toBytes pad).length = SIZE := by
  rw [toBytes, length_packFields]
  rfl

/-- The fields without the padding. -/
theorem toBytes_eq (c : ControlBlock) (pad : UInt32) :
    c.toBytes pad = packFields ((c.fields pad).take 7) ++ leBytes 4 pad.toNat := by
  simp [toBytes, fields, packFields_cons]

/-- **A control block reads back**, whatever lies in its padding and behind it. -/
theorem ofBytes_toBytes (c : ControlBlock) (pad : UInt32) (rest : List UInt8) :
    ofBytes (c.toBytes pad ++ rest) = c := by
  have key := unpackFields_packFields ((c.fields pad).take 7) (leBytes 4 pad.toNat ++ rest)
  rw [← List.append_assoc, ← toBytes_eq] at key
  have hwidths : ((c.fields pad).take 7).map Prod.fst = [4, 4, 8, 8, 8, 8, 4] := rfl
  rw [hwidths] at key
  simp only [ofBytes, key]
  simp only [fields, List.take_succ_cons, List.map_cons, List.getD_cons_zero,
    List.getD_cons_succ, uint32_ofNat_mod, uint64_ofNat_mod]

/-- The bytes hashed are the fields in front of the checksum and then the checksum
field itself; only the padding is left out. -/
theorem hashedBytes_eq (c : ControlBlock) :
    c.hashedBytes = packFields ((c.fields 0).take 6) ++ leBytes 4 c.crc32.toNat := by
  have hsplit : c.toBytes 0 =
      (packFields ((c.fields 0).take 6) ++ leBytes 4 c.crc32.toNat) ++ leBytes 4 0 := by
    simp [toBytes, fields, packFields_cons]
  have hlen : (packFields ((c.fields 0).take 6) ++ leBytes 4 c.crc32.toNat).length = SIZE - 4 := by
    rw [List.length_append, length_packFields, length_leBytes]
    rfl
  rw [hashedBytes, hsplit, List.take_left' hlen]

end ControlBlock

namespace Header

@[simp] theorem length_toBytes (h : Header) : h.toBytes.length = SIZE := by
  rw [toBytes, length_packFields]
  rfl

/-- **A record header reads back.** -/
theorem ofBytes_toBytes (h : Header) : ofBytes h.toBytes = h := by
  have key := unpackFields_packFields h.fields []
  have hwidths : h.fields.map Prod.fst = [4, 4, 8, 4, 2, 2] := rfl
  rw [hwidths, List.append_nil] at key
  simp only [ofBytes, toBytes, key]
  simp only [fields, List.map_cons, List.getD_cons_zero, List.getD_cons_succ,
    uint16_ofNat_mod, uint32_ofNat_mod, uint64_ofNat_mod]

end Header

/-! ## The checksum of the control block -/

/-- Bytes that differ in one burst of at most four have different checksums. -/
theorem ieeeCrc32_burst (front back : List UInt8) {as bs : List UInt8}
    (hlen : as.length = bs.length) (hfit : as.length ≤ 4)
    (h : ieeeCrc32 (front ++ as ++ back) = ieeeCrc32 (front ++ bs ++ back)) : as = bs :=
  Crc.checksum_burst ieeePoly (by decide) (by decide) _ _ front back hlen (by omega)
    (congrArg UInt32.toBitVec h)

theorem ieeeCrc32_append_injective (front : List UInt8) {x y : UInt32}
    (h : ieeeCrc32 (front ++ leBytes 4 x.toNat) = ieeeCrc32 (front ++ leBytes 4 y.toNat)) :
    x = y := by
  have hbytes : leBytes 4 x.toNat = leBytes 4 y.toNat :=
    ieeeCrc32_burst front [] (by simp) (by simp) (by simpa using h)
  exact UInt32.toNat_inj.mp (leBytes_injective_of_lt x.toNat_lt y.toNat_lt hbytes)

/-- **A sealed control block verifies exactly when it verified before it was sealed**,
because the checksum is one of the fields it is taken over. -/
theorem ControlBlock.verifyCrc_updateCrc [Hasher] [Hasher.Ieee] (c : ControlBlock) :
    c.updateCrc.verifyCrc = c.verifyCrc := by
  have hfront : (c.updateCrc.fields 0).take 6 = (c.fields 0).take 6 := rfl
  simp only [verifyCrc, updateCrc, hashedBytes_eq, Hasher.Ieee.finalize_eq] at hfront ⊢
  rw [hfront]
  by_cases h : c.crc32 = ieeeCrc32 (packFields ((c.fields 0).take 6) ++ leBytes 4 c.crc32.toNat)
  · rw [← h, ← h]
  · have hne : ¬ ieeeCrc32 (packFields ((c.fields 0).take 6) ++ leBytes 4 c.crc32.toNat) =
        ieeeCrc32 (packFields ((c.fields 0).take 6) ++ leBytes 4
          (ieeeCrc32 (packFields ((c.fields 0).take 6) ++ leBytes 4 c.crc32.toNat)).toNat) :=
      fun hc => h (ieeeCrc32_append_injective _ hc)
    rw [beq_eq_false_iff_ne.mpr hne, beq_eq_false_iff_ne.mpr h]

/-! ## Records on disk -/

/-- The header `write` puts in front of a record. -/
def Record.diskHeader [Hasher] (r : Record) : Header :=
  (Header.new (UInt32.ofNat r.data.length) r.header.timestampUs r.header.tag).updateCrc r.data

/-- The bytes `write` stores for a record. -/
def Record.diskImage [Hasher] (r : Record) : List UInt8 := r.diskHeader.toBytes ++ r.data

/-- The record as `readAt` returns it: the size and the checksum are those of the
data, whatever the header of the record written said. -/
def Record.stored [Hasher] (r : Record) : Record :=
  { header := { size := UInt32.ofNat r.data.length, crc32 := Hasher.finalize r.data,
                timestampUs := r.header.timestampUs, tag := r.header.tag },
    data := r.data }

/-- The room a record takes. -/
def Record.footprint (r : Record) : Nat := Header.SIZE + r.data.length

theorem Record.footprint_pos (r : Record) : 0 < r.footprint := by
  simp [footprint, Header.SIZE]

@[simp] theorem Record.length_diskImage [Hasher] (r : Record) :
    r.diskImage.length = r.footprint := by
  simp [diskImage, footprint]

@[simp] theorem Record.content_stored [Hasher] (r : Record) : r.stored.content = r.content := rfl

/-- What is stored depends on the data, the time and the tag only. -/
theorem Record.diskImage_of_content [Hasher] {r s : Record} (h : r.content = s.content) :
    r.diskImage = s.diskImage := by
  simp only [content, Prod.mk.injEq] at h
  obtain ⟨hdata, htime, htag⟩ := h
  rw [diskImage, diskImage, diskHeader, diskHeader, hdata, htime, htag]

end Sherlog
