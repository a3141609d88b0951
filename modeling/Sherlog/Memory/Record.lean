import Sherlog.Lib.Window
import Sherlog.Lib.LittleEndian
import Sherlog.Lib.Crc

/-!
# Records

The `Record` and `RecordHeader` of `memory/mod.rs`, shared by the buffer in memory
and the one on disk, and the checksum they carry.

The checksum is the business of the `crc32fast` package, so it enters as the class
`Hasher`: a function from the bytes fed to a hasher to the value it finalizes to.
`Hasher.ieee` is the one that package documents, the IEEE CRC-32, and
`Hasher.Ieee` says that a hasher is that one.
-/

namespace Sherlog

open LittleEndian Window

/-- `crc32fast::Hasher`: a fresh hasher, updated with some bytes and finalized. -/
class Hasher where
  /-- The value for the bytes fed in. -/
  finalize : List UInt8 → UInt32

/-- The reflected polynomial of the IEEE CRC-32. -/
def ieeePoly : BitVec 32 := 0xEDB88320#32

/-- The IEEE CRC-32 of a byte string. -/
def ieeeCrc32 (bytes : List UInt8) : UInt32 :=
  UInt32.ofBitVec (Crc.checksum ieeePoly 0xFFFFFFFF#32 0xFFFFFFFF#32 bytes)

/-- The hasher that computes the IEEE CRC-32. -/
@[reducible] def Hasher.ieee : Hasher := ⟨ieeeCrc32⟩

/-- The hasher in use computes the IEEE CRC-32. -/
class Hasher.Ieee [Hasher] : Prop where
  finalize_eq : ∀ bytes, Hasher.finalize bytes = ieeeCrc32 bytes

/-- `usize` and `u64` addition in the release profile: modulo `2 ^ 64`. -/
def wrapping (n : Nat) : Nat := n % 2 ^ 64

theorem wrapping_of_lt {n : Nat} (h : n < 2 ^ 64) : wrapping n = n := Nat.mod_eq_of_lt h

/-- `isize::MAX`, the longest mapping and the largest allocation. -/
def isizeMax : Nat := 2 ^ 63 - 1

/-- Record header information. -/
structure RecordHeader where
  /-- Size of the record in bytes, without the header. -/
  size : UInt32
  /-- Checksum of the record data. -/
  crc32 : UInt32
  /-- Microseconds since the epoch. -/
  timestampUs : UInt64
  /-- Record type, for filtering. -/
  tag : UInt32
deriving DecidableEq, Repr, Inhabited

/-- `RecordHeader::SIZE`: 20 bytes of fields, padded to the alignment of `u64`. -/
def RecordHeader.SIZE : Nat := 24

/-- `RecordHeader::new` at the time `now`. -/
def RecordHeader.new (size tag : UInt32) (now : UInt64) : RecordHeader :=
  { size, crc32 := 0, timestampUs := now, tag }

/-- `RecordHeader::update_crc`. -/
def RecordHeader.updateCrc [Hasher] (h : RecordHeader) (data : List UInt8) : RecordHeader :=
  { h with crc32 := Hasher.finalize data }

/-- `RecordHeader::verify_crc`. -/
def RecordHeader.verifyCrc [Hasher] (h : RecordHeader) (data : List UInt8) : Bool :=
  h.crc32 == Hasher.finalize data

/-- A record: header and data. -/
structure Record where
  header : RecordHeader
  data : List UInt8
deriving DecidableEq, Repr, Inhabited

/-- `Record::new` at the time `now`. -/
def Record.new [Hasher] (data : List UInt8) (tag : UInt32) (now : UInt64) : Record :=
  { header := (RecordHeader.new (UInt32.ofNat data.length) tag now).updateCrc data, data }

/-- What a record says: its data, its time and its tag. -/
def Record.content (r : Record) : List UInt8 × UInt64 × UInt32 :=
  (r.data, r.header.timestampUs, r.header.tag)

end Sherlog
