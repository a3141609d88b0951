import Sherlog.Disk.Layout

/-!
# The persistent ring buffer

`disk/persistent.rs`, function by function.  A buffer is the mapped file, the
control block held in memory and the size of the data area.  Locks are left out:
every operation here runs from start to end by itself.

Results have two layers.  The outer `Option` is `none` when the call does not come
back: a slice index outside the mapping panics, or a scan never ends.  The inner
`Except` is the `Result` of the source.

What the operating system decides in a call is its argument `Sys`: whether
`MmapMut::flush` succeeds, and what the padding of the control block holds while it
is copied.

The stores of `write` are a list, `writeStores`, performed by `copyAll`; a crash
between two of them leaves the mapping that a shorter list makes.
-/

namespace Sherlog

open LittleEndian Window

/-- Error types for the persistent ring buffer. -/
inductive PersistentError where
  /-- An IO error occurred. -/
  | io
  /-- The buffer file is invalid or corrupted. -/
  | invalidBuffer
  /-- A record is invalid or corrupted. -/
  | invalidRecord
deriving DecidableEq, Repr

/-- What the system decides during one call. -/
structure Sys where
  /-- Does `MmapMut::flush` succeed? -/
  flush : Bool
  /-- The padding bytes of the control block when it is copied to the mapping. -/
  pad : UInt32
deriving DecidableEq, Repr

/-- A call in which the flush succeeds. -/
def Sys.ok : Sys := ⟨true, 0⟩

/-- Persistent ring buffer for disk storage. -/
@[ext] structure PersistentRingBuffer where
  /-- The mapped file. -/
  mmap : List UInt8
  /-- Control block for buffer management. -/
  control : ControlBlock
  /-- Size of the data area in bytes. -/
  size : Nat
deriving DecidableEq, Repr

/-- Rounds after which a scan whose only state is a `u64` position has repeated
itself: one that has not stopped by then never stops. -/
def scanFuel : Nat := 2 ^ 64 + 1

namespace PersistentRingBuffer

variable [Hasher]

/-- The result of `mmap.flush()?`. -/
def flushed (sys : Sys) : Except PersistentError Unit :=
  if sys.flush then .ok () else .error .io

/-- `PersistentRingBuffer::new` on a file with the given content; `size` only matters
when the file is new. -/
def new (file : List UInt8) (size : Nat) (sys : Sys) :
    Option (Except PersistentError PersistentRingBuffer) :=
  if file = [] then
    let totalSize := wrapping (size + ControlBlock.SIZE)
    -- neither `set_len` nor the mapping goes beyond `isize::MAX`
    if isizeMax < totalSize then some (.error .io)
    else
      let control := ControlBlock.new (UInt64.ofNat size)
      (copyInto (List.replicate totalSize 0) 0 (control.toBytes sys.pad)).map fun mmap =>
        .ok { mmap, control, size }
  else
    (slice file 0 ControlBlock.SIZE).map fun controlBytes =>
      let control := ControlBlock.ofBytes controlBytes
      if control.magic ≠ ControlBlock.MAGIC ∨ control.verifyCrc = false then
        .error .invalidBuffer
      else .ok { mmap := file, control, size := control.bufferSize.toNat }

/-! ## Writing -/

/-- The `wrap` of `write`: the record does not fit behind the write position. -/
def wraps (b : PersistentRingBuffer) (r : Record) : Bool :=
  decide (wrapping (ControlBlock.SIZE + b.size) <
    wrapping (wrapping (ControlBlock.SIZE + b.control.writePos.toNat) + r.footprint))

/-- The control block after the `if wrap` of `write`. -/
def wrapControl (b : PersistentRingBuffer) (r : Record) : ControlBlock :=
  if b.wraps r then { b.control with writePos := 0, wrapCount := b.control.wrapCount + 1 }
  else b.control

/-- The control block `write` seals: the write position moved behind the record. -/
def writeControl (b : PersistentRingBuffer) (r : Record) : ControlBlock :=
  let control := b.wrapControl r
  { control with writePos := control.writePos + UInt64.ofNat r.footprint }

/-- The three stores of `write` into the mapping, in order: header, data, control
block. -/
def writeStores (b : PersistentRingBuffer) (r : Record) (sys : Sys) :
    List (Nat × List UInt8) :=
  let headerPos := wrapping (ControlBlock.SIZE + (b.wrapControl r).writePos.toNat)
  let dataPos := wrapping (headerPos + Header.SIZE)
  [(headerPos, r.diskHeader.toBytes), (dataPos, r.data),
    (0, (b.writeControl r).updateCrc.toBytes sys.pad)]

/-- `PersistentRingBuffer::write`. -/
def write (b : PersistentRingBuffer) (r : Record) (sys : Sys) :
    Option (Except PersistentError Unit × PersistentRingBuffer) :=
  if b.size < r.footprint then some (.error .invalidRecord, b)
  else
    (copyAll b.mmap (b.writeStores r sys)).map fun mmap =>
      (flushed sys, { b with mmap, control := (b.writeControl r).updateCrc })

/-! ## Reading -/

/-- `PersistentRingBuffer::read_at`. -/
def readAt (b : PersistentRingBuffer) (position : UInt64) :
    Option (Except PersistentError (Option (Record × Nat))) :=
  if b.size ≤ position.toNat then some (.ok none)
  else
    let absPos := wrapping (ControlBlock.SIZE + position.toNat)
    if b.mmap.length < wrapping (absPos + Header.SIZE) then some (.ok none)
    else
      (slice b.mmap absPos (wrapping (absPos + Header.SIZE))).bind fun headerBytes =>
        let header := Header.ofBytes headerBytes
        if header.isValid = false then some (.ok none)
        else
          let dataSize := header.size.toNat
          let dataPos := wrapping (absPos + Header.SIZE)
          if b.mmap.length < wrapping (dataPos + dataSize) then some (.ok none)
          else
            (slice b.mmap dataPos (wrapping (dataPos + dataSize))).map fun data =>
              if header.verifyCrc data = false then .error .invalidRecord
              else
                .ok (some ({ header := { size := header.size, crc32 := header.crc32,
                                         timestampUs := header.timestampUs, tag := header.tag },
                             data }, Header.SIZE + dataSize))

/-- The `while` loop of `read_all`: from `currentPos` up to `writePos`, collecting
records. -/
def readLoop (b : PersistentRingBuffer) (writePos : UInt64) :
    Nat → UInt64 → List Record → Option (Except PersistentError (UInt64 × List Record))
  | 0, _, _ => none
  | fuel + 1, currentPos, records =>
    if currentPos < writePos then
      match b.readAt currentPos with
      | none => none
      | some (.error e) => some (.error e)
      | some (.ok (some (record, size))) =>
        b.readLoop writePos fuel (currentPos + UInt64.ofNat size) (records ++ [record])
      | some (.ok none) =>
        b.readLoop writePos fuel (currentPos + UInt64.ofNat Header.SIZE) records
    else some (.ok (currentPos, records))

/-- The end of `read_all` and of `reset_read_position`: seal the control block, copy it
to the mapping and flush. -/
def storeControl (b : PersistentRingBuffer) (control : ControlBlock) (sys : Sys) :
    Option (Except PersistentError Unit × PersistentRingBuffer) :=
  (copyInto b.mmap 0 (control.updateCrc.toBytes sys.pad)).map fun mmap =>
    (flushed sys, { b with mmap, control := control.updateCrc })

/-- `PersistentRingBuffer::read_all`. -/
def readAll (b : PersistentRingBuffer) (sys : Sys) :
    Option (Except PersistentError (List Record) × PersistentRingBuffer) :=
  if b.control.readPos = b.control.writePos then some (.ok [], b)
  else
    match b.readLoop b.control.writePos scanFuel b.control.readPos [] with
    | none => none
    | some (.error e) => some (.error e, b)
    | some (.ok (currentPos, records)) =>
      (b.storeControl { b.control with readPos := currentPos } sys).map fun res =>
        (res.1.map fun _ => records, res.2)

/-- `PersistentRingBuffer::reset_read_position`. -/
def resetReadPosition (b : PersistentRingBuffer) (sys : Sys) :
    Option (Except PersistentError Unit × PersistentRingBuffer) :=
  b.storeControl { b.control with readPos := b.control.writePos } sys

end PersistentRingBuffer

end Sherlog
