import Sherlog.Disk.Persistent

/-!
# Cursors

`disk/cursor.rs`.  A cursor shares its buffer with everybody else, so the buffer is
an argument of each operation; the cursor itself is a position and the cached flag
`atEnd`.

`next` reads twice from the shared buffer: the record at its position, and then the
control block.  `settle` is what it does with the two, and returns no result when it
goes round again.
-/

namespace Sherlog

/-- A position in the persistent ring buffer. -/
structure Position where
  /-- Position in the buffer. -/
  offset : UInt64
  /-- Wrap count when this position was created. -/
  wrapCount : UInt64
deriving DecidableEq, Repr

/-- A cursor for reading records from the persistent ring buffer. -/
structure Cursor where
  /-- Current position in the buffer. -/
  position : Position
  /-- Whether the cursor has reached the end of available data. -/
  atEnd : Bool
deriving DecidableEq, Repr

namespace Cursor

/-- `Cursor::new`. -/
def new (b : PersistentRingBuffer) (position : Option Position) : Cursor :=
  let position := position.getD ⟨b.control.readPos, b.control.wrapCount⟩
  { position, atEnd := position.offset == b.control.writePos &&
      position.wrapCount == b.control.wrapCount }

/-- `next` after `read_at` has come back with `found`, given the control block loaded
then: the cursor moved on, and the result unless `next` calls itself again. -/
def settle (c : Cursor) (control : ControlBlock) :
    Option (Record × Nat) → Cursor × Option (Option Record)
  | some (record, size) =>
    let position := { c.position with offset := c.position.offset + UInt64.ofNat size }
    ({ position, atEnd := position.offset == control.writePos &&
        position.wrapCount == control.wrapCount }, some (some record))
  | none =>
    let position := { c.position with offset := c.position.offset + UInt64.ofNat Header.SIZE }
    let atEnd := decide (control.writePos ≤ position.offset) &&
      decide (control.wrapCount ≤ position.wrapCount)
    ({ position, atEnd }, if atEnd then some none else none)

variable [Hasher]

/-- `Cursor::next`, cut off after `fuel` calls of itself. -/
def nextLoop (b : PersistentRingBuffer) :
    Nat → Cursor → Option (Except PersistentError (Option Record) × Cursor)
  | 0, _ => none
  | fuel + 1, c =>
    if c.atEnd then some (.ok none, c)
    else
      match b.readAt c.position.offset with
      | none => none
      | some (.error e) => some (.error e, c)
      | some (.ok found) =>
        match c.settle b.control found with
        | (c', some result) => some (.ok result, c')
        | (c', none) => nextLoop b fuel c'

/-- `Cursor::next`; `none` when it never returns. -/
def next (c : Cursor) (b : PersistentRingBuffer) :
    Option (Except PersistentError (Option Record) × Cursor) := nextLoop b scanFuel c

/-- The `for` loop of `read_batch`, with the records collected so far. -/
def readBatchLoop (b : PersistentRingBuffer) :
    Nat → Cursor → List Record → Option (Except PersistentError (List Record) × Cursor)
  | 0, c, records => some (.ok records, c)
  | n + 1, c, records =>
    match c.next b with
    | none => none
    | some (.error e, c') => some (.error e, c')
    | some (.ok none, c') => some (.ok records, c')
    | some (.ok (some record), c') => readBatchLoop b n c' (records ++ [record])

omit [Hasher] in
/-- Does `Vec::with_capacity(max_count)` panic?  A `Record` is its header and the 24 bytes of a
`Vec`, and no vector is larger than `isize::MAX`. -/
def capacityOverflow (maxCount : Nat) : Bool :=
  decide (isizeMax < maxCount * (RecordHeader.SIZE + 24))

/-- `Cursor::read_batch`; `none` when it panics or never returns. -/
def readBatch (c : Cursor) (b : PersistentRingBuffer) (maxCount : Nat) :
    Option (Except PersistentError (List Record) × Cursor) :=
  if capacityOverflow maxCount then none else readBatchLoop b maxCount c []

omit [Hasher] in
/-- `Cursor::seek_to`. -/
def seekTo (b : PersistentRingBuffer) (position : Position) : Cursor :=
  let control := b.control
  if control.wrapCount < position.wrapCount ∨
      (position.wrapCount = control.wrapCount ∧ control.writePos < position.offset) then
    { position := ⟨control.writePos, control.wrapCount⟩, atEnd := true }
  else if position.wrapCount < control.wrapCount then
    { position := ⟨0, control.wrapCount⟩, atEnd := false }
  else { position, atEnd := position.offset == control.writePos }

/-- `Cursor::seek_to_end`. -/
def seekToEnd (b : PersistentRingBuffer) : Cursor :=
  { position := ⟨b.control.writePos, b.control.wrapCount⟩, atEnd := true }

/-- The test of `Cursor::commit`: the position lies in the current lap, ahead of the
read position and not beyond the write position. -/
def commits (c : Cursor) (b : PersistentRingBuffer) : Bool :=
  c.position.wrapCount == b.control.wrapCount &&
    (decide (b.control.readPos < c.position.offset) &&
      decide (c.position.offset ≤ b.control.writePos))

/-- `Cursor::commit`. -/
def commit (c : Cursor) (b : PersistentRingBuffer) (sys : Sys) :
    Option (Except PersistentError Unit × PersistentRingBuffer) :=
  if c.commits b then
    -- `control` is a copy: the read position written to it goes nowhere
    let _control := { b.control with readPos := c.position.offset }
    b.resetReadPosition sys
  else some (.ok (), b)

end Cursor

end Sherlog
