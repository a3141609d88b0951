import Sherlog.Disk.Run
import Sherlog.Lib.Histories
import Sherlog.Lib.Locks

/-!
# The locks of the persistent buffer

`write_lock`, `control` and `mmap` of `disk/persistent.rs`, and the calls of any number of
threads, access by access.  A thread takes a guard, looks at or changes what the guard covers,
and drops its guards at the end, the last one taken first.

* `Guard`, `Guard.rivals` — the guards, and which of them exclude one another.
* `Pc` — where a thread is in its call; `Pc.guards` — the guards that it holds there;
  `Pc.act` — what it does next.
* `Locking` — a buffer and the threads that share it; `Locking.step` — one turn.
* `PersistentRingBuffer.answer` — the same calls, each as a single step.
-/

namespace Sherlog

open Window Locks Histories

/-- A guard of one of the locks. -/
inductive Guard where
  /-- `write_lock.lock()` -/
  | writeLock
  /-- `control.write()` -/
  | controlWrite
  /-- `control.read()` -/
  | controlRead
  /-- `mmap.write()` -/
  | mmapWrite
  /-- `mmap.read()` -/
  | mmapRead
deriving DecidableEq, Repr

/-- The guards that exclude a guard. -/
def Guard.rivals : Guard → List Guard
  | .writeLock => [.writeLock]
  | .controlWrite => [.controlWrite, .controlRead]
  | .controlRead => [.controlWrite]
  | .mmapWrite => [.mmapWrite, .mmapRead]
  | .mmapRead => [.mmapWrite]

theorem Guard.rivals_symm (g g' : Guard) (h : g' ∈ g.rivals) : g ∈ g'.rivals := by
  cases g <;> cases g' <;> simp_all [Guard.rivals]

/-- The order in which a call takes its guards. -/
def Guard.rank : Guard → Nat
  | .writeLock => 0
  | .controlWrite | .controlRead => 1
  | .mmapWrite | .mmapRead => 2

/-- A call on a buffer. -/
inductive Operation where
  /-- `PersistentRingBuffer::write` -/
  | write (r : Record) (sys : Sys)
  /-- `PersistentRingBuffer::read_at` -/
  | readAt (position : UInt64)
  /-- `PersistentRingBuffer::read_all` -/
  | readAll (sys : Sys)
  /-- `PersistentRingBuffer::reset_read_position` -/
  | resetReadPosition (sys : Sys)
  /-- `PersistentRingBuffer::control_block` -/
  | controlBlock
  /-- `PersistentRingBuffer::flush` -/
  | flush (sys : Sys)
deriving DecidableEq, Repr

/-- What a call returns. -/
inductive Reply where
  | unit (res : Except PersistentError Unit)
  | found (res : Except PersistentError (Option (Record × Nat)))
  | records (res : Except PersistentError (List Record))
  | control (control : ControlBlock)

/-- What the end of `read_all`, which has found some records, and of `reset_read_position`
return after the flush. -/
def Reply.stored (found : Option (List Record)) (res : Except PersistentError Unit) : Reply :=
  match found with
  | none => .unit res
  | some rs => .records (res.map fun _ => rs)

/-- A call as a single step. -/
def PersistentRingBuffer.answer [Hasher] (b : PersistentRingBuffer) :
    Operation → Option (Reply × PersistentRingBuffer)
  | .write r sys => (b.write r sys).map fun res => (.unit res.1, res.2)
  | .readAt position => (b.readAt position).map fun res => (.found res, b)
  | .readAll sys => (b.readAll sys).map fun res => (.records res.1, res.2)
  | .resetReadPosition sys => (b.resetReadPosition sys).map fun res => (.unit res.1, res.2)
  | .controlBlock => some (.control b.control, b)
  | .flush sys => some (.unit (PersistentRingBuffer.flushed sys), b)

/-! ## The accesses of a call -/

/-- The next access of `write`. -/
inductive WritePc where
  /-- `write_lock.lock()` -/
  | lock
  /-- `control.write()` -/
  | control
  /-- The size check, and the test for a wrap. -/
  | check
  /-- `mmap.write()` -/
  | mmap (wraps : Bool)
  /-- The `if wrap`. -/
  | wrap (wraps : Bool)
  /-- The store of the header. -/
  | header
  /-- The store of the data. -/
  | data (dataPos : Nat)
  /-- The new write position, and `update_crc`. -/
  | update
  /-- The store of the control block. -/
  | store
  /-- `mmap.flush()` -/
  | flush
deriving DecidableEq, Repr

/-- The next access of `read_all`, up to its last guard. -/
inductive ReadAllPc where
  /-- `control.write()` -/
  | control
  /-- The comparison of the two positions. -/
  | check
  /-- The condition of the loop. -/
  | loop (currentPos : UInt64) (records : List Record)
  /-- `mmap.read()`, in `read_at`. -/
  | mmap (currentPos : UInt64) (records : List Record)
  /-- What `read_at` does then. -/
  | read (currentPos : UInt64) (records : List Record)
  /-- The guard of `read_at` dropped. -/
  | drop (currentPos : UInt64) (records : List Record)
  /-- The new read position, and `update_crc`. -/
  | update (currentPos : UInt64) (records : List Record)
deriving DecidableEq, Repr

/-- The next access of `reset_read_position`, up to its last guard. -/
inductive ResetPc where
  /-- `control.write()` -/
  | control
  /-- The new read position, and `update_crc`. -/
  | update
deriving DecidableEq, Repr

/-- The next access at the end of `read_all` and of `reset_read_position`. -/
inductive StorePc where
  /-- `mmap.write()` -/
  | mmap
  /-- The store of the control block. -/
  | store
  /-- `mmap.flush()` -/
  | flush
deriving DecidableEq, Repr

/-- Where a thread is. -/
inductive Pc where
  /-- In no call. -/
  | idle
  /-- In `write`. -/
  | write (r : Record) (sys : Sys) (pc : WritePc)
  /-- In `read_all`. -/
  | readAll (sys : Sys) (pc : ReadAllPc)
  /-- In `reset_read_position`. -/
  | reset (sys : Sys) (pc : ResetPc)
  /-- At the end of `read_all`, with the records found, or of `reset_read_position`. -/
  | store (found : Option (List Record)) (sys : Sys) (pc : StorePc)
  /-- In `read_at`, before or behind its guard. -/
  | readAt (position : UInt64) (guarded : Bool)
  /-- In `control_block`, before or behind its guard. -/
  | controlBlock (guarded : Bool)
  /-- In `flush`, before or behind its guard. -/
  | flush (sys : Sys) (guarded : Bool)
  /-- The guards are dropped, and the call returns. -/
  | leave (guards : List Guard) (reply : Reply)

/-- What a thread does next. -/
inductive Act where
  /-- It waits for a guard. -/
  | acquire (guard : Guard) (pc : Pc)
  /-- It drops a guard. -/
  | release (guard : Guard) (pc : Pc)
  /-- It drops its last guard and returns. -/
  | returns (guard : Guard) (reply : Reply)
  /-- It looks at the buffer, or changes it. -/
  | access (buf : PersistentRingBuffer) (pc : Pc)

namespace WritePc

/-- The guards held, the last one taken first. -/
def guards : WritePc → List Guard
  | .lock => []
  | .control => [.writeLock]
  | .check | .mmap _ => [.controlWrite, .writeLock]
  | _ => [.mmapWrite, .controlWrite, .writeLock]

/-- The next access of `write`; `none` when a slice index leaves the mapping. -/
def act [Hasher] (b : PersistentRingBuffer) (r : Record) (sys : Sys) : WritePc → Option Act
  | .lock => some (.acquire .writeLock (.write r sys .control))
  | .control => some (.acquire .controlWrite (.write r sys .check))
  | .check =>
    if b.size < r.footprint then
      some (.access b (.leave [.controlWrite, .writeLock] (.unit (.error .invalidRecord))))
    else some (.access b (.write r sys (.mmap (b.wraps r))))
  | .mmap wraps => some (.acquire .mmapWrite (.write r sys (.wrap wraps)))
  | .wrap wraps =>
    let control :=
      if wraps then { b.control with writePos := 0, wrapCount := b.control.wrapCount + 1 }
      else b.control
    some (.access { b with control } (.write r sys .header))
  | .header =>
    let headerPos := wrapping (ControlBlock.SIZE + b.control.writePos.toNat)
    (copyInto b.mmap headerPos r.diskHeader.toBytes).map fun mmap =>
      .access { b with mmap } (.write r sys (.data (wrapping (headerPos + Header.SIZE))))
  | .data dataPos =>
    (copyInto b.mmap dataPos r.data).map fun mmap =>
      .access { b with mmap } (.write r sys .update)
  | .update =>
    let control := { b.control with writePos := b.control.writePos + UInt64.ofNat r.footprint }
    some (.access { b with control := control.updateCrc } (.write r sys .store))
  | .store =>
    (copyInto b.mmap 0 (b.control.toBytes sys.pad)).map fun mmap =>
      .access { b with mmap } (.write r sys .flush)
  | .flush =>
    some (.access b (.leave [.mmapWrite, .controlWrite, .writeLock]
      (.unit (PersistentRingBuffer.flushed sys))))

end WritePc

namespace ReadAllPc

/-- The guards held, the last one taken first. -/
def guards : ReadAllPc → List Guard
  | .control => []
  | .read _ _ | .drop _ _ => [.mmapRead, .controlWrite]
  | _ => [.controlWrite]

/-- The next access of `read_all`. -/
def act [Hasher] (b : PersistentRingBuffer) (sys : Sys) : ReadAllPc → Option Act
  | .control => some (.acquire .controlWrite (.readAll sys .check))
  | .check =>
    if b.control.readPos = b.control.writePos then
      some (.access b (.leave [.controlWrite] (.records (.ok []))))
    else some (.access b (.readAll sys (.loop b.control.readPos [])))
  | .loop currentPos records =>
    if currentPos < b.control.writePos then
      some (.access b (.readAll sys (.mmap currentPos records)))
    else some (.access b (.readAll sys (.update currentPos records)))
  | .mmap currentPos records =>
    some (.acquire .mmapRead (.readAll sys (.read currentPos records)))
  | .read currentPos records =>
    (b.readAt currentPos).map fun
      | .error e => .access b (.leave [.mmapRead, .controlWrite] (.records (.error e)))
      | .ok (some (record, size)) =>
        .access b (.readAll sys (.drop (currentPos + UInt64.ofNat size) (records ++ [record])))
      | .ok none =>
        .access b (.readAll sys (.drop (currentPos + UInt64.ofNat Header.SIZE) records))
  | .drop currentPos records => some (.release .mmapRead (.readAll sys (.loop currentPos records)))
  | .update currentPos records =>
    some (.access { b with control := { b.control with readPos := currentPos }.updateCrc }
      (.store (some records) sys .mmap))

end ReadAllPc

namespace ResetPc

/-- The guards held. -/
def guards : ResetPc → List Guard
  | .control => []
  | .update => [.controlWrite]

/-- The next access of `reset_read_position`. -/
def act [Hasher] (b : PersistentRingBuffer) (sys : Sys) : ResetPc → Option Act
  | .control => some (.acquire .controlWrite (.reset sys .update))
  | .update =>
    let control := { b.control with readPos := b.control.writePos }
    some (.access { b with control := control.updateCrc } (.store none sys .mmap))

end ResetPc

namespace StorePc

/-- The guards held, the last one taken first. -/
def guards : StorePc → List Guard
  | .mmap => [.controlWrite]
  | _ => [.mmapWrite, .controlWrite]

/-- The next access at the end of the two calls. -/
def act (b : PersistentRingBuffer) (found : Option (List Record)) (sys : Sys) :
    StorePc → Option Act
  | .mmap => some (.acquire .mmapWrite (.store found sys .store))
  | .store =>
    (copyInto b.mmap 0 (b.control.toBytes sys.pad)).map fun mmap =>
      .access { b with mmap } (.store found sys .flush)
  | .flush =>
    some (.access b (.leave [.mmapWrite, .controlWrite]
      (.stored found (PersistentRingBuffer.flushed sys))))

end StorePc

namespace Pc

/-- A call just made. -/
def start : Operation → Pc
  | .write r sys => .write r sys .lock
  | .readAt position => .readAt position false
  | .readAll sys => .readAll sys .control
  | .resetReadPosition sys => .reset sys .control
  | .controlBlock => .controlBlock false
  | .flush sys => .flush sys false

/-- The guards held, the last one taken first. -/
def guards : Pc → List Guard
  | .idle => []
  | .write _ _ pc => pc.guards
  | .readAll _ pc => pc.guards
  | .reset _ pc => pc.guards
  | .store _ _ pc => pc.guards
  | .readAt _ guarded => if guarded then [.mmapRead] else []
  | .controlBlock guarded => if guarded then [.controlRead] else []
  | .flush _ guarded => if guarded then [.mmapWrite] else []
  | .leave guards _ => guards

/-- How far a call is: it takes effect when nothing is left to do but to drop its guards. -/
def phase : Pc → CallPhase Operation Reply
  | .idle => .idle
  | .write r sys _ => .pending (.write r sys)
  | .readAll sys _ => .pending (.readAll sys)
  | .reset sys _ => .pending (.resetReadPosition sys)
  | .store none sys _ => .pending (.resetReadPosition sys)
  | .store (some _) sys _ => .pending (.readAll sys)
  | .readAt position _ => .pending (.readAt position)
  | .controlBlock _ => .pending .controlBlock
  | .flush sys _ => .pending (.flush sys)
  | .leave _ reply => .done reply

/-- What a thread does next; `none` when it is in no call, or a slice index leaves the
mapping. -/
def act [Hasher] (b : PersistentRingBuffer) : Pc → Option Act
  | .idle => none
  | .write r sys pc => pc.act b r sys
  | .readAll sys pc => pc.act b sys
  | .reset sys pc => pc.act b sys
  | .store found sys pc => pc.act b found sys
  | .readAt position false => some (.acquire .mmapRead (.readAt position true))
  | .readAt position true =>
    (b.readAt position).map fun res => .access b (.leave [.mmapRead] (.found res))
  | .controlBlock false => some (.acquire .controlRead (.controlBlock true))
  | .controlBlock true => some (.access b (.leave [.controlRead] (.control b.control)))
  | .flush sys false => some (.acquire .mmapWrite (.flush sys true))
  | .flush sys true =>
    some (.access b (.leave [.mmapWrite] (.unit (PersistentRingBuffer.flushed sys))))
  | .leave [] _ => none
  | .leave [guard] reply => some (.returns guard reply)
  | .leave (guard :: guards) reply => some (.release guard (.leave guards reply))

end Pc

/-! ## Side by side -/

/-- A buffer shared by threads. -/
structure Locking (ι : Type*) where
  /-- The buffer. -/
  buf : PersistentRingBuffer
  /-- Who holds which guard. -/
  guards : Table ι Guard
  /-- Where each thread is. -/
  pc : ι → Pc

namespace Locking

/-- One turn. -/
inductive Turn (ι : Type*) where
  /-- A thread makes a call. -/
  | call (i : ι) (op : Operation)
  /-- Its call goes on. -/
  | go (i : ι)

variable {ι : Type*}

/-- Before the first call. -/
def start (b : PersistentRingBuffer) : Locking ι :=
  { buf := b, guards := fun _ => ∅, pc := fun _ => .idle }

variable [DecidableEq ι]

/-- A thread gets somewhere else. -/
def moveTo (s : Locking ι) (i : ι) (pc : Pc) : Locking ι :=
  { s with pc := Function.update s.pc i pc }

/-- One turn, with the call or the return that can be seen in it; `none` when the thread is
elsewhere, has to wait for its guard, or panics. -/
def step [Hasher] (s : Locking ι) :
    Turn ι → Option (Option (CallEvent ι Operation Reply) × Locking ι)
  | .call i op =>
    match s.pc i with
    | .idle => some (some (.call i op), s.moveTo i (.start op))
    | _ => none
  | .go i =>
    ((s.pc i).act s.buf).bind fun
      | .acquire guard pc =>
        if s.guards.Free Guard.rivals guard then
          some (none, { s with guards := s.guards.acquire i guard }.moveTo i pc)
        else none
      | .release guard pc =>
        some (none, { s with guards := s.guards.release i guard }.moveTo i pc)
      | .returns guard reply =>
        some (some (.ret i reply), { s with guards := s.guards.release i guard }.moveTo i .idle)
      | .access buf pc => some (none, { s with buf }.moveTo i pc)

end Locking

end Sherlog
