import Sherlog.Disk.Cursor
import Sherlog.Disk.Log
import Sherlog.Disk.Scan

/-!
# Runs of a buffer

The calls that change a persistent buffer, and what any list of them does to a buffer
freshly created.

* `PersistentRingBuffer.step` — one call, as the source makes it.
* `PersistentRingBuffer.unsealed` — the control block a call hands to `update_crc`, if
  it comes that far; `step_control` says that this is all a call does to the control
  block in memory.
* `Represents.step` — every call comes back, and leaves a buffer that holds the log
  with the record of an accepted write pushed (`logAfter`).
* `Live` — a buffer together with the log it holds.  `Live.fresh`, `Live.step` and
  `Live.after` are the reachable states: `Live.run_after` says that they are the states
  the raw calls go through.
* `Live.lapEnds` — where each lap of a run ended.
-/

namespace Sherlog

open LittleEndian Window LapLog

/-- A call that may change the buffer.  `read_at` and the reading calls of a cursor
leave the buffer as it is. -/
inductive Op where
  /-- `PersistentRingBuffer::write` -/
  | write (r : Record) (sys : Sys)
  /-- `PersistentRingBuffer::read_all` -/
  | readAll (sys : Sys)
  /-- `PersistentRingBuffer::reset_read_position` -/
  | resetReadPosition (sys : Sys)
  /-- `Cursor::commit` of some cursor on the buffer -/
  | commit (c : Cursor) (sys : Sys)
deriving DecidableEq, Repr

/-- The write calls of a list of records, flushed without trouble. -/
def Op.writes (rs : List Record) : List Op := rs.map fun r => .write r Sys.ok

variable [Hasher]

namespace PersistentRingBuffer

/-- What a call leaves of the buffer. -/
def step (b : PersistentRingBuffer) : Op → Option PersistentRingBuffer
  | .write r sys => (b.write r sys).map Prod.snd
  | .readAll sys => (b.readAll sys).map Prod.snd
  | .resetReadPosition sys => (b.resetReadPosition sys).map Prod.snd
  | .commit c sys => (c.commit b sys).map Prod.snd

/-- A list of calls, one after the other. -/
def run (b : PersistentRingBuffer) (ops : List Op) : Option PersistentRingBuffer :=
  ops.foldlM step b

/-- The control block that a call hands to `update_crc`. -/
def unsealed (b : PersistentRingBuffer) : Op → Option ControlBlock
  | .write r _ => if b.size < r.footprint then none else some (b.writeControl r)
  | .readAll _ =>
    if b.control.readPos = b.control.writePos then none
    else
      match b.readLoop b.control.writePos scanFuel b.control.readPos [] with
      | some (.ok (currentPos, _)) => some { b.control with readPos := currentPos }
      | _ => none
  | .resetReadPosition _ => some { b.control with readPos := b.control.writePos }
  | .commit c _ =>
    if c.commits b then some { b.control with readPos := b.control.writePos } else none

/-- The log after a call. -/
def logAfter (size : Nat) (l : Log Record) : Op → Log Record
  | .write r _ => if r.footprint ≤ size then l.push Record.diskImage size r else l
  | _ => l

/-! ## One call -/

variable {b b' : PersistentRingBuffer} {l : Log Record}

theorem storeControl_control {control : ControlBlock} {sys : Sys}
    {res : Except PersistentError Unit}
    (h : b.storeControl control sys = some (res, b')) :
    b'.control = control.updateCrc ∧ b'.size = b.size := by
  obtain ⟨mmap, -, hres⟩ := Option.map_eq_some_iff.mp h
  obtain ⟨-, rfl⟩ := Prod.mk.inj hres
  exact ⟨rfl, rfl⟩

theorem readAll_of_readLoop {sys : Sys} {currentPos : UInt64} {records : List Record}
    (hne : b.control.readPos ≠ b.control.writePos)
    (hloop : b.readLoop b.control.writePos scanFuel b.control.readPos [] =
      some (.ok (currentPos, records))) :
    b.readAll sys = (b.storeControl { b.control with readPos := currentPos } sys).map fun res =>
      (res.1.map fun _ => records, res.2) := by
  rw [readAll, if_neg hne, hloop]

/-- **A call does nothing to the control block in memory but seal another one.** -/
theorem step_control {op : Op} (h : b.step op = some b') :
    b'.control = ((b.unsealed op).map ControlBlock.updateCrc).getD b.control := by
  cases op with
  | write r sys =>
    obtain ⟨⟨res, b₁⟩, hwrite, rfl⟩ := Option.map_eq_some_iff.mp h
    by_cases hbig : b.size < r.footprint
    · rw [write, if_pos hbig] at hwrite
      rw [unsealed, if_pos hbig]
      exact congrArg control (Prod.mk.inj (Option.some.inj hwrite)).2.symm
    · rw [write, if_neg hbig] at hwrite
      rw [unsealed, if_neg hbig]
      obtain ⟨mmap, -, hres⟩ := Option.map_eq_some_iff.mp hwrite
      exact congrArg control (Prod.mk.inj hres).2.symm
  | readAll sys =>
    obtain ⟨⟨res, b₁⟩, hread, rfl⟩ := Option.map_eq_some_iff.mp h
    by_cases heq : b.control.readPos = b.control.writePos
    · rw [readAll, if_pos heq] at hread
      rw [unsealed, if_pos heq]
      exact congrArg control (Prod.mk.inj (Option.some.inj hread)).2.symm
    · rw [unsealed, if_neg heq]
      rcases hloop : b.readLoop b.control.writePos scanFuel b.control.readPos [] with
        _ | e | ⟨currentPos, records⟩
      · rw [readAll, if_neg heq, hloop] at hread
        cases hread
      · rw [readAll, if_neg heq, hloop] at hread
        exact congrArg control (Prod.mk.inj (Option.some.inj hread)).2.symm
      · rw [readAll_of_readLoop heq hloop] at hread
        obtain ⟨⟨res', b₂⟩, hstore, hres⟩ := Option.map_eq_some_iff.mp hread
        rw [← (Prod.mk.inj hres).2]
        exact (storeControl_control hstore).1
  | resetReadPosition sys =>
    obtain ⟨⟨res, b₁⟩, hreset, rfl⟩ := Option.map_eq_some_iff.mp h
    exact (storeControl_control hreset).1
  | commit c sys =>
    obtain ⟨⟨res, b₁⟩, hcommit, rfl⟩ := Option.map_eq_some_iff.mp h
    by_cases hc : c.commits b
    · rw [Cursor.commit, if_pos hc] at hcommit
      rw [unsealed, if_pos hc]
      exact (storeControl_control hcommit).1
    · rw [Cursor.commit, if_neg hc] at hcommit
      rw [unsealed, if_neg hc]
      exact congrArg control (Prod.mk.inj (Option.some.inj hcommit)).2.symm

/-- **The scan of `read_all` ends.** -/
theorem Represents.readLoop_isSome (h : b.Represents l) :
    ∃ res, b.readLoop b.control.writePos scanFuel b.control.readPos [] = some res := by
  obtain ⟨steps, q, -, -, -, hloop, -⟩ := readLoop_eq h.sound h.writePos_le b.control.readPos
  exact ⟨_, hloop⟩

/-- **`read_all` comes back and keeps the log**, from any read position. -/
theorem Represents.readAll_represents (h : b.Represents l) (sys : Sys) :
    ∃ res b', b.readAll sys = some (res, b') ∧ b'.size = b.size ∧ b'.area = b.area ∧
      b'.Represents l := by
  by_cases heq : b.control.readPos = b.control.writePos
  · exact ⟨.ok [], b, by rw [readAll, if_pos heq], rfl, rfl, h⟩
  · obtain ⟨e | ⟨currentPos, records⟩, hloop⟩ := h.readLoop_isSome
    · exact ⟨.error e, b, by rw [readAll, if_neg heq, hloop], rfl, rfl, h⟩
    · obtain ⟨b', hstore, hsize, -, harea, hb'⟩ := h.storeControl_represents currentPos sys
      exact ⟨_, b', by rw [readAll_of_readLoop heq hloop, hstore]; rfl, hsize, harea, hb'⟩

/-- **Every call comes back**, and only an accepted write changes the log. -/
theorem Represents.step (h : b.Represents l) (op : Op) :
    ∃ b', b.step op = some b' ∧ b'.size = b.size ∧ b'.Represents (logAfter b.size l op) := by
  cases op with
  | write r sys =>
    by_cases hr : r.footprint ≤ b.size
    · obtain ⟨b', hwrite, hsize, -, hb'⟩ := h.write_represents hr sys
      exact ⟨b', by rw [PersistentRingBuffer.step, hwrite]; rfl, hsize, by
        rwa [logAfter, if_pos hr]⟩
    · refine ⟨b, ?_, rfl, by rwa [logAfter, if_neg hr]⟩
      rw [PersistentRingBuffer.step, write_rejected (by omega)]
      rfl
  | readAll sys =>
    obtain ⟨res, b', hread, hsize, -, hb'⟩ := h.readAll_represents sys
    exact ⟨b', by rw [PersistentRingBuffer.step, hread]; rfl, hsize, hb'⟩
  | resetReadPosition sys =>
    obtain ⟨b', hstore, hsize, -, -, hb'⟩ := h.storeControl_represents b.control.writePos sys
    exact ⟨b', by rw [PersistentRingBuffer.step, resetReadPosition, hstore]; rfl, hsize, hb'⟩
  | commit c sys =>
    by_cases hc : c.commits b
    · obtain ⟨b', hstore, hsize, -, -, hb'⟩ := h.storeControl_represents b.control.writePos sys
      refine ⟨b', ?_, hsize, hb'⟩
      rw [PersistentRingBuffer.step, Cursor.commit, if_pos hc, resetReadPosition, hstore]
      rfl
    · exact ⟨b, by rw [PersistentRingBuffer.step, Cursor.commit, if_neg hc]; rfl, rfl, h⟩

end PersistentRingBuffer

/-! ## Reachable buffers -/

/-- A buffer and the log it holds. -/
structure Live where
  /-- The buffer. -/
  buf : PersistentRingBuffer
  /-- The log it holds. -/
  log : Log Record
  /-- The buffer does hold it. -/
  represents : buf.Represents log

namespace Live

/-- A buffer just created. -/
def fresh (size : Nat) (h : ControlBlock.SIZE + size < 2 ^ 63) (sys : Sys) : Live where
  buf := PersistentRingBuffer.fresh size sys
  log := Log.empty
  represents := PersistentRingBuffer.represents_fresh h sys

@[simp] theorem size_fresh (size : Nat) (h : ControlBlock.SIZE + size < 2 ^ 63) (sys : Sys) :
    (fresh size h sys).buf.size = size := rfl

theorem step_isSome (b : Live) (op : Op) : (b.buf.step op).isSome = true := by
  obtain ⟨b', hstep, -⟩ := b.represents.step op
  rw [hstep]
  rfl

/-- One call on a buffer that holds a log. -/
def step (b : Live) (op : Op) : Live where
  buf := (b.buf.step op).get (b.step_isSome op)
  log := PersistentRingBuffer.logAfter b.buf.size b.log op
  represents := by
    obtain ⟨b', hstep, -, hb'⟩ := b.represents.step op
    simpa [hstep] using hb'

/-- A list of calls, one after the other. -/
def after (b : Live) (ops : List Op) : Live := ops.foldl step b

theorem step_buf (b : Live) (op : Op) : b.buf.step op = some (b.step op).buf :=
  (Option.some_get _).symm

@[simp] theorem after_nil (b : Live) : b.after [] = b := rfl

@[simp] theorem after_cons (b : Live) (op : Op) (ops : List Op) :
    b.after (op :: ops) = (b.step op).after ops := rfl

@[simp] theorem after_append (b : Live) (ops ops' : List Op) :
    b.after (ops ++ ops') = (b.after ops).after ops' := List.foldl_append ..

/-- **The states of a run are those the calls of the source lead to.** -/
theorem run_after (b : Live) (ops : List Op) : b.buf.run ops = some (b.after ops).buf := by
  induction ops generalizing b with
  | nil => rfl
  | cons op ops ih =>
    rw [after_cons, ← ih, PersistentRingBuffer.run, List.foldlM_cons, b.step_buf op]
    rfl

@[simp] theorem size_step (b : Live) (op : Op) : (b.step op).buf.size = b.buf.size := by
  obtain ⟨b', hstep, hsize, -⟩ := b.represents.step op
  rw [b.step_buf op] at hstep
  rw [Option.some.inj hstep, hsize]

@[simp] theorem size_after (b : Live) (ops : List Op) : (b.after ops).buf.size = b.buf.size := by
  induction ops generalizing b with
  | nil => rfl
  | cons op ops ih => rw [after_cons, ih, size_step]

theorem control_step (b : Live) (op : Op) :
    (b.step op).buf.control =
      ((b.buf.unsealed op).map ControlBlock.updateCrc).getD b.buf.control :=
  PersistentRingBuffer.step_control (b.step_buf op)

/-! ## Writing -/

/-- The write position of a reachable buffer. -/
def writePos (b : Live) : Nat := b.buf.control.writePos.toNat

/-- The read position of a reachable buffer. -/
def readPos (b : Live) : Nat := b.buf.control.readPos.toNat

/-- Does a call start a new lap? -/
def startsLap (b : Live) : Op → Bool
  | .write r _ => decide (r.footprint ≤ b.buf.size) && b.buf.wraps r
  | _ => false

/-- The write position at the end of each lap of a run: as each new lap found it, and
last as the run leaves it. -/
def lapEnds (b : Live) : List Op → List Nat
  | [] => [b.writePos]
  | op :: ops =>
    if b.startsLap op then b.writePos :: (b.step op).lapEnds ops else (b.step op).lapEnds ops

/-- How many laps the calls of a run start. -/
def lapsStarted (b : Live) (ops : List Op) : Nat := (b.lapEnds ops).length - 1

theorem writePos_eq_extent (b : Live) : b.writePos = extent Record.diskImage b.log.lap :=
  b.represents.writePos_eq

theorem writePos_le (b : Live) : b.writePos ≤ b.buf.size := b.represents.writePos_le

/-- The write call of an accepted record. -/
theorem write_eq (b : Live) {r : Record} (hr : r.footprint ≤ b.buf.size) (sys : Sys) :
    b.buf.write r sys =
      some (PersistentRingBuffer.flushed sys, (b.step (.write r sys)).buf) := by
  obtain ⟨b', hwrite, -, -, -⟩ := b.represents.write_represents hr sys
  have hstep := b.step_buf (.write r sys)
  rw [PersistentRingBuffer.step, hwrite] at hstep
  rw [hwrite, ← Option.some.inj hstep]

theorem log_step_write (b : Live) {r : Record} (hr : r.footprint ≤ b.buf.size) (sys : Sys) :
    (b.step (.write r sys)).log = b.log.push Record.diskImage b.buf.size r := if_pos hr

theorem control_step_write (b : Live) {r : Record} (hr : r.footprint ≤ b.buf.size) (sys : Sys) :
    (b.step (.write r sys)).buf.control = (b.buf.writeControl r).updateCrc := by
  rw [control_step, PersistentRingBuffer.unsealed, if_neg (by omega)]
  rfl

theorem startsLap_write (b : Live) {r : Record} (hr : r.footprint ≤ b.buf.size) (sys : Sys) :
    b.startsLap (.write r sys) =
      decide (¬ b.log.HasRoom Record.diskImage b.buf.size r) := by
  rw [startsLap, b.represents.wraps_eq hr]
  simp [hr]

theorem readPos_step_write (b : Live) {r : Record} (hr : r.footprint ≤ b.buf.size) (sys : Sys) :
    (b.step (.write r sys)).readPos = b.readPos := by
  rw [readPos, control_step_write b hr]
  exact congrArg UInt64.toNat (b.buf.wrapControl_eq r).2.2.2

/-- **What a call does to the log.**  Either it keeps it and starts no lap, or it is an
accepted write that continues the current lap, or it is one that starts the next. -/
theorem step_cases (b : Live) (op : Op) :
    ((b.step op).log = b.log ∧ b.startsLap op = false) ∨
      ∃ r sys, op = .write r sys ∧ r.footprint ≤ b.buf.size ∧
        (b.step op).log = b.log.push Record.diskImage b.buf.size r ∧
          (b.startsLap op = true ↔ ¬ b.log.HasRoom Record.diskImage b.buf.size r) := by
  cases op with
  | write r sys =>
    by_cases hr : r.footprint ≤ b.buf.size
    · refine Or.inr ⟨r, sys, rfl, hr, b.log_step_write hr sys, ?_⟩
      rw [b.startsLap_write hr, decide_eq_true_iff]
    · exact Or.inl ⟨if_neg hr, by simp [startsLap, hr]⟩
  | readAll sys => exact Or.inl ⟨rfl, rfl⟩
  | resetReadPosition sys => exact Or.inl ⟨rfl, rfl⟩
  | commit c sys => exact Or.inl ⟨rfl, rfl⟩

/-- Within a lap the write position only grows. -/
theorem writePos_le_step (b : Live) {op : Op} (h : b.startsLap op = false) :
    b.writePos ≤ (b.step op).writePos := by
  rcases b.step_cases op with ⟨hlog, -⟩ | ⟨r, sys, -, -, hlog, hstarts⟩
  · rw [writePos_eq_extent, writePos_eq_extent, hlog]
  · have hroom : b.log.HasRoom Record.diskImage b.buf.size r := by
      by_contra hno
      rw [hstarts.mpr hno] at h
      cases h
    rw [writePos_eq_extent, writePos_eq_extent, hlog, Log.push_of_hasRoom hroom, extent_append]
    omega

/-- The first lap of a run ends at or behind the position it starts from. -/
theorem writePos_le_lapEnds (b : Live) (ops : List Op) :
    ∃ e ends, b.lapEnds ops = e :: ends ∧ b.writePos ≤ e := by
  induction ops generalizing b with
  | nil => exact ⟨_, _, rfl, le_rfl⟩
  | cons op ops ih =>
    rw [lapEnds]
    by_cases h : b.startsLap op = true
    · exact ⟨_, _, if_pos h, le_rfl⟩
    · obtain ⟨e, ends, hends, hle⟩ := ih (b.step op)
      exact ⟨e, ends, by rw [if_neg h, hends],
        (b.writePos_le_step (Bool.eq_false_iff.mpr h)).trans hle⟩

/-- The records of the current lap of a buffer below 4 GiB tile the area from its front
to the write position. -/
theorem decodesTo_lap (b : Live) (hsmall : b.buf.size < 2 ^ 32) :
    b.buf.DecodesTo 0 b.log.lap b.writePos :=
  b.represents.decodesTo_lap (List.nil_append b.log.lap).symm
    fun _ hr => b.represents.short_of_mem hsmall hr

end Live

end Sherlog
