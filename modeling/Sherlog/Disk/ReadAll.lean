import Sherlog.Disk.Run

/-!
# What `read_all` returns

`read_all` scans from the read position to the write position, both offsets without a
lap.

* `Live.readAll_of_boundary` — when the read position is a record boundary of the
  current lap, the scan returns the records behind it and stops at the write position.
* `Live.readAll_of_writePos_le` — when the read position is not below the write
  position, nothing is scanned at all.
* `Live.readAll_firstLap` — before the first wrap the read position is always a
  boundary, so `read_all` returns what was accepted since the last call.
* `Live.readAll_misses_wrap` — a reader that had caught up and then sees the writer wrap
  is in the second case: it is told that there is nothing to read.
-/

namespace Sherlog

open LapLog PersistentRingBuffer

/-- What the system decides in a call. -/
def Op.sys : Op → Sys
  | .write _ sys => sys
  | .readAll sys => sys
  | .resetReadPosition sys => sys
  | .commit _ sys => sys

/-- Is the call one of the buffer itself? -/
def Op.ofBuffer : Op → Bool
  | .commit _ _ => false
  | _ => true

/-- The records the writes of a run put into a buffer of the given size. -/
def Op.accepted (size : Nat) (ops : List Op) : List Record :=
  ops.filterMap fun
    | .write r _ => if r.footprint ≤ size then some r else none
    | _ => none

/-- The records accepted since the last `read_all` or `reset_read_position`, given those
before the call. -/
def Op.unread (size : Nat) (unread : List Record) : Op → List Record
  | .write r _ => if r.footprint ≤ size then unread ++ [r] else unread
  | .readAll _ => []
  | .resetReadPosition _ => []
  | .commit _ _ => unread

namespace Live

section

variable [Hasher]

/-! ## From a record boundary -/

/-- The scan from a record boundary of the current lap finds the rest of the lap. -/
theorem readLoop_of_boundary (b : Live) {front rest : List Record}
    (hlap : b.log.lap = front ++ rest) (hpos : b.readPos = extent Record.diskImage front)
    (hshort : ∀ r ∈ rest, r.data.length < 2 ^ 32) :
    b.buf.readLoop b.buf.control.writePos scanFuel b.buf.control.readPos [] =
      some (.ok (b.buf.control.writePos, rest.map Record.stored)) := by
  have hdecodes := b.represents.decodesTo_lap hlap hshort
  rw [← hpos] at hdecodes
  have hscan : b.buf.readLoop b.buf.control.writePos scanFuel (UInt64.ofNat b.readPos) [] =
      some (.ok (b.buf.control.writePos, [] ++ rest.map Record.stored)) :=
    readLoop_of_decodesTo hdecodes hdecodes.length_lt_scanFuel
  rwa [readPos, UInt64.ofNat_toNat, List.nil_append] at hscan

/-- What `read_all` returns is what its scan has found. -/
theorem found_eq_of_readLoop (b : Live) {currentPos : UInt64} {records found : List Record}
    (hloop : b.buf.readLoop b.buf.control.writePos scanFuel b.buf.control.readPos [] =
      some (.ok (currentPos, records)))
    {sys : Sys} {b' : PersistentRingBuffer} (hread : b.buf.readAll sys = some (.ok found, b')) :
    found = records := by
  by_cases heq : b.buf.control.readPos = b.buf.control.writePos
  · have hnot : ¬ b.buf.control.readPos < b.buf.control.writePos := by
      rw [heq, UInt64.lt_iff_toNat_lt]
      omega
    rw [scanFuel, readLoop, if_neg hnot] at hloop
    rw [readAll, if_pos heq] at hread
    simp only [Option.some.injEq, Prod.mk.injEq, Except.ok.injEq] at hloop hread
    exact hread.1.symm.trans hloop.2
  · rw [readAll_of_readLoop heq hloop] at hread
    obtain ⟨⟨e | _, b''⟩, -, hres⟩ := Option.map_eq_some_iff.mp hread
    · cases (Prod.mk.inj hres).1
    · exact (Except.ok.inj (Prod.mk.inj hres).1).symm

/-- **From a record boundary of the current lap `read_all` returns the rest of the lap**
and leaves the read position at the write position. -/
theorem readAll_of_boundary (b : Live) {front rest : List Record}
    (hlap : b.log.lap = front ++ rest) (hpos : b.readPos = extent Record.diskImage front)
    (hshort : ∀ r ∈ rest, r.data.length < 2 ^ 32) {sys : Sys} (hflush : sys.flush = true) :
    b.buf.readAll sys =
        some (.ok (rest.map Record.stored), (b.step (.readAll sys)).buf) ∧
      (b.step (.readAll sys)).readPos = b.writePos := by
  have hwrite := b.writePos_eq_extent
  by_cases hrest : rest = []
  · have heq : b.buf.control.readPos = b.buf.control.writePos := by
      rw [← UInt64.toNat_inj]
      show b.readPos = b.writePos
      rw [hpos, hwrite, hlap, hrest, List.append_nil]
    have hread : b.buf.readAll sys = some (.ok [], b.buf) := if_pos heq
    have hstep : (b.step (.readAll sys)).buf = b.buf := by
      have := b.step_buf (.readAll sys)
      rw [PersistentRingBuffer.step, hread] at this
      exact (Option.some.inj this).symm
    refine ⟨by rw [hread, hstep, hrest]; rfl, ?_⟩
    rw [readPos, hstep, heq, writePos]
  · have hne : b.buf.control.readPos ≠ b.buf.control.writePos := by
      intro heq
      have hlt := @extent_lt_of_ne_nil _ front rest hrest
      rw [← hlap, ← hwrite, ← hpos, readPos, writePos, heq] at hlt
      omega
    obtain ⟨b', hstore, -, hcontrol, -⟩ :=
      b.represents.storeControl_represents b.buf.control.writePos sys
    have hread : b.buf.readAll sys = some (.ok (rest.map Record.stored), b') := by
      rw [readAll_of_readLoop hne (b.readLoop_of_boundary hlap hpos hshort), hstore, flushed,
        hflush]
      rfl
    have hstep : (b.step (.readAll sys)).buf = b' := by
      have := b.step_buf (.readAll sys)
      rw [PersistentRingBuffer.step, hread] at this
      exact (Option.some.inj this).symm
    refine ⟨by rw [hread, hstep], ?_⟩
    rw [readPos, hstep, hcontrol]
    rfl

/-! ## The first lap -/

/-- The state of a reader during the first lap: every accepted record is in the lap, and
the read position is the boundary behind which the unread ones begin. -/
structure InFirstLap (b : Live) (accepted unread : List Record) : Prop where
  past_eq : b.log.past = []
  lap_eq : b.log.lap = accepted
  boundary : ∃ front, accepted = front ++ unread ∧ b.readPos = extent Record.diskImage front

/-- While the wrap counter stays zero a write has room behind the last record. -/
theorem hasRoom_of_wrapCount (b : Live) {r : Record} (hr : r.footprint ≤ b.buf.size) {sys : Sys}
    (hpast : b.log.past = []) (hwrap : (b.step (.write r sys)).buf.control.wrapCount = 0) :
    b.log.HasRoom Record.diskImage b.buf.size r := by
  by_contra hno
  have hcount := (b.step (.write r sys)).represents.wrapCount_eq
  rw [hwrap, log_step_write b hr, Log.push_of_not_hasRoom hno, hpast] at hcount
  have hone : (0 : UInt64) = 1 := hcount
  exact absurd hone (by decide)

/-- **One call in the first lap.** -/
theorem InFirstLap.step {b : Live} {accepted unread : List Record} {op : Op}
    (hb : b.InFirstLap accepted unread) (hsmall : b.buf.size < 2 ^ 32)
    (hflush : op.sys.flush = true) (hbuffer : op.ofBuffer = true)
    (hwrap : (b.step op).buf.control.wrapCount = 0) :
    (b.step op).InFirstLap (accepted ++ Op.accepted b.buf.size [op])
      (op.unread b.buf.size unread) := by
  obtain ⟨front, hsplit, hpos⟩ := hb.boundary
  cases op with
  | write r sys =>
    by_cases hr : r.footprint ≤ b.buf.size
    · have hroom := b.hasRoom_of_wrapCount hr hb.past_eq hwrap
      have hlog := b.log_step_write hr sys
      rw [Log.push_of_hasRoom hroom] at hlog
      refine ⟨by rw [hlog, hb.past_eq], ?_, front, ?_, ?_⟩
      · rw [hlog, hb.lap_eq]
        simp [Op.accepted, hr]
      · simp [Op.accepted, Op.unread, hr, hsplit]
      · rw [b.readPos_step_write hr, hpos]
    · have hlog : (b.step (.write r sys)).log = b.log := if_neg hr
      have hcontrol := b.control_step (.write r sys)
      rw [unsealed, if_pos (by omega), Option.map_none, Option.getD_none] at hcontrol
      refine ⟨by rw [hlog, hb.past_eq], ?_, front, ?_, ?_⟩
      · rw [hlog, hb.lap_eq]
        simp [Op.accepted, hr]
      · simp [Op.accepted, Op.unread, hr, hsplit]
      · rw [readPos, hcontrol]
        exact hpos
  | readAll sys =>
    have hlap := hb.lap_eq.trans hsplit
    have hsys : sys.flush = true := hflush
    obtain ⟨-, hread⟩ := b.readAll_of_boundary hlap hpos (fun r hr =>
      b.represents.short_of_mem hsmall (hlap ▸ List.mem_append_right _ hr)) hsys
    have haccepted : accepted ++ Op.accepted b.buf.size [.readAll sys] = accepted :=
      List.append_nil _
    rw [haccepted]
    refine ⟨hb.past_eq, hb.lap_eq, accepted, (List.append_nil _).symm, ?_⟩
    rw [hread, b.writePos_eq_extent, hb.lap_eq]
  | resetReadPosition sys =>
    have haccepted : accepted ++ Op.accepted b.buf.size [.resetReadPosition sys] = accepted :=
      List.append_nil _
    rw [haccepted]
    refine ⟨hb.past_eq, hb.lap_eq, accepted, (List.append_nil _).symm, ?_⟩
    have hcontrol := b.control_step (.resetReadPosition sys)
    rw [readPos, hcontrol, ← hb.lap_eq, ← b.writePos_eq_extent]
    rfl
  | commit c sys => cases hbuffer

/-- **A run in the first lap.** -/
theorem InFirstLap.after {ops : List Op} : ∀ {b : Live} {accepted unread : List Record},
    b.InFirstLap accepted unread → b.buf.size < 2 ^ 32 →
      (∀ op ∈ ops, op.sys.flush = true ∧ op.ofBuffer = true) →
        (∀ n ≤ ops.length, (b.after (ops.take n)).buf.control.wrapCount = 0) →
          (b.after ops).InFirstLap (accepted ++ Op.accepted b.buf.size ops)
            (ops.foldl (Op.unread b.buf.size) unread) := by
  induction ops with
  | nil =>
    intro b accepted unread hb _ _ _
    rwa [Op.accepted, List.filterMap_nil, List.append_nil]
  | cons op ops ih =>
    intro b accepted unread hb hsmall hops hwrap
    obtain ⟨hflush, hbuffer⟩ := hops op (List.mem_cons_self ..)
    have hone : (b.step op).buf.control.wrapCount = 0 := hwrap 1 (by simp)
    have hrest : ∀ n ≤ ops.length,
        ((b.step op).after (ops.take n)).buf.control.wrapCount = 0 := by
      intro n hn
      exact hwrap (n + 1) (by simpa using hn)
    have key := ih (hb.step hsmall hflush hbuffer hone) (by rwa [size_step])
      (fun o ho => hops o (List.mem_cons_of_mem _ ho)) hrest
    rw [size_step, List.append_assoc] at key
    have happend : Op.accepted b.buf.size [op] ++ Op.accepted b.buf.size ops =
        Op.accepted b.buf.size (op :: ops) := by
      rw [Op.accepted, Op.accepted, Op.accepted, ← List.filterMap_append]
      rfl
    rwa [happend] at key

theorem inFirstLap_fresh (size : Nat) (h : ControlBlock.SIZE + size < 2 ^ 63) (sys : Sys) :
    (fresh size h sys).InFirstLap [] [] where
  past_eq := rfl
  lap_eq := rfl
  boundary := ⟨[], rfl, rfl⟩

/-- **Until the first wrap `read_all` returns exactly what is unread**: in a buffer below
4 GiB, after every run of buffer calls in which no flush fails and the wrap counter stays
zero, it returns the records accepted since the last `read_all` or
`reset_read_position`, in order, with their data, time and tag; and the read position is
the end of one of the records accepted so far, or zero, and not beyond the write
position. -/
theorem readAll_firstLap (size : Nat) (h : ControlBlock.SIZE + size < 2 ^ 63)
    (hsmall : size < 2 ^ 32) (sys : Sys) (ops : List Op)
    (hops : ∀ op ∈ ops, op.sys.flush = true ∧ op.ofBuffer = true)
    (hwrap : ∀ n ≤ ops.length, ((fresh size h sys).after (ops.take n)).buf.control.wrapCount = 0)
    (last : Sys) (hlast : last.flush = true) :
    let b := (fresh size h sys).after ops
    (∃ found b', b.buf.readAll last = some (.ok found, b') ∧
      found.map Record.content = (ops.foldl (Op.unread size) []).map Record.content) ∧
    (∃ front, front <+: Op.accepted size ops ∧ b.readPos = (front.map Record.footprint).sum) ∧
    b.readPos ≤ b.writePos := by
  intro b
  have hb : b.InFirstLap (Op.accepted size ops) (ops.foldl (Op.unread size) []) :=
    (inFirstLap_fresh size h sys).after hsmall hops hwrap
  obtain ⟨front, hsplit, hpos⟩ := hb.boundary
  have hsize : b.buf.size < 2 ^ 32 := by
    rwa [size_after]
  have hlap := hb.lap_eq.trans hsplit
  obtain ⟨hread, -⟩ := b.readAll_of_boundary hlap hpos (fun r hr =>
    b.represents.short_of_mem hsize (hlap ▸ List.mem_append_right _ hr)) hlast
  refine ⟨⟨_, _, hread, by simp⟩, ⟨front, ⟨_, hsplit.symm⟩, ?_⟩, ?_⟩
  · rw [hpos, extent_diskImage]
  · rw [hpos, b.writePos_eq_extent, hb.lap_eq, hsplit, extent_append]
    omega

/-! ## After a wrap -/

/-- **With the read position at or beyond the write position `read_all` finds nothing**,
whatever was written since. -/
theorem readAll_of_writePos_le (b : Live) (h : b.writePos ≤ b.readPos) {sys : Sys}
    {found : List Record} {b' : PersistentRingBuffer}
    (hread : b.buf.readAll sys = some (.ok found, b')) : found = [] := by
  have hlt : ¬ b.buf.control.readPos < b.buf.control.writePos := by
    rw [UInt64.lt_iff_toNat_lt]
    exact not_lt.mpr h
  have hloop : b.buf.readLoop b.buf.control.writePos scanFuel b.buf.control.readPos [] =
      some (.ok (b.buf.control.readPos, [])) := by
    rw [scanFuel, readLoop, if_neg hlt]
  exact b.found_eq_of_readLoop hloop hread

/-- Writes leave the read position alone. -/
theorem readPos_after_writes (b : Live) {rs : List (Record × Sys)}
    (hrs : ∀ r ∈ rs, r.1.footprint ≤ b.buf.size) :
    (b.after (rs.map fun r => .write r.1 r.2)).readPos = b.readPos := by
  induction rs generalizing b with
  | nil => rfl
  | cons r rs ih =>
    rw [List.map_cons, after_cons, ih, b.readPos_step_write (hrs r (List.mem_cons_self ..))]
    intro s hs
    rw [size_step]
    exact hrs s (List.mem_cons_of_mem _ hs)

/-- **A caught-up reader loses every record of a writer that wraps.**  Whatever the run
before, and whatever accepted writes follow of which exactly one wraps and which end at or
below the old read position: the next `read_all` does not return their records. -/
theorem readAll_misses_wrap (size : Nat) (h : ControlBlock.SIZE + size < 2 ^ 63) (sys : Sys)
    (ops : List Op) (rsys : Sys) (rs : List (Record × Sys))
    (hrs : ∀ r ∈ rs, r.1.footprint ≤ size) (last : Sys) :
    let b := (fresh size h sys).after (ops ++ [.readAll rsys])
    let writes : List Op := rs.map fun r => .write r.1 r.2
    b.readPos = b.writePos → b.lapsStarted writes = 1 → (b.after writes).writePos ≤ b.writePos →
      ¬ ∃ found b', (b.after writes).buf.readAll last = some (.ok found, b') ∧
        found.map Record.content = rs.map fun r => r.1.content := by
  rintro b writes hcaught hlaps hend ⟨found, b', hread, hfound⟩
  have hsize : b.buf.size = size := size_after ..
  have hpos : (b.after writes).readPos = b.readPos :=
    b.readPos_after_writes fun r hr => hsize ▸ hrs r hr
  have hnil := (b.after writes).readAll_of_writePos_le (by omega) hread
  rw [hnil, List.map_nil, eq_comm, List.map_eq_nil_iff] at hfound
  subst hfound
  exact absurd hlaps (by simp [writes, lapsStarted, lapEnds])

end

section Ieee

attribute [local instance] Hasher.ieee

/-- A run of the first lap with a read in the middle. -/
theorem readAll_firstLap_of_four :
    let record := fun tag => Record.new (List.replicate 16 tag.toUInt8) tag 0
    let ops := [.write (record 1) Sys.ok, .readAll Sys.ok, .write (record 2) Sys.ok,
      .write (record 3) Sys.ok]
    ∃ found b', ((fresh 200 (by decide) Sys.ok).after ops).buf.readAll Sys.ok =
        some (.ok found, b') ∧
      found.map Record.content = [record 2, record 3].map Record.content := by
  intro record ops
  have hops : ∀ op ∈ ops, op.sys.flush = true ∧ op.ofBuffer = true := by
    simp [ops, Op.sys, Op.ofBuffer, Sys.ok]
  have hwrap : ∀ n ≤ 4,
      ((fresh 200 (by decide) Sys.ok).after (ops.take n)).buf.control.wrapCount = 0 := by
    decide +kernel
  exact (readAll_firstLap 200 (by decide) (by decide) Sys.ok ops hops hwrap Sys.ok rfl).1

/-- In an area of 64 bytes the second record of 40 starts a new lap and ends where the
reader stands. -/
theorem readAll_misses_second :
    let record := fun tag => Record.new (List.replicate 16 tag.toUInt8) tag 0
    let b := (fresh 64 (by decide) Sys.ok).after [.write (record 1) Sys.ok, .readAll Sys.ok]
    b.readPos = b.writePos ∧ b.lapsStarted [.write (record 2) Sys.ok] = 1 ∧
      (b.after [.write (record 2) Sys.ok]).writePos ≤ b.writePos ∧
      (b.after [.write (record 2) Sys.ok]).buf.readAll Sys.ok =
        some (.ok [], (b.after [.write (record 2) Sys.ok]).buf) := by
  intro record b
  refine ⟨by decide +kernel, by decide +kernel, by decide +kernel, ?_⟩
  rw [PersistentRingBuffer.readAll, if_pos (by decide +kernel)]

/-- The same run is one that `readAll_misses_wrap` is about. -/
theorem readAll_misses_wrap_second :
    let record := fun tag => Record.new (List.replicate 16 tag.toUInt8) tag 0
    ¬ ∃ found b', ((fresh 64 (by decide) Sys.ok).after
        [.write (record 1) Sys.ok, .readAll Sys.ok, .write (record 2) Sys.ok]).buf.readAll Sys.ok =
          some (.ok found, b') ∧
      found.map Record.content = [(record 2).content] := by
  intro record
  have key := readAll_misses_wrap 64 (by decide) Sys.ok [.write (record 1) Sys.ok] Sys.ok
    [(record 2, Sys.ok)] (by decide) Sys.ok (by decide +kernel) (by decide +kernel)
    (by decide +kernel)
  simp only [List.map_cons, List.map_nil, ← after_append, List.cons_append,
    List.nil_append] at key
  exact key

end Ieee

end Live

end Sherlog
