import Sherlog.Daemon.Flush
import Sherlog.Disk.ReadAll
import Sherlog.Memory.Lifetime

/-!
# From memory to disk

The threads that log, the volatile buffer between them and the flush daemon, the daemon with
every call it makes, and the persistent buffer that it writes to and others read from, turn by
turn.  What the source takes from the clock and from floating-point numbers is left open: how the
usage compares with the watermark, and what `wait_for_data` answers.

* `Pipeline`, `Pipeline.step` — all of it, and one turn; `Pipeline.trace` — what has gone by.
* `Pipeline.Effect`, `Pipeline.step_effect` — all that a turn can do.
* `Pipeline.Forwards`, `Forwards.step` — the persistent buffer is where the calls made on it
  lead, and the daemon passes on what it is handed, in order and at most once; every turn keeps it.
* `Pipeline.forwards` — so what is on disk is what the reads of memory have returned, as far as
  the batches go and up to the first failed write of each.
* `Pipeline.arrives` — and the next `read_all` returns it, if it fits behind the write position.
* `Pipeline.nothing_arrives` — but from a buffer freshly created that is nothing at all.
-/

namespace Sherlog

open LapLog

/-- Where the daemon is in its loop. -/
inductive FlushPc where
  /-- At the condition of the loop. -/
  | check
  /-- At the usage check. -/
  | usage
  /-- In `wait_for_data`, or about to call it. -/
  | waiting
  /-- Before `memory_buffer.read()`. -/
  | read
  /-- In `memory_buffer.read()`. -/
  | reading
  /-- In the `for` loop, with the records it has not come to, and `success_count`. -/
  | writing (batch : List Record) (successCount : Nat)
  /-- Before `disk_buffer.flush()`. -/
  | flushing
  /-- In `thread::sleep`. -/
  | sleeping
  /-- The thread has ended. -/
  | ended
deriving DecidableEq, Repr

/-- What goes by between the two buffers. -/
inductive Passage where
  /-- `memory_buffer.read()` has returned these records, with a batch of so many. -/
  | returned (records : List Record) (batchSize : Nat)
  /-- The daemon has called `disk_buffer.write`. -/
  | wrote (record : Record) (sys : Sys) (res : Except PersistentError Unit)
  /-- Another thread has called the persistent buffer. -/
  | called (op : Op)
deriving DecidableEq

/-- The whole way of a record. -/
structure Pipeline (ι : Type*) where
  /-- `FLUSH_DAEMON_RUNNING` -/
  running : Bool
  /-- The volatile buffer, with the threads at it. -/
  memory : Contention ι
  /-- The persistent buffer. -/
  disk : PersistentRingBuffer
  /-- Where the daemon is. -/
  pc : FlushPc
  /-- `batch_size` -/
  batchSize : Nat
  /-- What has gone by so far. -/
  trace : List Passage

/-- What happens at one time. -/
inductive PipelineTurn (ι : Type*) where
  /-- A turn of a thread that logs. -/
  | produce (turn : Contention.Turn ι)
  /-- Another thread calls the persistent buffer. -/
  | call (op : Op)
  /-- `stop_flush_daemon` -/
  | stop
  /-- The daemon loads its flag. -/
  | check
  /-- It compares the usage with the high watermark, and adjusts the batch. -/
  | usage (above below reached : Bool)
  /-- `wait_for_data` returns. -/
  | wait (notified : Bool)
  /-- The daemon calls `memory_buffer.read()`. -/
  | read
  /-- Its call goes on to the next access. -/
  | readOn
  /-- It calls `disk_buffer.write` for the next record, or leaves the loop. -/
  | write (sys : Sys)
  /-- It calls `disk_buffer.flush()`, and goes on whatever comes of that. -/
  | flush
  /-- It wakes up. -/
  | wake

/-- Whether a turn at the volatile buffer is one of its consumer. -/
def Contention.Turn.consuming {ι : Type*} : Contention.Turn ι → Bool
  | .read | .readOn => true
  | _ => false

namespace Pipeline

variable {ι : Type*}

/-- The daemon about to check its flag for the first time. -/
def start (config : FlushDaemonConfig) (b : VolatileRingBuffer) (disk : PersistentRingBuffer) :
    Pipeline ι :=
  { running := true, memory := Contention.start b, disk, pc := .check,
    batchSize := config.maxRecordsPerFlush, trace := [] }

/-- After an access of the call of `read` the daemon is in; a panic ends the thread. -/
def readOn (s : Pipeline ι) (out : Option (Reading × VolatileRingBuffer)) : Pipeline ι :=
  let memory := s.memory.readOn out
  match out with
  | none => { s with memory, pc := .ended }
  | some (.returns records, _) =>
    { s with memory
             pc := if records.isEmpty then .check else .writing (records.take s.batchSize) 0
             trace := s.trace ++ [.returned records s.batchSize] }
  | some _ => { s with memory }

/-- After a call of `disk_buffer.write`; the first error breaks the loop. -/
def wrote (s : Pipeline ι) (record : Record) (batch : List Record) (successCount : Nat)
    (sys : Sys) :
    Option (Except PersistentError Unit × PersistentRingBuffer) → Pipeline ι
  | none => { s with pc := .ended }
  | some (res, disk) =>
    { s with disk
             pc := match res with
               | .ok _ => .writing batch (successCount + 1)
               | .error _ => .writing [] successCount
             trace := s.trace ++ [.wrote record sys res] }

variable [Hasher] [DecidableEq ι]

/-- One turn.  What the daemon does elsewhere in its loop is left for another turn, and so is a
call of the persistent buffer that panics. -/
def step (config : FlushDaemonConfig) (s : Pipeline ι) : PipelineTurn ι → Pipeline ι
  | .produce turn => if turn.consuming then s else { s with memory := s.memory.step turn }
  | .call op =>
    match s.disk.step op with
    | none => s
    | some disk => { s with disk, trace := s.trace ++ [.called op] }
  | .stop => { s with running := false }
  | .check =>
    match s.pc with
    | .check => { s with pc := if s.running then .usage else .ended }
    | _ => s
  | .usage above below reached =>
    match s.pc with
    | .usage =>
      { s with batchSize := config.batchSize above below
               pc := if reached then .read else .waiting }
    | _ => s
  | .wait notified =>
    match s.pc with
    | .waiting =>
      { s with memory := { s.memory with buf := { s.memory.buf with consumerSignal := false } }
               pc := if notified then .read else .sleeping }
    | _ => s
  | .read =>
    match s.pc with
    | .read => { s with memory := s.memory.step .read, pc := .reading }
    | _ => s
  | .readOn =>
    match s.pc, s.memory.reading with
    | .reading, some call => s.readOn (call.turn s.memory.buf)
    | _, _ => s
  | .write sys =>
    match s.pc with
    | .writing (record :: batch) successCount =>
      s.wrote record batch successCount sys (s.disk.write record sys)
    | .writing [] successCount => { s with pc := if 0 < successCount then .flushing else .check }
    | _ => s
  | .flush =>
    match s.pc with
    | .flushing => { s with pc := .check }
    | _ => s
  | .wake =>
    match s.pc with
    | .sleeping => { s with pc := .check }
    | _ => s

/-- A list of turns. -/
def run (config : FlushDaemonConfig) (s : Pipeline ι) (turns : List (PipelineTurn ι)) :
    Pipeline ι :=
  turns.foldl (step config) s

end Pipeline

/-- One call more. -/
theorem PersistentRingBuffer.run_snoc [Hasher] {b b' b'' : PersistentRingBuffer} {ops : List Op}
    {op : Op} (hrun : b.run ops = some b') (hstep : b'.step op = some b'') :
    b.run (ops ++ [op]) = some b'' := by
  rw [run, List.foldlM_append]
  show (b.run ops).bind (fun b => [op].foldlM PersistentRingBuffer.step b) = some b''
  rw [hrun, Option.bind_some, List.foldlM_cons, hstep]
  rfl

/-- Writes that fit behind the write position append their records, and leave the read position
alone. -/
theorem Live.after_writes_of_room [Hasher] {writes : List (Record × Sys)} : ∀ {b : Live},
    b.writePos + (writes.map fun w => w.1.footprint).sum ≤ b.buf.size →
      (b.after (writes.map fun w => .write w.1 w.2)).log.lap = b.log.lap ++ writes.map Prod.fst ∧
        (b.after (writes.map fun w => .write w.1 w.2)).readPos = b.readPos := by
  induction writes with
  | nil => exact fun _ => ⟨(List.append_nil _).symm, rfl⟩
  | cons w writes ih =>
    intro b hroom
    obtain ⟨r, sys⟩ := w
    rw [List.map_cons, List.sum_cons] at hroom
    change b.writePos + (r.footprint + _) ≤ _ at hroom
    have hr : r.footprint ≤ b.buf.size := by omega
    have hhas : b.log.HasRoom Record.diskImage b.buf.size r := by
      rw [b.represents.hasRoom_iff]
      rw [writePos] at hroom
      omega
    have hlog := b.log_step_write hr sys
    rw [Log.push_of_hasRoom hhas] at hlog
    have hpos : (b.step (.write r sys)).writePos = b.writePos + r.footprint := by
      rw [writePos_eq_extent, writePos_eq_extent, hlog, extent_append,
        PersistentRingBuffer.extent_diskImage [r]]
      simp
    obtain ⟨hlap, hread⟩ := ih (b := b.step (.write r sys)) (by
      rw [hpos, size_step]
      omega)
    refine ⟨?_, hread.trans (b.readPos_step_write hr sys)⟩
    rw [List.map_cons, after_cons, hlap, hlog, List.append_assoc]
    rfl

/-! ## What has gone by -/

namespace Passage

/-- The records that the calls of `memory_buffer.read()` have returned. -/
def found (trace : List Passage) : List Record :=
  trace.flatMap fun
    | .returned records _ => records
    | _ => []

/-- The records passed to `disk_buffer.write`. -/
def passed (trace : List Passage) : List Record :=
  trace.filterMap fun
    | .wrote record _ _ => some record
    | _ => none

/-- The calls of the persistent buffer, the daemon's and the others'. -/
def calls (trace : List Passage) : List Op :=
  trace.filterMap fun
    | .returned _ _ => none
    | .wrote record sys _ => some (.write record sys)
    | .called op => some op

/-- No read has returned more than a batch, and no write has failed. -/
def Smooth (trace : List Passage) : Prop :=
  ∀ passage ∈ trace,
    match passage with
    | .returned records batchSize => records.length ≤ batchSize
    | .wrote _ _ res => res = .ok ()
    | .called _ => True

variable (trace trace' : List Passage)

@[simp] theorem found_append : found (trace ++ trace') = found trace ++ found trace' :=
  List.flatMap_append

@[simp] theorem passed_append : passed (trace ++ trace') = passed trace ++ passed trace' :=
  List.filterMap_append

@[simp] theorem calls_append : calls (trace ++ trace') = calls trace ++ calls trace' :=
  List.filterMap_append

@[simp] theorem smooth_append : Smooth (trace ++ trace') ↔ Smooth trace ∧ Smooth trace' :=
  List.forall_mem_append

section

variable (records : List Record) (batchSize : Nat) (record : Record) (sys : Sys)
  (res : Except PersistentError Unit) (op : Op)

@[simp] theorem found_returned : found [.returned records batchSize] = records :=
  List.flatMap_singleton _ _

@[simp] theorem found_wrote : found [.wrote record sys res] = [] := rfl
@[simp] theorem found_called : found [.called op] = [] := rfl
@[simp] theorem passed_returned : passed [.returned records batchSize] = [] := rfl
@[simp] theorem passed_wrote : passed [.wrote record sys res] = [record] := rfl
@[simp] theorem passed_called : passed [.called op] = [] := rfl
@[simp] theorem calls_returned : calls [.returned records batchSize] = [] := rfl
@[simp] theorem calls_wrote : calls [.wrote record sys res] = [.write record sys] := rfl
@[simp] theorem calls_called : calls [.called op] = [op] := rfl

@[simp] theorem smooth_returned :
    Smooth [.returned records batchSize] ↔ records.length ≤ batchSize :=
  List.forall_mem_singleton

@[simp] theorem smooth_wrote : Smooth [.wrote record sys res] ↔ res = .ok () :=
  List.forall_mem_singleton

@[simp] theorem smooth_called : Smooth [.called op] ↔ True := List.forall_mem_singleton

end

end Passage

open Passage

namespace Pipeline

variable {ι : Type*} {config : FlushDaemonConfig} {s s' : Pipeline ι}

/-- The records that the daemon has taken and not come to. -/
def batch (s : Pipeline ι) : List Record :=
  match s.pc with
  | .writing batch _ => batch
  | _ => []

theorem batch_of_pc {pc : FlushPc} (h : s.pc = pc) (hpc : ∀ batch n, pc ≠ .writing batch n) :
    s.batch = [] := by
  subst h
  rw [batch]
  split
  · next heq => exact absurd heq (hpc _ _)
  · rfl

variable [Hasher]

section

variable [DecidableEq ι]

/-- All that a turn can do. -/
inductive Effect (s : Pipeline ι) : Pipeline ι → Prop where
  /-- Nothing. -/
  | none : Effect s s
  /-- No record moves.  The daemon stays where it is, or has no batch and goes elsewhere in its
  loop. -/
  | moves {running : Bool} {memory : Contention ι} {n : Nat} {pc : FlushPc}
      (hmemory : memory = s.memory ∨ (∃ turn, memory = s.memory.step turn) ∨
        memory = { s.memory with buf := { s.memory.buf with consumerSignal := false } })
      (hpc : pc = s.pc ∨ s.batch = [] ∧ ∀ batch n, pc ≠ .writing batch n) :
      Effect s { s with running, memory, batchSize := n, pc }
  /-- Another thread calls the persistent buffer. -/
  | called {op : Op} {disk : PersistentRingBuffer} (hstep : s.disk.step op = some disk) :
      Effect s { s with disk, trace := s.trace ++ [.called op] }
  /-- An access of the call of `memory_buffer.read()`. -/
  | readOn {call : ReadCall} (hpc : s.pc = .reading) (hcall : s.memory.reading = some call) :
      Effect s (s.readOn (call.turn s.memory.buf))
  /-- A call of `disk_buffer.write`. -/
  | wrote {record : Record} {batch : List Record} {n : Nat} {sys : Sys}
      (hpc : s.pc = .writing (record :: batch) n) :
      Effect s (s.wrote record batch n sys (s.disk.write record sys))

theorem step_effect (config : FlushDaemonConfig) (s : Pipeline ι) (turn : PipelineTurn ι) :
    s.Effect (s.step config turn) := by
  -- the daemon was at `pc`, and goes on to `pc'`
  have hpcs : ∀ {pc pc' : FlushPc}, s.pc = pc → (∀ batch n, pc ≠ .writing batch n) →
      (∀ batch n, pc' ≠ .writing batch n) →
        pc' = s.pc ∨ s.batch = [] ∧ ∀ batch n, pc' ≠ .writing batch n :=
    fun hpc hne hne' => Or.inr ⟨batch_of_pc hpc hne, hne'⟩
  cases turn with
  | produce turn =>
    rw [Pipeline.step]
    split
    · exact .none
    · exact .moves (Or.inr (Or.inl ⟨turn, rfl⟩)) (Or.inl rfl)
  | call op =>
    rw [Pipeline.step]
    split
    · exact .none
    · next hstep => exact .called hstep
  | stop => exact .moves (Or.inl rfl) (Or.inl rfl)
  | check =>
    rw [Pipeline.step]
    split
    · next hpc => exact .moves (Or.inl rfl) (hpcs hpc (by simp) (by split <;> simp))
    · exact .none
  | usage above below reached =>
    rw [Pipeline.step]
    split
    · next hpc => exact .moves (Or.inl rfl) (hpcs hpc (by simp) (by split <;> simp))
    · exact .none
  | wait notified =>
    rw [Pipeline.step]
    split
    · next hpc => exact .moves (Or.inr (Or.inr rfl)) (hpcs hpc (by simp) (by split <;> simp))
    · exact .none
  | read =>
    rw [Pipeline.step]
    split
    · next hpc => exact .moves (Or.inr (Or.inl ⟨.read, rfl⟩)) (hpcs hpc (by simp) (by simp))
    · exact .none
  | readOn =>
    rw [Pipeline.step]
    split
    · next hpc hcall => exact .readOn hpc hcall
    · exact .none
  | write sys =>
    rw [Pipeline.step]
    split
    · next hpc => exact .wrote hpc
    · next hpc =>
      have hbatch : s.batch = [] := by rw [batch, hpc]
      exact .moves (Or.inl rfl) (Or.inr ⟨hbatch, by split <;> simp⟩)
    · exact .none
  | flush =>
    rw [Pipeline.step]
    split
    · next hpc => exact .moves (Or.inl rfl) (hpcs hpc (by simp) (by simp))
    · exact .none
  | wake =>
    rw [Pipeline.step]
    split
    · next hpc => exact .moves (Or.inl rfl) (hpcs hpc (by simp) (by simp))
    · exact .none

end

/-- The persistent buffer is where the calls made on it lead, and the daemon passes on what it
is handed: in order, each record at most once, and all of it as long as nothing goes wrong. -/
structure Forwards (b : Live) (s : Pipeline ι) : Prop where
  run_calls : b.buf.run (calls s.trace) = some s.disk
  sublist : (passed s.trace ++ s.batch).Sublist (found s.trace)
  smooth : Smooth s.trace → passed s.trace ++ s.batch = found s.trace
  results : ∀ record sys res, .wrote record sys res ∈ s.trace →
    (res = .ok () ↔ record.footprint ≤ b.buf.size ∧ sys.flush = true)

variable {b : Live}

theorem Forwards.disk_eq (hs : s.Forwards b) : s.disk = (b.after (calls s.trace)).buf :=
  Option.some.inj (hs.run_calls.symm.trans (b.run_after _))

/-- When a write of the daemon succeeds. -/
theorem Forwards.res_eq_ok (hs : s.Forwards b) {record : Record} {sys : Sys}
    {res : Except PersistentError Unit} {disk : PersistentRingBuffer}
    (hwrite : s.disk.write record sys = some (res, disk)) :
    res = .ok () ↔ record.footprint ≤ b.buf.size ∧ sys.flush = true := by
  have hsize : s.disk.size = b.buf.size := hs.disk_eq ▸ b.size_after _
  by_cases hfits : record.footprint ≤ b.buf.size
  · rw [hs.disk_eq, Live.write_eq _ (by rwa [b.size_after]) sys] at hwrite
    obtain ⟨rfl, -⟩ := Prod.mk.inj (Option.some.inj hwrite)
    rw [PersistentRingBuffer.flushed]
    split <;> simp_all
  · rw [PersistentRingBuffer.write_rejected (by omega)] at hwrite
    obtain ⟨rfl, -⟩ := Prod.mk.inj (Option.some.inj hwrite)
    simp [hfits]

/-- A turn that moves no record. -/
theorem Forwards.of_trace (hs : s.Forwards b) (hdisk : s'.disk = s.disk)
    (htrace : s'.trace = s.trace) (hbatch : s'.batch = s.batch) : s'.Forwards b where
  run_calls := by rw [htrace, hdisk]; exact hs.run_calls
  sublist := by rw [htrace, hbatch]; exact hs.sublist
  smooth := by rw [htrace, hbatch]; exact hs.smooth
  results := by rw [htrace]; exact hs.results

/-- `memory_buffer.read()` returns. -/
theorem Forwards.returned (hs : s.Forwards b) (hbatch : s.batch = []) {records : List Record}
    {n : Nat} (hdisk : s'.disk = s.disk) (htrace : s'.trace = s.trace ++ [.returned records n])
    (hbatch' : s'.batch = records.take n) : s'.Forwards b where
  run_calls := by simpa [htrace, hdisk] using hs.run_calls
  sublist := by
    have hpassed : (passed s.trace).Sublist (found s.trace) := by
      simpa [hbatch] using hs.sublist
    simpa [htrace, hbatch'] using hpassed.append (List.take_sublist n records)
  smooth := by
    intro hsmooth
    obtain ⟨hbefore, hlength⟩ : Smooth s.trace ∧ records.length ≤ n := by
      simpa [htrace] using hsmooth
    have hpassed : passed s.trace = found s.trace := by
      simpa [hbatch] using hs.smooth hbefore
    simp [htrace, hbatch', hpassed, List.take_of_length_le hlength]
  results := by simpa [htrace] using hs.results

omit [Hasher] in
/-- What is left of the batch when `disk_buffer.write` returns. -/
theorem batch_wrote (s : Pipeline ι) (record : Record) (batch : List Record) (n : Nat) (sys : Sys)
    (res : Except PersistentError Unit) (disk : PersistentRingBuffer) :
    (s.wrote record batch n sys (some (res, disk))).batch =
      match res with
      | .ok _ => batch
      | .error _ => [] := by
  cases res <;> rfl

/-- `disk_buffer.write` returns. -/
theorem Forwards.wrote (hs : s.Forwards b) {record : Record} {batch : List Record}
    (hbatch : s.batch = record :: batch) {sys : Sys} {res : Except PersistentError Unit}
    (hwrite : s.disk.write record sys = some (res, s'.disk))
    (htrace : s'.trace = s.trace ++ [.wrote record sys res])
    (hbatch' : s'.batch = match res with | .ok _ => batch | .error _ => []) :
    s'.Forwards b where
  run_calls := by
    have hstep : s.disk.step (.write record sys) = some s'.disk :=
      congrArg (Option.map Prod.snd) hwrite
    rw [htrace, calls_append, calls_wrote]
    exact PersistentRingBuffer.run_snoc hs.run_calls hstep
  sublist := by
    have hpassed := hs.sublist
    rw [hbatch] at hpassed
    refine List.Sublist.trans ?_ (by simpa [htrace] using hpassed)
    cases res with
    | ok _ => simp [htrace, hbatch']
    | error e => simp [htrace, hbatch']
  smooth := by
    intro hsmooth
    obtain ⟨hbefore, rfl⟩ : Smooth s.trace ∧ res = .ok () := by
      simpa [htrace] using hsmooth
    simpa [htrace, hbatch, hbatch'] using hs.smooth hbefore
  results := by
    intro record' sys' res' hmem
    rw [htrace, List.mem_append, List.mem_singleton] at hmem
    rcases hmem with hold | hnew
    · exact hs.results record' sys' res' hold
    · obtain ⟨rfl, rfl, rfl⟩ := by simpa only [Passage.wrote.injEq] using hnew
      exact hs.res_eq_ok hwrite

/-- Another thread calls the persistent buffer. -/
theorem Forwards.called (hs : s.Forwards b) {op : Op}
    (hstep : s.disk.step op = some s'.disk) (htrace : s'.trace = s.trace ++ [.called op])
    (hbatch : s'.batch = s.batch) : s'.Forwards b where
  run_calls := by
    rw [htrace, calls_append, calls_called]
    exact PersistentRingBuffer.run_snoc hs.run_calls hstep
  sublist := by simpa [htrace, hbatch] using hs.sublist
  smooth := by simpa [htrace, hbatch] using hs.smooth
  results := by simpa [htrace] using hs.results

/-- An access of the call of `read`. -/
theorem Forwards.readOn (hs : s.Forwards b) (hpc : s.pc = .reading)
    (out : Option (Reading × VolatileRingBuffer)) : (s.readOn out).Forwards b := by
  have hbatch : s.batch = [] := batch_of_pc hpc nofun
  rcases out with _ | ⟨call | ⟨call, r⟩ | records, buf⟩
  · exact hs.of_trace rfl rfl hbatch.symm
  · exact hs.of_trace rfl rfl rfl
  · exact hs.of_trace rfl rfl rfl
  · refine hs.returned (n := s.batchSize) hbatch rfl rfl ?_
    rw [Pipeline.readOn]
    cases records with
    | nil => simp [batch]
    | cons record records => rfl

variable [DecidableEq ι]

/-- **Every turn keeps it.** -/
theorem Forwards.step (hs : s.Forwards b) (turn : PipelineTurn ι) :
    (s.step config turn).Forwards b := by
  have heffect := s.step_effect config turn
  generalize s.step config turn = t at heffect ⊢
  cases heffect with
  | none => exact hs
  | moves _ hpc =>
    refine hs.of_trace rfl rfl ?_
    rcases hpc with rfl | ⟨hbatch, hpc⟩
    · rfl
    · exact (batch_of_pc rfl hpc).trans hbatch.symm
  | called hstep => exact hs.called hstep rfl rfl
  | readOn hpc _ => exact hs.readOn hpc _
  | @wrote record batch n sys hpc =>
    have hbatch : s.batch = record :: batch := by rw [Pipeline.batch, hpc]
    rcases hwrite : s.disk.write record sys with _ | ⟨res, disk'⟩
    · have hsome := (b.after (calls s.trace)).step_isSome (.write record sys)
      rw [← hs.disk_eq, PersistentRingBuffer.step, hwrite] at hsome
      cases hsome
    · exact hs.wrote hbatch hwrite rfl (batch_wrote s record batch n sys res disk')

theorem forwards_run (config : FlushDaemonConfig) (memory : VolatileRingBuffer) (b : Live)
    (turns : List (PipelineTurn ι)) :
    ((start config memory b.buf).run config turns).Forwards b := by
  refine Machine.foldl_preserves (I := fun t : Pipeline ι => t.Forwards b)
    (fun t turn ht => ht.step turn) ?_ turns
  exact ⟨rfl, List.Sublist.refl _, fun _ => rfl, nofun⟩

/-- **What is on disk is what the reads of memory have returned**, as far as it has been passed
on.  For every state of the volatile buffer, every persistent buffer that holds a log, every
configuration, any number of threads and every order of turns: the persistent buffer is the one
that the calls made on it lead to; the records passed to `disk_buffer.write`, with those still to
come of the batch, are among those returned, in their order and none of them twice; a write
succeeds exactly when the record fits the area and the flush works; and as long as no read has
returned more than a batch and no write has failed, nothing is left out. -/
theorem forwards (config : FlushDaemonConfig) (memory : VolatileRingBuffer) (b : Live)
    (turns : List (PipelineTurn ι)) :
    let s := (start config memory b.buf).run config turns
    s.disk = (b.after (calls s.trace)).buf ∧
      (passed s.trace ++ s.batch).Sublist (found s.trace) ∧
      (∀ record sys res, .wrote record sys res ∈ s.trace →
        (res = .ok () ↔ record.footprint ≤ b.buf.size ∧ sys.flush = true)) ∧
      (Smooth s.trace → passed s.trace ++ s.batch = found s.trace) := by
  intro s
  have hs : s.Forwards b := forwards_run config memory b turns
  exact ⟨hs.disk_eq, hs.sublist, hs.results, hs.smooth⟩

omit [DecidableEq ι] [Hasher] in
/-- A trace with no calls of others is one of writes. -/
theorem exists_writes {trace : List Passage} (h : ∀ op, .called op ∉ trace) :
    ∃ writes : List (Record × Sys), calls trace = writes.map (fun w => .write w.1 w.2) ∧
      passed trace = writes.map Prod.fst := by
  induction trace with
  | nil => exact ⟨[], rfl, rfl⟩
  | cons passage trace ih =>
    obtain ⟨writes, hcalls, hpassed⟩ := ih fun op hop => h op (List.mem_cons_of_mem _ hop)
    rw [← List.singleton_append, calls_append, passed_append, hcalls, hpassed]
    cases passage with
    | returned records n => exact ⟨writes, rfl, rfl⟩
    | wrote record sys res => exact ⟨(record, sys) :: writes, rfl, rfl⟩
    | called op => exact absurd (List.mem_cons_self ..) (h op)

/-- **The whole way.**  A persistent buffer below 4 GiB whose reader has caught up, and nobody
else at it: once the daemon is through with all that it has been handed, no batch having been too
small and no write having failed, and as long as it all fits behind the write position, `read_all`
returns exactly the records that the reads of memory have returned, in order. -/
theorem arrives (config : FlushDaemonConfig) (memory : VolatileRingBuffer) (b : Live)
    (turns : List (PipelineTurn ι)) (last : Sys) (hlast : last.flush = true)
    (hsmall : b.buf.size < 2 ^ 32) (hcaught : b.readPos = b.writePos) :
    let s := (start config memory b.buf).run config turns
    (∀ op, .called op ∉ s.trace) → Smooth s.trace → s.batch = [] →
      b.writePos + ((found s.trace).map Record.footprint).sum ≤ b.buf.size →
        ∃ records disk, s.disk.readAll last = some (.ok records, disk) ∧
          records.map Record.content = (found s.trace).map Record.content := by
  intro s hcalled hsmooth hbatch hroom
  have hs : s.Forwards b := forwards_run config memory b turns
  obtain ⟨writes, hcalls, hpassed⟩ := exists_writes hcalled
  have hfound := hs.smooth hsmooth
  rw [hbatch, List.append_nil, hpassed] at hfound
  rw [← hfound, List.map_map] at hroom
  obtain ⟨hlap, hread⟩ := Live.after_writes_of_room hroom
  have hsize : (b.after (writes.map fun w => .write w.1 w.2)).buf.size = b.buf.size :=
    b.size_after _
  rw [← hfound, hs.disk_eq, hcalls]
  have hpos : (b.after (writes.map fun w => .write w.1 w.2)).readPos =
      extent Record.diskImage b.log.lap := by
    rw [hread, hcaught, b.writePos_eq_extent]
  obtain ⟨hall, -⟩ := Live.readAll_of_boundary _ hlap hpos (fun r hr =>
    (Live.represents _).short_of_mem (hsize.symm ▸ hsmall)
      (hlap ▸ List.mem_append_right _ hr)) hlast
  exact ⟨_, _, hall, by simp⟩

/-! ## A buffer freshly created -/

/-- No read has found a record, and the daemon has called nothing. -/
structure Barren (disk : PersistentRingBuffer) (s : Pipeline ι) : Prop where
  silent : ∃ maxOverflow records, 0 < maxOverflow ∧ s.memory.Silent maxOverflow records
  idle : ∀ batch n, s.pc ≠ .writing batch n
  found_eq : found s.trace = []
  passed_eq : passed s.trace = []
  run_calls : disk.run (calls s.trace) = some s.disk

variable {disk : PersistentRingBuffer}

omit [DecidableEq ι] in
/-- A turn after which the daemon is elsewhere in its loop. -/
theorem Barren.of_pc (hs : s.Barren disk) {running : Bool} {memory : Contention ι} {n : Nat}
    {pc : FlushPc} (hmemory : ∃ maxOverflow records, 0 < maxOverflow ∧
      memory.Silent maxOverflow records) (hpc : ∀ batch n, pc ≠ .writing batch n) :
    Barren disk { s with running, memory, batchSize := n, pc } :=
  { hs with silent := hmemory, idle := hpc }

omit [DecidableEq ι] in
/-- An access of the call of `read`. -/
theorem Barren.readOn (hs : s.Barren disk) {call : ReadCall}
    (hcall : s.memory.reading = some call) :
    (s.readOn (call.turn s.memory.buf)).Barren disk := by
  obtain ⟨maxOverflow, records, hmax, hsilent⟩ := hs.silent
  obtain ⟨hnothing, hkept⟩ := hsilent.readOn hcall
  rcases hturn : call.turn s.memory.buf with _ | ⟨call | ⟨call, r⟩ | records', buf⟩
  · rw [hturn] at hkept
    exact hs.of_pc ⟨_, _, hmax, hkept⟩ nofun
  · rw [hturn] at hkept
    exact hs.of_pc ⟨_, _, hmax, hkept⟩ hs.idle
  · rw [hturn] at hkept
    exact hs.of_pc ⟨_, _, hmax, hkept⟩ hs.idle
  · rw [hturn] at hkept
    obtain rfl := hnothing _ _ hturn
    exact
      { silent := ⟨_, _, hmax, hkept⟩
        idle := nofun
        found_eq := by simp [Pipeline.readOn, hs.found_eq]
        passed_eq := by simp [Pipeline.readOn, hs.passed_eq]
        run_calls := by simpa [Pipeline.readOn] using hs.run_calls }

/-- **Every turn keeps it.** -/
theorem Barren.step (hs : s.Barren disk) (turn : PipelineTurn ι) :
    (s.step config turn).Barren disk := by
  obtain ⟨maxOverflow, records, hmax, hsilent⟩ := hs.silent
  have heffect := s.step_effect config turn
  generalize s.step config turn = t at heffect ⊢
  cases heffect with
  | none => exact hs
  | moves hmemory hpc =>
    refine hs.of_pc ?_ ?_
    · rcases hmemory with rfl | ⟨turn, rfl⟩ | rfl
      · exact hs.silent
      · exact ⟨_, _, hmax, hsilent.step hmax turn⟩
      · exact ⟨_, _, hmax, hsilent.signal false⟩
    · rcases hpc with rfl | ⟨-, hpc⟩
      · exact hs.idle
      · exact hpc
  | called hstep =>
    refine { hs with found_eq := ?_, passed_eq := ?_, run_calls := ?_ }
    · simpa using hs.found_eq
    · simpa using hs.passed_eq
    · rw [calls_append, calls_called]
      exact PersistentRingBuffer.run_snoc hs.run_calls hstep
  | readOn _ hcall => exact hs.readOn hcall
  | wrote hpc => exact absurd hpc (hs.idle _ _)

/-- **Nothing that is logged ever reaches the disk.**  For every capacity that can be had, every
persistent buffer, every configuration, any number of threads that log and every order of turns:
no call of `memory_buffer.read()` by the daemon returns a record, `disk_buffer.write` is never
called, and the persistent buffer is what the calls of others have made of it. -/
theorem nothing_arrives (config : FlushDaemonConfig) (capacity : Nat) (b : VolatileRingBuffer)
    (hnew : VolatileRingBuffer.new capacity = some b) (disk : PersistentRingBuffer)
    (turns : List (PipelineTurn ι)) :
    let s := (start config b disk).run config turns
    found s.trace = [] ∧ passed s.trace = [] ∧ disk.run (calls s.trace) = some s.disk := by
  intro s
  have hs : s.Barren disk := by
    refine Machine.foldl_preserves (I := fun t : Pipeline ι => t.Barren disk)
      (fun t turn ht => ht.step turn) ?_ turns
    exact ⟨⟨_, _, Contention.silent_start hnew⟩, nofun, rfl, rfl, rfl⟩
  exact ⟨hs.found_eq, hs.passed_eq, hs.run_calls⟩

end Pipeline

section Ieee

attribute [local instance] Hasher.ieee

namespace Pipeline

/-- A record in each of the first two slots, whoever has put them there. -/
def twoReady : VolatileRingBuffer :=
  let image := fun record : Record =>
    record.header.toBytes ++ List.replicate 4 0 ++ record.data ++ List.replicate 231 0
  { VolatileRingBuffer.blank 4 256 1000 100 true with
    slots := [⟨.ready, 0⟩, ⟨.ready, 1⟩, ⟨.empty, 0⟩, ⟨.empty, 0⟩]
    data := image (Record.new [7] 7 0) ++ image (Record.new [8] 8 0) ++ List.replicate 512 0 }

/-- The daemon goes round once. -/
def oneRound : List (PipelineTurn Unit) :=
  [.check, .usage false true false, .wait true, .read] ++ List.replicate 15 .readOn ++
    [.write Sys.ok, .write Sys.ok, .write Sys.ok, .flush]

theorem arrives_of_ready :
    let b := Live.fresh 64 (by decide) Sys.ok
    ∃ records disk,
      ((start ⟨100, 150⟩ twoReady b.buf).run ⟨100, 150⟩ oneRound).disk.readAll Sys.ok =
        some (.ok records, disk) ∧
          records.map Record.content =
            [(Record.new [7] 7 0).content, (Record.new [8] 8 0).content] := by
  intro b
  obtain ⟨htrace, hbatch⟩ :
      ((start ⟨100, 150⟩ twoReady b.buf).run ⟨100, 150⟩ oneRound).trace =
          [.returned [Record.new [7] 7 0, Record.new [8] 8 0] 50,
            .wrote (Record.new [7] 7 0) Sys.ok (.ok ()),
            .wrote (Record.new [8] 8 0) Sys.ok (.ok ())] ∧
        ((start ⟨100, 150⟩ twoReady b.buf).run ⟨100, 150⟩ oneRound).batch = [] := by
    decide +kernel
  have key := arrives ⟨100, 150⟩ twoReady b oneRound Sys.ok rfl (by decide) rfl
  simp only [htrace, hbatch] at key
  refine key (by simp) ?_ trivial (by decide)
  show Smooth ([_] ++ ([_] ++ [_]))
  rw [smooth_append, smooth_append, smooth_returned, smooth_wrote, smooth_wrote]
  exact ⟨by decide, rfl, rfl⟩

/-- A thread logs one record, and the daemon, notified, reads. -/
def oneRecord : List (PipelineTurn Unit) :=
  [.produce (.reserve () 1 false), .produce (.access ()), .produce (.access ()),
    .produce (.access ()), .produce (.access ()), .produce (.access ()),
    .produce (.fill 0 (Record.new [7] 7 0).header [7]), .produce (.commit 0), .check,
    .usage false true false, .wait true, .read, .readOn, .readOn, .readOn]

theorem nothing_arrives_of_one :
    ∃ b, VolatileRingBuffer.new 2 = some b ∧
      let disk := PersistentRingBuffer.fresh 64 Sys.ok
      let s := (start ⟨100, 150⟩ b disk).run ⟨100, 150⟩ oneRecord
      s.memory.granted = [(0, 0)] ∧ s.trace.length = 1 ∧ found s.trace = [] ∧ s.disk = disk := by
  have htrace : (VolatileRingBuffer.new 2).map (fun b =>
      let s := (start ⟨100, 150⟩ b (PersistentRingBuffer.fresh 64 Sys.ok)).run ⟨100, 150⟩ oneRecord
      (s.memory.granted, s.trace.length, calls s.trace)) = some ([(0, 0)], 1, []) := by
    decide +kernel
  obtain ⟨b, hnew, hres⟩ := Option.map_eq_some_iff.mp htrace
  obtain ⟨hgranted, hlength, hcalls⟩ := by simpa only [Prod.mk.injEq] using hres
  obtain ⟨hfound, -, hdisk⟩ :=
    nothing_arrives ⟨100, 150⟩ 2 b hnew (PersistentRingBuffer.fresh 64 Sys.ok) oneRecord
  rw [hcalls] at hdisk
  exact ⟨b, hnew, hgranted, hlength, hfound, (Option.some.inj hdisk).symm⟩

end Pipeline

end Ieee

end Sherlog
