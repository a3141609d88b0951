import Sherlog.Memory.Notify

/-!
# Shutdown

Producers, one flush daemon and `stop_flush_daemon`, turn by turn.  A write puts its record
into the memory buffer, may notify the consumer, and returns; the writes are numbered as
they come.  `memory_buffer.read()` hands over all that has been put, every write to disk
succeeds, and no batch limit is in force.  How the usage compares with the watermark is left
open.

* `Daemon.step` — one turn, with the record it passes to `disk_buffer.write`, if any.
* `Daemon.step_cases` — what a turn does to the records: one is put, all in memory are taken,
  one is passed on, or nothing moves.
* `Daemon.passed_of_read` — a read gets a record out of memory, and once taken it is passed on
  before the daemon ends.
* `Daemon.drains_iff` — exactly when nothing is left behind: the daemon reads once more after
  the stop, or what had returned was already taken.  It checks its flag before it reads, and
  never reads on its way out.
-/

namespace Sherlog

/-- Where the daemon is in its loop. -/
inductive DaemonPc where
  /-- At the condition of the loop. -/
  | check
  /-- At the usage check. -/
  | usage
  /-- In `wait_for_data`, or about to call it. -/
  | waiting
  /-- Before `memory_buffer.read()`. -/
  | read
  /-- In the `for` loop, with the records it has not come to. -/
  | writing (batch : List Nat)
  /-- In `thread::sleep`. -/
  | sleeping
  /-- The thread has ended. -/
  | ended
deriving DecidableEq, Repr

/-- The daemon, with what it shares with the producers. -/
structure Daemon where
  /-- `FLUSH_DAEMON_RUNNING` -/
  running : Bool
  /-- The number of records put into the memory buffer so far. -/
  puts : Nat
  /-- The records in the memory buffer. -/
  memory : List Nat
  /-- `consumer_signal` -/
  signal : Signal
  /-- Where the daemon is. -/
  pc : DaemonPc
deriving DecidableEq, Repr

/-- What happens at one time. -/
inductive DaemonTurn where
  /-- A producer's record is in the memory buffer. -/
  | put
  /-- A producer's commit calls `notify_consumer`. -/
  | notifyConsumer
  /-- The write with that number returns. -/
  | ret (n : Nat)
  /-- `stop_flush_daemon` -/
  | stop
  /-- The daemon loads its flag. -/
  | check
  /-- The daemon compares the usage with the high watermark. -/
  | usage (reached : Bool)
  /-- The daemon calls `wait_for_data`. -/
  | waitForData
  /-- The timeout of its wait passes. -/
  | expire
  /-- Its wait takes the lock again. -/
  | reacquire
  /-- The daemon calls `memory_buffer.read()`. -/
  | read
  /-- The daemon calls `disk_buffer.write` for the next record, or leaves the loop. -/
  | write
  /-- The daemon wakes up. -/
  | wake
deriving DecidableEq, Repr

namespace Daemon

/-- A daemon just started, over empty memory. -/
def new : Daemon := ⟨true, 0, [], Signal.new, .check⟩

/-- The records taken out of memory that are not yet passed on. -/
def batch (s : Daemon) : List Nat :=
  match s.pc with
  | .writing batch => batch
  | _ => []

/-- A turn of the signal during the daemon's wait: when `wait_for_data` returns, its answer
decides between a read and a sleep. -/
def stepSignal (s : Daemon) (turn : SignalTurn) : Option (Option Nat × Daemon) :=
  match s.pc, s.signal.step turn with
  | .waiting, some (some true, signal) => some (none, { s with signal, pc := .read })
  | .waiting, some (some false, signal) => some (none, { s with signal, pc := .sleeping })
  | .waiting, some (none, signal) => some (none, { s with signal })
  | _, _ => none

/-- One turn, with the record it passes to `disk_buffer.write`, if any; `none` when the daemon
is elsewhere. -/
def step (intervalMs : Nat) (s : Daemon) : DaemonTurn → Option (Option Nat × Daemon)
  | .put => some (none, { s with puts := s.puts + 1, memory := s.memory ++ [s.puts] })
  | .notifyConsumer => some (none, { s with signal := s.signal.notifyConsumer })
  | .ret n => if n < s.puts then some (none, s) else none
  | .stop => some (none, { s with running := false })
  | .check =>
    match s.pc with
    | .check => some (none, { s with pc := if s.running then .usage else .ended })
    | _ => none
  | .usage reached =>
    match s.pc with
    | .usage => some (none, { s with pc := if reached then .read else .waiting })
    | _ => none
  | .waitForData => s.stepSignal (.waitForData (some intervalMs))
  | .expire => s.stepSignal .expire
  | .reacquire => s.stepSignal .reacquire
  | .read =>
    match s.pc with
    | .read => some (none, { s with memory := [], pc := .writing s.memory })
    | _ => none
  | .write =>
    match s.pc with
    | .writing (n :: batch) => some (some n, { s with pc := .writing batch })
    | .writing [] => some (none, { s with pc := .check })
    | _ => none
  | .wake =>
    match s.pc with
    | .sleeping => some (none, { s with pc := .check })
    | _ => none

variable {intervalMs n : Nat} {s s' t : Daemon} {turn : DaemonTurn} {turns : List DaemonTurn}
  {answer : Option Nat} {answers : List (Option Nat)}

/-! ## One turn -/

/-- What a turn does to the records. -/
inductive Effect (s s' : Daemon) : DaemonTurn → Option Nat → Prop
  /-- One more is put. -/
  | put (puts : s'.puts = s.puts + 1) (memory : s'.memory = s.memory ++ [s.puts])
      (batch : s'.batch = s.batch) : Effect s s' .put none
  /-- All in memory are taken. -/
  | read (puts : s'.puts = s.puts) (memory : s'.memory = []) (none_left : s.batch = [])
      (batch : s'.batch = s.memory) : Effect s s' .read none
  /-- One that was taken is passed on. -/
  | write (n : Nat) (puts : s'.puts = s.puts) (memory : s'.memory = s.memory)
      (batch : s.batch = n :: s'.batch) : Effect s s' .write (some n)
  /-- They are where they were. -/
  | still {turn : DaemonTurn} (no_read : turn ≠ .read) (puts : s'.puts = s.puts)
      (memory : s'.memory = s.memory) (batch : s'.batch = s.batch) : Effect s s' turn none

theorem effect_of_stepSignal {waits : SignalTurn} (hturn : turn ≠ .read)
    (h : s.stepSignal waits = some (answer, s')) : Effect s s' turn answer := by
  rw [stepSignal] at h
  split at h
  case h_4 => cases h
  all_goals
    next hpc _ =>
      obtain ⟨rfl, rfl⟩ := Prod.mk.inj (Option.some.inj h)
      exact .still hturn rfl rfl (by simp only [batch, hpc])

/-- **What a turn does to the records**, for every turn. -/
theorem effect_of_step (h : step intervalMs s turn = some (answer, s')) :
    Effect s s' turn answer := by
  cases turn with
  | put =>
    obtain ⟨rfl, rfl⟩ := Prod.mk.inj (Option.some.inj h)
    exact .put rfl rfl rfl
  | notifyConsumer =>
    obtain ⟨rfl, rfl⟩ := Prod.mk.inj (Option.some.inj h)
    exact .still nofun rfl rfl rfl
  | ret n =>
    rw [step] at h
    split at h
    · obtain ⟨rfl, rfl⟩ := Prod.mk.inj (Option.some.inj h)
      exact .still nofun rfl rfl rfl
    · cases h
  | stop =>
    obtain ⟨rfl, rfl⟩ := Prod.mk.inj (Option.some.inj h)
    exact .still nofun rfl rfl rfl
  | check =>
    rw [step] at h
    split at h
    · next hpc =>
      obtain ⟨rfl, rfl⟩ := Prod.mk.inj (Option.some.inj h)
      refine .still nofun rfl rfl ?_
      cases s.running <;> simp [batch, hpc]
    · cases h
  | usage reached =>
    rw [step] at h
    split at h
    · next hpc =>
      obtain ⟨rfl, rfl⟩ := Prod.mk.inj (Option.some.inj h)
      refine .still nofun rfl rfl ?_
      cases reached <;> simp [batch, hpc]
    · cases h
  | waitForData => exact effect_of_stepSignal nofun h
  | expire => exact effect_of_stepSignal nofun h
  | reacquire => exact effect_of_stepSignal nofun h
  | read =>
    rw [step] at h
    split at h
    · next hpc =>
      obtain ⟨rfl, rfl⟩ := Prod.mk.inj (Option.some.inj h)
      exact .read rfl rfl (by simp only [batch, hpc]) rfl
    · cases h
  | write =>
    rw [step] at h
    split at h
    · next n rest hpc =>
      obtain ⟨rfl, rfl⟩ := Prod.mk.inj (Option.some.inj h)
      exact .write n rfl rfl (by simp only [batch, hpc])
    · next hpc =>
      obtain ⟨rfl, rfl⟩ := Prod.mk.inj (Option.some.inj h)
      exact .still nofun rfl rfl (by simp only [batch, hpc])
    · cases h
  | wake =>
    rw [step] at h
    split at h
    · next hpc =>
      obtain ⟨rfl, rfl⟩ := Prod.mk.inj (Option.some.inj h)
      exact .still nofun rfl rfl (by simp only [batch, hpc])
    · cases h

/-! ## Invariants -/

/-- Where a record is before it is passed on: in memory, or taken. -/
def Holds (s : Daemon) (n : Nat) : Prop := n ∈ s.memory ∨ n ∈ s.batch

/-- A record that was put and is in memory no more. -/
def Out (s : Daemon) (n : Nat) : Prop := n < s.puts ∧ n ∉ s.memory

/-- Every record in memory has been put, and every record taken is out of memory. -/
structure WellFormed (s : Daemon) : Prop where
  memory : ∀ n ∈ s.memory, n < s.puts
  batch : ∀ n ∈ s.batch, s.Out n

theorem wellFormed_new : new.WellFormed := ⟨nofun, nofun⟩

/-- A record that is out of memory does not come back. -/
theorem out_step (hn : s.Out n) (h : step intervalMs s turn = some (answer, s')) :
    s'.Out n := by
  obtain ⟨hlt, hnot⟩ := hn
  unfold Out
  cases effect_of_step h with
  | put hputs hmemory _ =>
    rw [hputs, hmemory, List.mem_append, List.mem_singleton]
    exact ⟨Nat.lt_succ_of_lt hlt, not_or.mpr ⟨hnot, Nat.ne_of_lt hlt⟩⟩
  | read hputs hmemory _ _ =>
    rw [hputs, hmemory]
    exact ⟨hlt, List.not_mem_nil⟩
  | write m hputs hmemory _ =>
    rw [hputs, hmemory]
    exact ⟨hlt, hnot⟩
  | still _ hputs hmemory _ =>
    rw [hputs, hmemory]
    exact ⟨hlt, hnot⟩

theorem WellFormed.step (hwf : s.WellFormed) (h : step intervalMs s turn = some (answer, s')) :
    s'.WellFormed := by
  have hout : ∀ n ∈ s.batch, s'.Out n := fun n hn => out_step (hwf.batch n hn) h
  cases effect_of_step h with
  | put hputs hmemory hbatch =>
    refine ⟨fun n hn => ?_, hbatch ▸ hout⟩
    rw [hmemory, List.mem_append, List.mem_singleton] at hn
    rw [hputs]
    rcases hn with hn | rfl
    · exact Nat.lt_succ_of_lt (hwf.memory n hn)
    · exact Nat.lt_succ_self _
  | read hputs hmemory _ hbatch =>
    refine ⟨by rw [hmemory]; exact nofun, fun n hn => ?_⟩
    rw [hbatch] at hn
    rw [Out, hputs, hmemory]
    exact ⟨hwf.memory n hn, List.not_mem_nil⟩
  | write m hputs hmemory hbatch =>
    refine ⟨?_, fun n hn => hout n (hbatch ▸ List.mem_cons_of_mem m hn)⟩
    rw [hputs, hmemory]
    exact hwf.memory
  | still _ hputs hmemory hbatch =>
    refine ⟨?_, hbatch ▸ hout⟩
    rw [hputs, hmemory]
    exact hwf.memory

/-- Only a read takes a record out of memory. -/
theorem memory_step (hn : n ∈ s.memory) (hturn : turn ≠ .read)
    (h : step intervalMs s turn = some (answer, s')) : n ∈ s'.memory := by
  cases effect_of_step h with
  | put _ hmemory _ => exact hmemory ▸ List.mem_append_left _ hn
  | read _ _ _ _ => exact absurd rfl hturn
  | write _ _ hmemory _ => exact hmemory ▸ hn
  | still _ _ hmemory _ => exact hmemory ▸ hn

/-- A record taken stays with the daemon until it is passed on. -/
theorem batch_step (hn : n ∈ s.batch) (h : step intervalMs s turn = some (answer, s')) :
    n ∈ s'.batch ∨ answer = some n := by
  cases effect_of_step h with
  | put _ _ hbatch => exact Or.inl (hbatch ▸ hn)
  | read _ _ hnone _ =>
    rw [hnone] at hn
    cases hn
  | write m _ _ hbatch =>
    rw [hbatch, List.mem_cons] at hn
    exact hn.symm.imp id fun heq => congrArg some heq.symm
  | still _ _ _ hbatch => exact Or.inl (hbatch ▸ hn)

/-- No record is lost: one that was put is in memory, taken, or passed on. -/
theorem holds_step (hn : n < s.puts → s.Holds n) (h : step intervalMs s turn = some (answer, s')) :
    (n < s'.puts → s'.Holds n) ∨ answer = some n := by
  by_cases hanswer : answer = some n
  · exact Or.inr hanswer
  refine Or.inl fun hlt => ?_
  -- a record that was there is in memory still, was taken, or is in the batch still
  have hold : n < s.puts → s'.Holds n := fun hbefore => by
    rcases hn hbefore with hmemory | hbatch
    · by_cases hread : turn = .read
      · subst hread
        cases effect_of_step h with
        | read _ _ _ hbatch => exact Or.inr (hbatch ▸ hmemory)
        | still hturn _ _ _ => exact absurd rfl hturn
      · exact Or.inl (memory_step hmemory hread h)
    · exact Or.inr ((batch_step hbatch h).resolve_right hanswer)
  cases effect_of_step h with
  | put hputs hmemory _ =>
    rcases Nat.lt_or_eq_of_le (Nat.le_of_lt_succ (hputs ▸ hlt)) with hbefore | rfl
    · exact hold hbefore
    · exact Or.inl (hmemory ▸ List.mem_append_right _ (List.mem_singleton_self _))
  | read hputs _ _ _ => exact hold (hputs ▸ hlt)
  | write _ hputs _ _ => exact hold (hputs ▸ hlt)
  | still _ hputs _ _ => exact hold (hputs ▸ hlt)

/-! ## Runs -/

/-- The records that were put are held or passed on. -/
theorem holds_run (hrun : Machine.run (step intervalMs) s turns = some (answers, t))
    (hn : n < s.puts → s.Holds n) :
    (n < t.puts → t.Holds n) ∨ some n ∈ answers :=
  Machine.run_preserves_or (I := fun s => n < s.puts → s.Holds n)
    (fun _ _ _ _ hs h => holds_step hs h) hn hrun

/-- Without a read, what is in memory stays there. -/
theorem memory_run (hrun : Machine.run (step intervalMs) s turns = some (answers, t))
    (hn : n ∈ s.memory) (hread : .read ∉ turns) : n ∈ t.memory := by
  induction turns generalizing s answers with
  | nil =>
    obtain ⟨-, rfl⟩ := Prod.mk.inj (Option.some.inj hrun)
    exact hn
  | cons turn turns ih =>
    obtain ⟨answer, s', rest, hstep, hrest, -⟩ := Machine.run_cons_eq_some.mp hrun
    rw [List.mem_cons, not_or] at hread
    exact ih hrest (memory_step hn (Ne.symm hread.1) hstep) hread.2

/-- A record that is out of memory stays out. -/
theorem out_run (hrun : Machine.run (step intervalMs) s turns = some (answers, t))
    (hn : s.Out n) : t.Out n :=
  Machine.run_preserves (I := fun s => s.Out n) (fun _ _ _ _ hs h => out_step hs h) hn hrun

/-- A record that is passed on is out of memory for good. -/
theorem out_of_passed (hrun : Machine.run (step intervalMs) s turns = some (answers, t))
    (hwf : s.WellFormed) (hn : some n ∈ answers) : t.Out n := by
  induction turns generalizing s answers with
  | nil =>
    obtain ⟨rfl, -⟩ := Prod.mk.inj (Option.some.inj hrun)
    cases hn
  | cons turn turns ih =>
    obtain ⟨answer, s', rest, hstep, hrest, rfl⟩ := Machine.run_cons_eq_some.mp hrun
    rcases List.mem_cons.mp hn with rfl | hn
    · refine out_run hrest (out_step (hwf.batch n ?_) hstep)
      cases effect_of_step hstep with
      | write _ _ _ hbatch => exact hbatch ▸ List.mem_cons_self
    · exact ih hrest (hwf.step hstep) hn

/-- A record taken is passed on before the daemon ends. -/
theorem passed_of_batch (hrun : Machine.run (step intervalMs) s turns = some (answers, t))
    (hended : t.pc = .ended) (hn : n ∈ s.batch) : some n ∈ answers := by
  refine (Machine.run_preserves_or (I := fun s => n ∈ s.batch)
    (fun _ _ _ _ hs h => batch_step hs h) hn hrun).resolve_left fun hleft => ?_
  simp [batch, hended] at hleft

/-- **A record in memory is passed on if there is a read before the daemon ends.** -/
theorem passed_of_read (hrun : Machine.run (step intervalMs) s turns = some (answers, t))
    (hended : t.pc = .ended) (hn : n ∈ s.memory) (hread : .read ∈ turns) :
    some n ∈ answers := by
  induction turns generalizing s answers with
  | nil => cases hread
  | cons turn turns ih =>
    obtain ⟨answer, s', rest, hstep, hrest, rfl⟩ := Machine.run_cons_eq_some.mp hrun
    refine List.mem_cons_of_mem _ ?_
    by_cases hturn : turn = .read
    · subst hturn
      cases effect_of_step hstep with
      | read _ _ _ hbatch => exact passed_of_batch hrest hended (hbatch ▸ hn)
      | still hturn _ _ _ => exact absurd rfl hturn
    · exact ih hrest (memory_step hn hturn hstep)
        ((List.mem_cons.mp hread).resolve_left (Ne.symm hturn))

/-- The count of the records that were put never goes down. -/
theorem lt_puts_step (hn : n < s.puts) (h : step intervalMs s turn = some (answer, s')) :
    n < s'.puts := by
  cases effect_of_step h with
  | put hputs _ _ => exact hputs ▸ Nat.lt_succ_of_lt hn
  | read hputs _ _ _ => exact hputs ▸ hn
  | write _ hputs _ _ => exact hputs ▸ hn
  | still _ hputs _ _ => exact hputs ▸ hn

/-- A write that has returned has put its record. -/
theorem lt_puts_of_ret (hrun : Machine.run (step intervalMs) s turns = some (answers, t))
    (hn : .ret n ∈ turns) : n < t.puts := by
  induction turns generalizing s answers with
  | nil => cases hn
  | cons turn turns ih =>
    obtain ⟨answer, s', rest, hstep, hrest, -⟩ := Machine.run_cons_eq_some.mp hrun
    rcases List.mem_cons.mp hn with rfl | hn
    · rw [step] at hstep
      split at hstep
      · next hlt =>
        obtain ⟨-, rfl⟩ := Prod.mk.inj (Option.some.inj hstep)
        exact Machine.run_preserves (I := fun s => n < s.puts)
          (fun _ _ _ _ hs h => lt_puts_step hs h) hlt hrest
      · cases hstep
    · exact ih hrest hn

/-- **Shutdown leaves nothing behind exactly when the daemon reads once more after the stop,
or no write that had returned left its record in memory**: for every order of the turns before
the stop and after it, up to the end of the daemon. -/
theorem drains_iff {before after : List DaemonTurn} {earlier later : List (Option Nat)}
    (hbefore : Machine.run (step intervalMs) new before = some (earlier, s))
    (hafter : Machine.run (step intervalMs) s (.stop :: after) = some (later, t))
    (hended : t.pc = .ended) :
    (∀ n, .ret n ∈ before → some n ∈ earlier ++ later) ↔
      .read ∈ after ∨ ∀ n, .ret n ∈ before → n ∉ s.memory := by
  have hwf : s.WellFormed :=
    Machine.run_preserves (fun _ _ _ _ hs hstep => hs.step hstep) wellFormed_new hbefore
  constructor
  · intro hpassed
    by_cases hread : .read ∈ after
    · exact Or.inl hread
    refine Or.inr fun n hret hmemory => ?_
    -- it is in memory at the stop and to the end, so it is passed on neither before nor after
    have hstays : n ∈ t.memory :=
      memory_run hafter hmemory (List.not_mem_cons_of_ne_of_not_mem nofun hread)
    rcases List.mem_append.mp (hpassed n hret) with hearlier | hlater
    · exact (out_of_passed hbefore wellFormed_new hearlier).2 hmemory
    · exact (out_of_passed hafter hwf hlater).2 hstays
  · intro hcond n hret
    rw [List.mem_append]
    rcases holds_run hbefore (n := n) nofun with hholds | hearlier
    · rcases hholds (lt_puts_of_ret hbefore hret) with hmemory | hbatch
      · rcases hcond with hread | hnone
        · exact Or.inr (passed_of_read hafter hended hmemory (List.mem_cons_of_mem _ hread))
        · exact absurd hmemory (hnone n hret)
      · exact Or.inr (passed_of_batch hafter hended hbatch)
    · exact Or.inl hearlier

/-- The daemon is about to read when it is told to stop: it passes on what it reads, and ends. -/
theorem drains_of_read :
    Machine.run (step 1000) new [.put, .notifyConsumer, .ret 0, .check, .usage true] =
        some ([none, none, none, none, none], ⟨true, 1, [0], ⟨true, .away⟩, .read⟩) ∧
      some 0 ∈ [none, none, none, none, none] ++ [none, none, some 0, none, none] := by
  have hbefore : Machine.run (step 1000) new
      [.put, .notifyConsumer, .ret 0, .check, .usage true] =
        some ([none, none, none, none, none], ⟨true, 1, [0], ⟨true, .away⟩, .read⟩) := rfl
  have hafter : Machine.run (step 1000) ⟨true, 1, [0], ⟨true, .away⟩, .read⟩
      [.stop, .read, .write, .write, .check] =
        some ([none, none, some 0, none, none], ⟨false, 1, [], ⟨true, .away⟩, .ended⟩) := rfl
  have key := (drains_iff hbefore hafter rfl).mpr (Or.inl List.mem_cons_self)
  exact ⟨hbefore, key 0 (by decide)⟩

/-- A write returns, and the daemon is told to stop before it checks its flag again: it ends,
and the record is still in memory. -/
theorem not_drains_of_check :
    Machine.run (step 1000) new [.put, .notifyConsumer, .ret 0] =
        some ([none, none, none], ⟨true, 1, [0], ⟨true, .away⟩, .check⟩) ∧
      Machine.run (step 1000) ⟨true, 1, [0], ⟨true, .away⟩, .check⟩ [.stop, .check] =
        some ([none, none], ⟨false, 1, [0], ⟨true, .away⟩, .ended⟩) ∧
      ¬ ∀ n, DaemonTurn.ret n ∈ [.put, .notifyConsumer, .ret 0] →
        some n ∈ [none, none, none] ++ [(none : Option Nat), none] := by
  refine ⟨rfl, rfl, fun hall => ?_⟩
  have := hall 0 (by decide)
  exact absurd this (by decide)

end Daemon

end Sherlog
