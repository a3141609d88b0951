import Sherlog.Memory.Record

/-!
# The flush daemon

The loop of `start_flush_daemon`, one iteration a round.  What the rest of the system
decides in a round is its data: how the usage compares with the watermark, what
`wait_for_data` answers, which records `memory_buffer.read()` hands over and has thereby
removed from the memory buffer, and which calls of `disk_buffer.write` succeed.  The
watermark is a floating-point number, and so is the factor of the larger batch: its value is
a parameter.

* `Round.writes` — the calls of `disk_buffer.write` that one iteration makes.
* `FlushDaemonConfig.Moves` — every record taken out of memory is written, once and in
  order, in its iteration or in a later one.
* `FlushDaemonConfig.moves_iff` — exactly when that is so: no iteration takes more than its
  batch, and no write fails.  An iteration keeps nothing for the next one.
-/

namespace Sherlog

/-- Configurations for the flush daemon. -/
structure FlushDaemonConfig where
  /-- Maximum number of records to flush in one operation. -/
  maxRecordsPerFlush : Nat
  /-- `(max_records_per_flush as f32 * 1.5) as usize` -/
  enlarged : Nat
deriving DecidableEq, Repr

/-- `batch_size`, adjusted to the usage (`usage > high_watermark_percent`,
`usage < high_watermark_percent / 2.0`) and at least 1. -/
def FlushDaemonConfig.batchSize (config : FlushDaemonConfig) (above below : Bool) : Nat :=
  let batchSize :=
    if above then config.enlarged
    else if below then config.maxRecordsPerFlush / 2
    else config.maxRecordsPerFlush
  max batchSize 1

/-- What the rest of the system decides in one iteration. -/
structure Round where
  /-- `usage > high_watermark_percent` -/
  above : Bool
  /-- `usage < high_watermark_percent / 2.0` -/
  below : Bool
  /-- `usage >= high_watermark_percent` -/
  reached : Bool
  /-- What `wait_for_data` returns. -/
  notified : Bool
  /-- What `memory_buffer.read()` returns. -/
  records : List Record
  /-- Whether the call of `disk_buffer.write` with that number succeeds. -/
  succeeds : Nat → Bool

namespace Round

/-- The batch of the iteration. -/
def batchSize (round : Round) (config : FlushDaemonConfig) : Nat :=
  config.batchSize round.above round.below

/-- `should_flush` -/
def shouldFlush (round : Round) : Bool := round.reached || round.notified

/-- The records taken out of memory. -/
def taken (round : Round) : List Record := if round.shouldFlush then round.records else []

/-- The `for` loop over the batch, from the call with number `i` on: the records passed to
`disk_buffer.write`, with its success.  It stops at the first error. -/
def writeLoop (round : Round) : Nat → List Record → List (Record × Bool)
  | _, [] => []
  | i, record :: records =>
    if round.succeeds i then (record, true) :: round.writeLoop (i + 1) records
    else [(record, false)]

/-- The calls of `disk_buffer.write` of one iteration. -/
def writes (round : Round) (config : FlushDaemonConfig) : List (Record × Bool) :=
  if round.shouldFlush then
    if round.records.isEmpty then []
    else round.writeLoop 0 (round.records.take (round.batchSize config))
  else []

/-- The records whose write succeeded, in order. -/
def written (round : Round) (config : FlushDaemonConfig) : List Record :=
  ((round.writes config).filter Prod.snd).map Prod.fst

end Round

namespace FlushDaemonConfig

/-- The records that a run of the daemon takes out of memory, in order. -/
def taken (rounds : List Round) : List Record := rounds.flatMap Round.taken

/-- The records that a run of the daemon writes, in order. -/
def written (config : FlushDaemonConfig) (rounds : List Round) : List Record :=
  rounds.flatMap fun round => round.written config

/-- The run can be continued, without taking anything more out of memory, so that every
record taken is written, once and in order. -/
def Moves (config : FlushDaemonConfig) (rounds : List Round) : Prop :=
  ∃ later : List Round, (∀ round ∈ later, round.taken = []) ∧
    config.written (rounds ++ later) = taken rounds

end FlushDaemonConfig

/-! ## One iteration -/

namespace Round

variable {round : Round} {config : FlushDaemonConfig}

/-- The loop writes a front of the batch. -/
theorem written_writeLoop_prefix (round : Round) (records : List Record) (i : Nat) :
    ((round.writeLoop i records).filter Prod.snd).map Prod.fst <+: records := by
  induction records generalizing i with
  | nil => exact List.prefix_rfl
  | cons record records ih =>
    rw [writeLoop]
    split
    · rw [List.filter_cons_of_pos rfl, List.map_cons]
      exact List.prefix_cons_inj record |>.mpr (ih (i + 1))
    · exact List.nil_prefix

/-- It writes all of it exactly when no write fails. -/
theorem written_writeLoop_eq_iff (round : Round) (records : List Record) (i : Nat) :
    ((round.writeLoop i records).filter Prod.snd).map Prod.fst = records ↔
      ∀ j < records.length, round.succeeds (i + j) = true := by
  induction records generalizing i with
  | nil => simp [writeLoop]
  | cons record records ih =>
    rw [writeLoop]
    by_cases h : round.succeeds i = true
    · rw [if_pos h, List.filter_cons_of_pos rfl, List.map_cons, List.cons.injEq, ih]
      constructor
      · rintro ⟨-, hrest⟩ (_ | j) hj
        · exact h
        · rw [← Nat.add_assoc, Nat.add_right_comm]
          exact hrest j (Nat.lt_of_succ_lt_succ hj)
      · intro hall
        refine ⟨rfl, fun j hj => ?_⟩
        have := hall (j + 1) (Nat.succ_lt_succ hj)
        rwa [← Nat.add_assoc, Nat.add_right_comm] at this
    · rw [if_neg h]
      refine ⟨fun hnil => ?_, fun hall => absurd (hall 0 (Nat.succ_pos _)) h⟩
      simp at hnil

/-- **What one iteration writes** is a front of what it takes. -/
theorem written_prefix (round : Round) (config : FlushDaemonConfig) :
    round.written config <+: round.taken := by
  unfold written writes taken
  split
  · split
    · exact List.nil_prefix
    · exact (round.written_writeLoop_prefix _ 0).trans (List.take_prefix _ _)
  · exact List.prefix_rfl

/-- **It writes all that it takes exactly when the batch holds it and no write fails.** -/
theorem written_eq_taken_iff (round : Round) (config : FlushDaemonConfig) :
    round.written config = round.taken ↔
      round.taken.length ≤ round.batchSize config ∧
        ∀ i < round.taken.length, round.succeeds i = true := by
  unfold written writes taken
  split
  · split
    · next hempty => simp [List.isEmpty_iff.mp hempty]
    · constructor
      · intro heq
        have hfits : round.records.length ≤ round.batchSize config := by
          have hle := (round.written_writeLoop_prefix
            (round.records.take (round.batchSize config)) 0).length_le
          rw [heq, List.length_take] at hle
          omega
        rw [List.take_of_length_le hfits] at heq
        refine ⟨hfits, fun i hi => ?_⟩
        have := (round.written_writeLoop_eq_iff round.records 0).mp heq i hi
        rwa [Nat.zero_add] at this
      · rintro ⟨hfits, hall⟩
        rw [List.take_of_length_le hfits, written_writeLoop_eq_iff]
        intro i hi
        rw [Nat.zero_add]
        exact hall i hi
  · simp

end Round

/-! ## Runs -/

/-- Fronts of lists are no longer than the lists. -/
theorem length_flatMap_le_of_prefix {α β : Type*} {f g : α → List β} (h : ∀ a, f a <+: g a)
    (l : List α) : (l.flatMap f).length ≤ (l.flatMap g).length := by
  induction l with
  | nil => exact Nat.le_refl 0
  | cons a l ih =>
    rw [List.flatMap_cons, List.flatMap_cons, List.length_append, List.length_append]
    exact Nat.add_le_add (h a).length_le ih

/-- Fronts of lists make up the lists only if each of them is whole. -/
theorem flatMap_eq_flatMap_iff_of_prefix {α β : Type*} {f g : α → List β}
    (h : ∀ a, f a <+: g a) (l : List α) : l.flatMap f = l.flatMap g ↔ ∀ a ∈ l, f a = g a := by
  induction l with
  | nil => simp
  | cons a l ih =>
    rw [List.flatMap_cons, List.flatMap_cons, List.forall_mem_cons, ← ih]
    constructor
    · intro heq
      have htotal := congrArg List.length heq
      rw [List.length_append, List.length_append] at htotal
      have hlater := length_flatMap_le_of_prefix h l
      have hle := (h a).length_le
      have ha : f a = g a := (h a).eq_of_length (by omega)
      rw [ha] at heq
      exact ⟨ha, List.append_cancel_left heq⟩
    · rintro ⟨ha, hl⟩
      rw [ha, hl]

namespace FlushDaemonConfig

/-- Rounds that take nothing write nothing. -/
theorem written_of_nothing (config : FlushDaemonConfig) {rounds : List Round}
    (h : ∀ round ∈ rounds, round.taken = []) : config.written rounds = [] := by
  rw [written, List.flatMap_eq_nil_iff]
  intro round hround
  have := round.written_prefix config
  rwa [h round hround, List.prefix_nil] at this

/-- Rounds after the run that take nothing add nothing to it. -/
theorem moves_iff_written_eq (config : FlushDaemonConfig) (rounds : List Round) :
    config.Moves rounds ↔ config.written rounds = taken rounds := by
  constructor
  · rintro ⟨later, hlater, heq⟩
    rwa [written, List.flatMap_append, ← written, ← written, written_of_nothing config hlater,
      List.append_nil] at heq
  · intro heq
    exact ⟨[], by simp, by rwa [List.append_nil]⟩

/-- **The daemon moves every record it takes out of memory exactly when no iteration takes
more than its batch and no write fails**: for every configuration and every run. -/
theorem moves_iff (config : FlushDaemonConfig) (rounds : List Round) :
    config.Moves rounds ↔ ∀ round ∈ rounds,
      round.taken.length ≤ round.batchSize config ∧
        ∀ i < round.taken.length, round.succeeds i = true := by
  rw [moves_iff_written_eq, written, taken,
    flatMap_eq_flatMap_iff_of_prefix (fun round => round.written_prefix config)]
  simp only [Round.written_eq_taken_iff]

/-- Two records taken with a batch of one: the second is passed to no write. -/
theorem not_moves_of_two :
    let record := fun tag => Record.mk default [tag]
    let round := Round.mk false false true false [record 1, record 2] fun _ => true
    round.writes ⟨1, 1⟩ = [(record 1, true)] ∧ ¬ Moves ⟨1, 1⟩ [round] := by
  refine ⟨rfl, fun hmoves => ?_⟩
  have hlength := congrArg List.length ((moves_iff_written_eq _ _).mp hmoves)
  exact absurd hlength (by decide)

end FlushDaemonConfig

end Sherlog
