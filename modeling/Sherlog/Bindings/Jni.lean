import Sherlog.Disk.Batches

/-!
# Reading all logs through the Android bindings

`jni/mod.rs`, with the Kotlin loop that comes with it: `readAllLogs` reads batches of a hundred
until one is empty or null.  The Rust example reads its logs in the same way, in batches of
fifty.

* `Jni.readBatch` — a batch for Kotlin, of a signed size; an error becomes null, and a negative
  size a panic.
* `Jni.readAllLogsLoop` — the loop over the batches.
* `Cursor.Reads.readBatchLoop`, `Cursor.Reads.readBatchLoop_of_none`,
  `Cursor.Reads.readBatchLoop_of_error` — a batch, by the calls of `next` it stands for.
* `Jni.readAllLogs_eq` — over whole batches the loop returns what calling `next` returns; the
  records of the batch that fails are lost, and batches of a negative size are never returned.
-/

namespace Sherlog

open PersistentRingBuffer

/-- `LogRecord` of the Kotlin interface. -/
structure LogRecord where
  data : List UInt8
  crc32 : Int64
  tag : Int32
  timestampUs : Int64
deriving DecidableEq

/-- The arguments of the constructor of `LogRecord`. -/
def LogRecord.ofRecord (r : Record) : LogRecord :=
  { data := r.data, crc32 := r.header.crc32.toUInt64.toInt64, tag := r.header.tag.toInt32,
    timestampUs := r.header.timestampUs.toInt64 }

/-- **Kotlin gets all that a record says**, although its integers are signed. -/
theorem LogRecord.content_of_eq {r s : Record} (h : ofRecord r = ofRecord s) :
    r.content = s.content ∧ r.header.crc32 = s.header.crc32 := by
  obtain ⟨hdata, hcrc, htag, htime⟩ := LogRecord.mk.inj h
  have hcrc' := congrArg (fun x : Int64 => x.toUInt64.toUInt32) hcrc
  have htag' := congrArg Int32.toUInt32 htag
  have htime' := congrArg Int64.toUInt64 htime
  simp only [UInt32.toUInt32_toUInt64, UInt64.toUInt64_toInt64] at hcrc'
  simp only [UInt32.toUInt32_toInt32] at htag'
  simp only [UInt64.toUInt64_toInt64] at htime'
  exact ⟨by rw [Record.content, Record.content, hdata, htag', htime'], hcrc'⟩

section

variable [Hasher]

namespace Jni

/-- `max_count as usize` -/
def asUsize (maxCount : Int32) : Nat := (maxCount.toInt % 2 ^ 64).toNat

/-- `Java_com_example_app_Sherlog_readBatch`, on a cursor that is open. -/
def readBatch (b : PersistentRingBuffer) (c : Cursor) (maxCount : Int32) :
    Option (Option (List LogRecord) × Cursor) :=
  (c.readBatch b (asUsize maxCount)).map fun
    | (.ok records, c) => (some (records.map LogRecord.ofRecord), c)
    | (.error _, c) => (none, c)

/-- The loop of `readAllLogs`, cut off after so many batches. -/
def readAllLogsLoop (b : PersistentRingBuffer) (maxCount : Int32) :
    Nat → Cursor → List LogRecord → Option (List LogRecord)
  | 0, _, _ => none
  | fuel + 1, c, result =>
    match readBatch b c maxCount with
    | none => none
    | some (none, _) => some result
    | some (some batch, c) =>
      if batch.isEmpty then some (result ++ batch)
      else readAllLogsLoop b maxCount fuel c (result ++ batch)

/-- `Sherlog.readAllLogs` -/
def readAllLogs (b : PersistentRingBuffer) : Option (List LogRecord) :=
  readAllLogsLoop b 100 scanFuel (Cursor.new b none) []

end Jni

/-! ## A batch, record by record -/

namespace Cursor

variable {b : PersistentRingBuffer} {c d last : Cursor} {found : List Record} {n : Nat}

/-- A whole batch. -/
theorem Reads.readBatchLoop (h : Reads b c found d) (hle : n ≤ found.length) :
    ∃ c', readBatchLoop b n c [] = some (.ok (found.take n), c') ∧
      Reads b c' (found.drop n) d := by
  induction n generalizing c found with
  | zero => exact ⟨c, rfl, h⟩
  | succ n ih =>
    cases h with
    | nil => cases hle
    | @cons _ c₁ _ r found hnext hrest =>
      obtain ⟨c', hbatch, hreads⟩ := ih hrest (Nat.le_of_succ_le_succ hle)
      exact ⟨c', by rw [readBatchLoop_of_next_record hnext, hbatch]; rfl, hreads⟩

/-- A batch that comes to the end. -/
theorem Reads.readBatchLoop_of_none (h : Reads b c found d)
    (hend : d.next b = some (.ok none, last)) (hlt : found.length < n) :
    Cursor.readBatchLoop b n c [] = some (.ok found, last) := by
  induction h generalizing n with
  | nil c =>
    obtain ⟨n, rfl⟩ := Nat.exists_eq_succ_of_ne_zero (Nat.ne_zero_of_lt hlt)
    exact readBatchLoop_of_next_none hend n
  | @cons _ _ _ r found hnext _ ih =>
    obtain ⟨n, rfl⟩ := Nat.exists_eq_succ_of_ne_zero (Nat.ne_zero_of_lt hlt)
    rw [readBatchLoop_of_next_record hnext, ih hend (Nat.lt_of_succ_lt_succ hlt)]
    rfl

/-- A batch that comes to an error. -/
theorem Reads.readBatchLoop_of_error {e : PersistentError} (h : Reads b c found d)
    (hend : d.next b = some (.error e, last)) (hlt : found.length < n) :
    Cursor.readBatchLoop b n c [] = some (.error e, last) := by
  induction h generalizing n with
  | nil c =>
    obtain ⟨n, rfl⟩ := Nat.exists_eq_succ_of_ne_zero (Nat.ne_zero_of_lt hlt)
    exact readBatchLoop_of_next_error hend n
  | @cons _ _ _ r found hnext _ ih =>
    obtain ⟨n, rfl⟩ := Nat.exists_eq_succ_of_ne_zero (Nat.ne_zero_of_lt hlt)
    rw [readBatchLoop_of_next_record hnext, ih hend (Nat.lt_of_succ_lt_succ hlt)]
    rfl

end Cursor

/-! ## The size of a batch -/

namespace Jni

omit [Hasher] in
theorem asUsize_of_nonneg {maxCount : Int32} (h : 0 ≤ maxCount) :
    (asUsize maxCount : Int) = maxCount.toInt := by
  have hle : (0 : Int) ≤ maxCount.toInt := Int32.le_iff_toInt_le.mp h
  have hlt := maxCount.toInt_lt
  unfold asUsize
  omega

omit [Hasher] in
theorem asUsize_pos {maxCount : Int32} (h : 0 < maxCount) : 0 < asUsize maxCount := by
  have hpos : (0 : Int) < maxCount.toInt := Int32.lt_iff_toInt_lt.mp h
  have hlt := maxCount.toInt_lt
  unfold asUsize
  omega

omit [Hasher] in
/-- A vector for a batch is to be had exactly when its size is not negative. -/
theorem capacityOverflow_iff (maxCount : Int32) :
    Cursor.capacityOverflow (asUsize maxCount) = true ↔ maxCount < 0 := by
  have hzero : (0 : Int32).toInt = 0 := rfl
  have hlt := maxCount.toInt_lt
  have hle := maxCount.le_toInt
  rw [Cursor.capacityOverflow, decide_eq_true_iff, Int32.lt_iff_toInt_lt, hzero]
  simp only [asUsize, isizeMax, RecordHeader.SIZE]
  omega

/-! ## The loop -/

variable {b : PersistentRingBuffer} {c d last : Cursor} {found : List Record} {fuel : Nat}
  {maxCount : Int32}

/-- For a batch of a positive size there is a vector. -/
theorem readBatch_of_pos (hn : 0 < maxCount) :
    c.readBatch b (asUsize maxCount) = Cursor.readBatchLoop b (asUsize maxCount) c [] := by
  refine if_neg (mt (capacityOverflow_iff maxCount).mp ?_)
  rw [Int32.lt_iff_toInt_lt] at hn ⊢
  omega

/-- One round over a whole batch. -/
theorem readAllLogsLoop_of_batch (hn : 0 < maxCount) (hle : asUsize maxCount ≤ found.length)
    (hreads : Cursor.Reads b c found d) :
    ∃ c', Cursor.Reads b c' (found.drop (asUsize maxCount)) d ∧ ∀ fuel result,
      readAllLogsLoop b maxCount (fuel + 1) c result =
        readAllLogsLoop b maxCount fuel c'
          (result ++ (found.take (asUsize maxCount)).map LogRecord.ofRecord) := by
  obtain ⟨c', hbatch, hrest⟩ := hreads.readBatchLoop hle
  have hpos := asUsize_pos hn
  have hsome : ((found.take (asUsize maxCount)).map LogRecord.ofRecord).isEmpty = false := by
    rw [List.isEmpty_eq_false_iff, ← List.length_pos_iff, List.length_map, List.length_take]
    omega
  refine ⟨c', hrest, fun fuel result => ?_⟩
  simp only [readAllLogsLoop, readBatch, readBatch_of_pos hn, hbatch, Option.map_some, hsome,
    Bool.false_eq_true, if_false]

/-- At the end of the log the next batch is empty. -/
theorem readAllLogsLoop_of_atEnd (hn : 0 < maxCount) (hend : c.atEnd = true) (fuel : Nat)
    (result : List LogRecord) :
    readAllLogsLoop b maxCount (fuel + 1) c result = some result := by
  obtain ⟨n, hsucc⟩ := Nat.exists_eq_succ_of_ne_zero (Nat.ne_of_gt (asUsize_pos hn))
  have hbatch : c.readBatch b (asUsize maxCount) = some (.ok [], c) := by
    rw [readBatch_of_pos hn, hsucc]
    exact Cursor.readBatchLoop_of_next_none (Cursor.next_of_atEnd hend) n
  simp only [readAllLogsLoop, readBatch, hbatch, Option.map_some, List.map_nil,
    List.isEmpty_nil, if_true, List.append_nil]

/-- The records of the whole batches among those that `next` returns. -/
def wholeBatches (n : Nat) (found : List Record) : List Record :=
  found.take (n * (found.length / n))

section

omit [Hasher]

variable {n : Nat}

theorem wholeBatches_of_le (hn : 0 < n) (hle : n ≤ found.length) :
    wholeBatches n found = found.take n ++ wholeBatches n (found.drop n) := by
  rw [wholeBatches, wholeBatches, List.length_drop, Nat.div_eq_sub_div hn hle, Nat.mul_add,
    Nat.mul_one, Nat.add_comm (n * _) n, List.take_add]

theorem wholeBatches_of_lt (hlt : found.length < n) : wholeBatches n found = [] := by
  rw [wholeBatches, Nat.div_eq_of_lt hlt, Nat.mul_zero, List.take_zero]

end

/-- **Over calls of `next` that end at the end of the log, the loop returns what they return.** -/
theorem readAllLogsLoop_of_none (hn : 0 < maxCount) (hend : d.next b = some (.ok none, last)) :
    ∀ {fuel : Nat} {c : Cursor} {found : List Record} {result : List LogRecord},
      Cursor.Reads b c found d → found.length + 1 < fuel →
        readAllLogsLoop b maxCount fuel c result =
          some (result ++ found.map LogRecord.ofRecord) := by
  have hpos := asUsize_pos hn
  intro fuel
  induction fuel with
  | zero => exact fun _ hfuel => absurd hfuel (Nat.not_lt_zero _)
  | succ fuel ih =>
    intro c found result hreads hfuel
    by_cases hle : asUsize maxCount ≤ found.length
    · obtain ⟨c', hrest, hround⟩ := readAllLogsLoop_of_batch hn hle hreads
      rw [hround, ih hrest (by rw [List.length_drop]; omega), List.append_assoc, ← List.map_append,
        List.take_append_drop]
    · have hbatch := hreads.readBatchLoop_of_none hend (not_le.mp hle)
      simp only [readAllLogsLoop, readBatch, readBatch_of_pos hn, hbatch, Option.map_some]
      split
      · rfl
      · next hsome =>
        -- the batch was not full, and the next one is empty
        have hne : found ≠ [] := by
          rintro rfl
          exact hsome rfl
        have hlength := List.length_pos_iff.mpr hne
        obtain ⟨fuel, rfl⟩ : ∃ k, fuel = k + 1 := ⟨fuel - 1, by omega⟩
        exact readAllLogsLoop_of_atEnd hn (Cursor.atEnd_of_next_none hend) fuel _

/-- **Over calls of `next` that end with an error, the loop returns the whole batches.** -/
theorem readAllLogsLoop_of_error {e : PersistentError} (hn : 0 < maxCount)
    (hend : d.next b = some (.error e, last)) :
    ∀ {fuel : Nat} {c : Cursor} {found : List Record} {result : List LogRecord},
      Cursor.Reads b c found d → found.length < fuel →
        readAllLogsLoop b maxCount fuel c result =
          some (result ++ (wholeBatches (asUsize maxCount) found).map LogRecord.ofRecord) := by
  have hpos := asUsize_pos hn
  intro fuel
  induction fuel with
  | zero => exact fun _ hfuel => absurd hfuel (Nat.not_lt_zero _)
  | succ fuel ih =>
    intro c found result hreads hfuel
    by_cases hle : asUsize maxCount ≤ found.length
    · obtain ⟨c', hrest, hround⟩ := readAllLogsLoop_of_batch hn hle hreads
      rw [hround, ih hrest (by rw [List.length_drop]; omega), List.append_assoc, ← List.map_append,
        ← wholeBatches_of_le hpos hle]
    · have hbatch := hreads.readBatchLoop_of_error hend (not_le.mp hle)
      simp only [readAllLogsLoop, readBatch, readBatch_of_pos hn, hbatch, Option.map_some,
        wholeBatches_of_lt (not_le.mp hle), List.map_nil, List.append_nil]

/-- Batches of no records end at once, and those of a negative size panic. -/
theorem readAllLogsLoop_of_nonpos (b : PersistentRingBuffer) (c : Cursor) (fuel : Nat) :
    readAllLogsLoop b 0 (fuel + 1) c [] = some [] ∧
      (maxCount < 0 → readAllLogsLoop b maxCount (fuel + 1) c [] = none) := by
  refine ⟨rfl, fun hneg => ?_⟩
  rw [readAllLogsLoop, readBatch, Cursor.readBatch,
    if_pos ((capacityOverflow_iff maxCount).mpr hneg), Option.map_none]

/-- **Reading all logs in batches.**  Over any content of the mapping, let the calls of `next` of
a new cursor return the records `found` before they come to an end, or to a record whose checksum
does not match.  Batches of any positive size return all of them in the first case; in the second
they return the whole batches only, so the records in front of the damaged one that do not fill a
batch are lost, and so is all that lies behind.  With batches of size zero nothing is read at all,
and with those of a negative size, which `read_batch` takes for a huge one, the loop panics. -/
theorem readAllLogs_eq (b : PersistentRingBuffer) (maxCount : Int32)
    (hreads : Cursor.Reads b (Cursor.new b none) found d) (hlen : found.length + 1 < scanFuel) :
    let loop := fun maxCount => readAllLogsLoop b maxCount scanFuel (Cursor.new b none) []
    (0 < maxCount →
      (d.next b = some (.ok none, last) → loop maxCount = some (found.map LogRecord.ofRecord)) ∧
        ∀ e, d.next b = some (.error e, last) →
          loop maxCount =
            some ((wholeBatches maxCount.toInt.toNat found).map LogRecord.ofRecord)) ∧
      loop 0 = some [] ∧ (maxCount < 0 → loop maxCount = none) := by
  intro loop
  refine ⟨fun hn => ⟨fun hend => ?_, fun e hend => ?_⟩,
    readAllLogsLoop_of_nonpos b (Cursor.new b none) (2 ^ 64)⟩
  · exact readAllLogsLoop_of_none hn hend hreads hlen
  · have hnat := asUsize_of_nonneg (Int32.le_of_lt hn)
    have hsize : asUsize maxCount = maxCount.toInt.toNat := by omega
    rw [← hsize]
    exact readAllLogsLoop_of_error hn hend hreads (by omega)

end Jni

end

section Ieee

attribute [local instance] Hasher.ieee

/-- Two records, the second one damaged: Kotlin gets neither of them.  Batches of one record
would have brought the first. -/
theorem Jni.readAllLogs_drops_first :
    let record := Record.new [1, 2, 3] 7 0
    let b := (((Live.fresh 100 (by decide) Sys.ok).after
      (Op.writes [record, record])).buf).damaged 51 [9]
    (Cursor.new b none).next b = some (.ok (some record.stored), Cursor.mk ⟨27, 0⟩ false) ∧
      readAllLogs b = some [] ∧
      readAllLogsLoop b 1 scanFuel (Cursor.new b none) [] =
        some [LogRecord.ofRecord record.stored] := by
  intro record b
  have hfirst : (Cursor.new b none).next b =
      some (.ok (some record.stored), Cursor.mk ⟨27, 0⟩ false) := by decide +kernel
  have hsecond : (Cursor.mk ⟨27, 0⟩ false).next b =
      some (.error .invalidRecord, Cursor.mk ⟨27, 0⟩ false) := by decide +kernel
  have hreads : Cursor.Reads b (Cursor.new b none) [record.stored] (Cursor.mk ⟨27, 0⟩ false) :=
    .cons hfirst (.nil _)
  have hhundred := ((readAllLogs_eq b 100 hreads (by decide)).1 (by decide)).2 _ hsecond
  have hone := ((readAllLogs_eq b 1 hreads (by decide)).1 (by decide)).2 _ hsecond
  have hnone : wholeBatches (100 : Int32).toInt.toNat [record.stored] = [] :=
    wholeBatches_of_lt (by decide)
  have hwhole : wholeBatches (1 : Int32).toInt.toNat [record.stored] = [record.stored] := by
    decide +kernel
  rw [hnone] at hhundred
  rw [hwhole] at hone
  exact ⟨hfirst, hhundred, hone⟩

end Ieee

end Sherlog
