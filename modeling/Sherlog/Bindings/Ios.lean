import Sherlog.Disk.CursorReads
import Sherlog.Disk.Damage

/-!
# Reading all logs through the iOS bindings

`ios/mod.rs`, with the Swift loop that comes with it: `readAllLogs` calls `next` until it
returns no record, which is what an error becomes as well, and then commits the cursor.

* `Ios.readNextRecord`, `Ios.readAllLogs` — the two functions.
* `Ios.readAllLogs_again` — a second call returns nothing or the same again, as the first one has
  committed or not; what it has committed is everything, also what lies behind a damaged record.
-/

namespace Sherlog

open PersistentRingBuffer

section

variable [Hasher]

namespace Ios

/-- `swift_read_next` -/
def readNextRecord (b : PersistentRingBuffer) (c : Cursor) : Option (Option Record × Cursor) :=
  (c.next b).map fun
    | (.ok (some record), c) => (some record, c)
    | (_, c) => (none, c)

/-- The loop of `readAllLogs`, cut off after so many records. -/
def readAllLogsLoop (b : PersistentRingBuffer) :
    Nat → Cursor → List Record → Option (List Record × Cursor)
  | 0, _, _ => none
  | fuel + 1, c, records =>
    match readNextRecord b c with
    | none => none
    | some (none, c) => some (records, c)
    | some (some record, c) => readAllLogsLoop b fuel c (records ++ [record])

/-- `SherlongLogger.readAllLogs`: what it returns, and what its commit leaves of the buffer. -/
def readAllLogs (b : PersistentRingBuffer) (sys : Sys) :
    Option (List Record × PersistentRingBuffer) :=
  (readAllLogsLoop b scanFuel (Cursor.new b none) []).bind fun (records, c) =>
    (c.commit b sys).map fun (_, b) => (records, b)

variable {b b' : PersistentRingBuffer} {c d : Cursor} {records found : List Record} {fuel : Nat}

/-- **The loop returns what `next` returns, up to its end or to an error.** -/
theorem reads_of_readAllLogsLoop (h : readAllLogsLoop b fuel c records = some (found, d)) :
    ∃ c' later res, found = records ++ later ∧ Cursor.Reads b c later c' ∧
      c'.next b = some (res, d) ∧ ∀ r, res ≠ .ok (some r) := by
  induction fuel generalizing c records with
  | zero => cases h
  | succ fuel ih =>
    rw [readAllLogsLoop, readNextRecord] at h
    rcases hnext : c.next b with _ | ⟨e | _ | r, c₁⟩
    · rw [hnext] at h
      cases h
    · rw [hnext] at h
      obtain ⟨rfl, rfl⟩ := Prod.mk.inj (Option.some.inj h)
      exact ⟨c, [], _, by simp, .nil c, hnext, by simp⟩
    · rw [hnext] at h
      obtain ⟨rfl, rfl⟩ := Prod.mk.inj (Option.some.inj h)
      exact ⟨c, [], _, by simp, .nil c, hnext, by simp⟩
    · rw [hnext] at h
      obtain ⟨c', later, res, rfl, hreads, hend, hres⟩ := ih h
      exact ⟨c', r :: later, res, by simp, .cons hnext hreads, hend, hres⟩

omit [Hasher] in
theorem settle_wrapCount (c : Cursor) (control : ControlBlock) (res : Option (Record × Nat)) :
    (c.settle control res).1.position.wrapCount = c.position.wrapCount := by
  rcases res with _ | ⟨r, n⟩ <;> rfl

/-- A cursor stays in its lap. -/
theorem nextLoop_wrapCount {res : Except PersistentError (Option Record)} :
    ∀ {n : Nat} {c : Cursor}, Cursor.nextLoop b n c = some (res, d) →
      d.position.wrapCount = c.position.wrapCount := by
  intro n
  induction n with
  | zero => intro c h; cases h
  | succ n ih =>
    intro c h
    rw [Cursor.nextLoop] at h
    by_cases hend : c.atEnd = true
    · rw [if_pos hend] at h
      obtain ⟨-, rfl⟩ := Prod.mk.inj (Option.some.inj h)
      rfl
    · rw [if_neg hend] at h
      rcases hread : b.readAt c.position.offset with _ | e | found
      · rw [hread] at h
        cases h
      · rw [hread] at h
        obtain ⟨-, rfl⟩ := Prod.mk.inj (Option.some.inj h)
        rfl
      · rw [hread] at h
        have hwrap := settle_wrapCount c b.control found
        rcases hsettle : c.settle b.control found with ⟨c', _ | result⟩
        · rw [hsettle] at hwrap
          simp only [hsettle] at h
          rw [ih h, hwrap]
        · rw [hsettle] at hwrap
          simp only [hsettle] at h
          obtain ⟨-, rfl⟩ := Prod.mk.inj (Option.some.inj h)
          exact hwrap

theorem reads_wrapCount (h : Cursor.Reads b c found d) :
    d.position.wrapCount = c.position.wrapCount := by
  induction h with
  | nil => rfl
  | cons hnext _ ih => rw [ih, nextLoop_wrapCount hnext]

/-- Where the read position is the write position, nothing is read, and nothing committed. -/
theorem readAllLogs_of_caughtUp (h : b.control.readPos = b.control.writePos) (sys : Sys) :
    readAllLogs b sys = some ([], b) := by
  have hend : (Cursor.new b none).atEnd = true := by
    simp [Cursor.new, h]
  have hcommits : (Cursor.new b none).commits b = false := by
    simp [Cursor.commits, Cursor.new]
  have hloop : readAllLogsLoop b scanFuel (Cursor.new b none) [] =
      some ([], Cursor.new b none) := by
    rw [scanFuel, readAllLogsLoop, readNextRecord, Cursor.next_of_atEnd hend]
    rfl
  simp only [readAllLogs, hloop, Option.bind_some, Cursor.commit, hcommits, Bool.false_eq_true,
    if_false, Option.map_some]

/-- **Reading all logs a second time.**  Over any content of the mapping, let a call return the
records of the calls of `next` before one that comes to the end, or to a record whose checksum
does not match, and leave the cursor at some offset.  If that is ahead of the read position and
not beyond the write position, the commit gives up all that the buffer holds, also what lies behind
a damaged record: neither a second call nor `read_all` returns anything.  Otherwise nothing is
committed, and a second call returns the same records again. -/
theorem readAllLogs_again {sys : Sys} (h : readAllLogs b sys = some (records, b')) :
    ∃ c d res, Cursor.Reads b (Cursor.new b none) records c ∧ c.next b = some (res, d) ∧
      (∀ r, res ≠ .ok (some r)) ∧
      if b.control.readPos < d.position.offset ∧ d.position.offset ≤ b.control.writePos then
        b'.control.readPos = b'.control.writePos ∧
          ∀ sys', readAllLogs b' sys' = some ([], b') ∧ b'.readAll sys' = some (.ok [], b')
      else b' = b ∧ ∀ sys', readAllLogs b' sys' = some (records, b') := by
  obtain ⟨⟨records, d⟩, hloop, hrest⟩ := Option.bind_eq_some_iff.mp h
  obtain ⟨⟨res', b'⟩, hcommit, heq⟩ := Option.map_eq_some_iff.mp hrest
  obtain ⟨rfl, rfl⟩ := Prod.mk.inj heq
  obtain ⟨c, later, res, rfl, hreads, hend, hres⟩ := reads_of_readAllLogsLoop hloop
  refine ⟨c, d, res, hreads, hend, hres, ?_⟩
  have hcommits : d.commits b = true ↔
      b.control.readPos < d.position.offset ∧ d.position.offset ≤ b.control.writePos := by
    have hwrap : d.position.wrapCount = b.control.wrapCount :=
      (nextLoop_wrapCount hend).trans (reads_wrapCount hreads)
    simp [Cursor.commits, hwrap]
  by_cases hc : d.commits b = true
  · rw [if_pos (hcommits.mp hc)]
    rw [Cursor.commit, if_pos hc] at hcommit
    have hcontrol := (storeControl_control hcommit).1
    have hcaught : b'.control.readPos = b'.control.writePos := by
      rw [hcontrol]
      rfl
    exact ⟨hcaught, fun sys' => ⟨readAllLogs_of_caughtUp hcaught sys', if_pos hcaught⟩⟩
  · rw [if_neg (mt hcommits.mpr hc)]
    rw [Cursor.commit, if_neg hc] at hcommit
    obtain ⟨-, rfl⟩ := Prod.mk.inj (Option.some.inj hcommit)
    refine ⟨rfl, fun sys' => ?_⟩
    simp only [readAllLogs, hloop, Option.bind_some, Cursor.commit, if_neg hc, Option.map_some]

end Ios

end

section Ieee

attribute [local instance] Hasher.ieee

/-- Three records, the second one damaged: the first call returns the first record, and the third
is never returned. -/
theorem Ios.readAllLogs_gives_up :
    let record := fun tag => Record.new [1, 2, 3] tag 0
    let b := (((Live.fresh 100 (by decide) Sys.ok).after
      (Op.writes [record 1, record 2, record 3])).buf).damaged 51 [9]
    ∃ b', readAllLogs b Sys.ok = some ([(record 1).stored], b') ∧
      b'.control.readPos = 81 ∧ ∀ sys', readAllLogs b' sys' = some ([], b') := by
  intro record b
  have hcall : (readAllLogs b Sys.ok).map (fun res => (res.1, res.2.control.readPos)) =
      some ([(record 1).stored], 81) := by decide +kernel
  obtain ⟨⟨records, b'⟩, hfirst, hres⟩ := Option.map_eq_some_iff.mp hcall
  obtain ⟨rfl, hpos⟩ := Prod.mk.inj hres
  refine ⟨b', hfirst, hpos, fun sys' => ?_⟩
  obtain ⟨c, d, res, -, -, -, hagain⟩ := readAllLogs_again hfirst
  split at hagain
  · exact (hagain.2 sys').1
  · rw [hagain.1] at hpos
    exact absurd hpos (by decide +kernel)

end Ieee

end Sherlog
