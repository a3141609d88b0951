import Sherlog.Disk.Damage
import Sherlog.Disk.Next

/-!
# Reading in batches

`read_batch` calls `next` up to so many times and stops at the first call that returns no
record.  Its laws come from those of `next`, taken without its fuel.

* `Cursor.atEnd_of_next_none`, `Cursor.next_of_next_error` — what ends a batch ends the
  next one in the same way.
* `Cursor.readBatch_add` — so a batch may be split anywhere.
* `Cursor.readBatchLoop_error_iff` — where a failing batch leaves the cursor: on the
  record that failed, behind all those it took and does not return.
* `Cursor.readBatch_keeps_iff` — exactly when a failing batch leaves it where it was.
-/

namespace Sherlog

open PersistentRingBuffer

section

variable [Hasher]

namespace Cursor

variable {b : PersistentRingBuffer} {c c' d : Cursor}

/-! ## Where `next` ends -/

/-- From a cursor, record by record and one header further where there is none, over `n`
records to another. -/
inductive Comes (b : PersistentRingBuffer) : Cursor → Nat → Cursor → Prop
  | here {c : Cursor} : Comes b c 0 c
  | record {c d : Cursor} {r : Record} {k n : Nat} : c.atEnd = false →
      b.readAt c.position.offset = some (.ok (some (r, k))) →
        Comes b (c.settle b.control (some (r, k))).1 n d → Comes b c (n + 1) d
  | nothing {c d : Cursor} {n : Nat} : c.atEnd = false →
      b.readAt c.position.offset = some (.ok none) → Comes b (skip b c) n d → Comes b c n d

theorem Comes.trans {e : Cursor} {m n : Nat} (h : Comes b c m d)
    (h' : Comes b d n e) : Comes b c (m + n) e := by
  induction h with
  | here => rwa [Nat.zero_add]
  | record hend hread _ ih =>
    rw [Nat.add_right_comm]
    exact .record hend hread (ih h')
  | nothing hend hread _ ih => exact .nothing hend hread (ih h')

/-- What a call of `next` finds where it returns. -/
inductive Ends (b : PersistentRingBuffer) (d : Cursor) :
    Except PersistentError (Option Record) → Cursor → Prop
  | atEnd : d.atEnd = true → Ends b d (.ok none) d
  | error {e : PersistentError} : d.atEnd = false →
      b.readAt d.position.offset = some (.error e) → Ends b d (.error e) d
  | record {r : Record} {k : Nat} : d.atEnd = false →
      b.readAt d.position.offset = some (.ok (some (r, k))) →
        Ends b d (.ok (some r)) (d.settle b.control (some (r, k))).1

/-- **What a call of `next` does**: it comes to a place without passing a record, and
returns what it finds there. -/
theorem nextLoop_cases {n : Nat} {res : Except PersistentError (Option Record)} :
    ∀ {c : Cursor}, nextLoop b n c = some (res, c') → ∃ d, Comes b c 0 d ∧ Ends b d res c' := by
  induction n with
  | zero => intro c h; cases h
  | succ n ih =>
    intro c h
    rw [nextLoop] at h
    by_cases hend : c.atEnd = true
    · rw [if_pos hend] at h
      cases h
      exact ⟨_, .here, .atEnd hend⟩
    · rw [if_neg hend] at h
      replace hend : c.atEnd = false := by simpa using hend
      rcases hread : b.readAt c.position.offset with _ | e | _ | ⟨r, k⟩
      · rw [hread] at h
        cases h
      · rw [hread] at h
        cases h
        exact ⟨_, .here, .error hend hread⟩
      · rw [hread] at h
        simp only [settle_none] at h
        rcases hskip : (skip b c).atEnd with _ | _
        · simp only [hskip, Bool.false_eq_true, if_false] at h
          obtain ⟨d, hcomes, hends⟩ := ih h
          exact ⟨d, .nothing hend hread hcomes, hends⟩
        · simp only [hskip, if_true] at h
          cases h
          exact ⟨skip b c, .nothing hend hread .here, .atEnd hskip⟩
      · rw [hread] at h
        cases h
        exact ⟨_, .here, .record hend hread⟩

/-- A call of `next` that ends without a record leaves the cursor at the end. -/
theorem atEnd_of_next_none (h : c.next b = some (.ok none, c')) : c'.atEnd = true := by
  obtain ⟨d, -, hends⟩ := nextLoop_cases h
  cases hends with
  | atEnd hend => exact hend

/-- A call of `next` that fails will fail again, and the cursor stays. -/
theorem next_of_next_error {e : PersistentError} (h : c.next b = some (.error e, c')) :
    c'.next b = some (.error e, c') := by
  obtain ⟨d, -, hends⟩ := nextLoop_cases h
  cases hends with
  | error hend hread => exact next_of_error hend hread

/-! ## Batches -/

/-- The result of two batches one after the other. -/
def concat (first second : Except PersistentError (List Record)) :
    Except PersistentError (List Record) :=
  first.bind fun records => second.map (records ++ ·)

omit [Hasher] in
theorem capacityOverflow_mono {m n : Nat} (hle : m ≤ n) (h : capacityOverflow n = false) :
    capacityOverflow m = false := by
  simp only [capacityOverflow, decide_eq_false_iff_not, not_lt] at *
  exact (Nat.mul_le_mul_right _ hle).trans h

theorem readBatch_eq_loop {n : Nat} (h : capacityOverflow n = false) :
    c.readBatch b n = readBatchLoop b n c [] := by
  rw [readBatch, h]
  rfl

theorem readBatchLoop_append (n : Nat) (c : Cursor) (records : List Record) :
    readBatchLoop b n c records =
      (readBatchLoop b n c []).map fun p => (p.1.map (records ++ ·), p.2) := by
  induction n generalizing c records with
  | zero => simp [readBatchLoop, Except.map]
  | succ n ih =>
    rw [readBatchLoop, readBatchLoop]
    rcases c.next b with _ | ⟨e | _ | r, c'⟩
    · rfl
    · rfl
    · simp [Except.map]
    · simp only [List.nil_append]
      rw [ih, ih c' [r]]
      rcases readBatchLoop b n c' [] with _ | ⟨e | found, d⟩ <;> simp [Except.map]

theorem readBatchLoop_of_next_none (h : c.next b = some (.ok none, c')) (n : Nat) :
    readBatchLoop b (n + 1) c [] = some (.ok [], c') := by
  rw [readBatchLoop, h]

theorem readBatchLoop_of_next_error {e : PersistentError} (h : c.next b = some (.error e, c'))
    (n : Nat) : readBatchLoop b (n + 1) c [] = some (.error e, c') := by
  rw [readBatchLoop, h]

theorem readBatchLoop_of_next_record {r : Record} (h : c.next b = some (.ok (some r), c'))
    (n : Nat) : readBatchLoop b (n + 1) c [] =
      (readBatchLoop b n c' []).map fun p => (p.1.map ([r] ++ ·), p.2) := by
  rw [readBatchLoop, h]
  exact readBatchLoop_append n c' [r]

/-- The loop may be split anywhere. -/
theorem readBatchLoop_add (m n : Nat) (c : Cursor) :
    readBatchLoop b (m + n) c [] = (readBatchLoop b m c []).bind fun p =>
      (readBatchLoop b n p.2 []).map fun q => (concat p.1 q.1, q.2) := by
  induction m generalizing c with
  | zero =>
    rw [Nat.zero_add, readBatchLoop, Option.bind_some]
    rcases readBatchLoop b n c [] with _ | ⟨e | found, d⟩ <;> rfl
  | succ m ih =>
    rw [Nat.add_right_comm]
    rcases hnext : c.next b with _ | ⟨e | _ | r, c'⟩
    · rw [readBatchLoop, readBatchLoop, hnext]
      rfl
    · rw [readBatchLoop_of_next_error hnext, readBatchLoop_of_next_error hnext, Option.bind_some]
      cases n with
      | zero => rfl
      | succ n =>
        rw [readBatchLoop_of_next_error (next_of_next_error hnext)]
        rfl
    · rw [readBatchLoop_of_next_none hnext, readBatchLoop_of_next_none hnext, Option.bind_some]
      cases n with
      | zero => rfl
      | succ n =>
        rw [readBatchLoop_of_next_none (next_of_atEnd (atEnd_of_next_none hnext))]
        rfl
    · rw [readBatchLoop_of_next_record hnext, readBatchLoop_of_next_record hnext, ih]
      rcases readBatchLoop b m c' [] with _ | ⟨first, d⟩
      · rfl
      · simp only [Option.bind_some, Option.map_some]
        rcases readBatchLoop b n d [] with _ | ⟨second, e⟩
        · rfl
        · cases first <;> cases second <;> simp [concat, Except.bind, Except.map]

/-- **Batches compose**, for any content of the mapping, any cursor and any two counts with a
vector for both together: a batch of `m + n` does what one of `m` and then one of `n` do.  It does
not return exactly when one of the two does not, it fails exactly when one of the two fails, and
otherwise returns their records one after the other; the cursor is left in the same place. -/
theorem readBatch_add (c : Cursor) (b : PersistentRingBuffer) (m n : Nat)
    (h : capacityOverflow (m + n) = false) :
    c.readBatch b (m + n) = (c.readBatch b m).bind fun p =>
      (p.2.readBatch b n).map fun q => (concat p.1 q.1, q.2) := by
  have hm : ∀ d : Cursor, d.readBatch b m = readBatchLoop b m d [] :=
    fun _ => readBatch_eq_loop (capacityOverflow_mono (Nat.le_add_right m n) h)
  have hn : ∀ d : Cursor, d.readBatch b n = readBatchLoop b n d [] :=
    fun _ => readBatch_eq_loop (capacityOverflow_mono (Nat.le_add_left n m) h)
  rw [readBatch_eq_loop h, hm, readBatchLoop_add]
  simp only [hn]

/-! ## Failing batches -/

/-- From a place `next` comes to without passing a record, it does the same. -/
theorem Comes.next_eq (h : Comes b c 0 d) : c.next b = d.next b := by
  generalize hn : 0 = n at h
  induction h with
  | here => rfl
  | record => cases hn
  | nothing hend hread _ ih => rw [next_of_nothing hend hread, ih hn]

/-- **Where a failing batch leaves the cursor**: at a record that fails its check, fewer
than so many records further on. -/
theorem readBatchLoop_error_iff {m : Nat} {e : PersistentError} :
    readBatchLoop b m c [] = some (.error e, d) ↔
      ∃ n < m, Comes b c n d ∧ d.atEnd = false ∧
        b.readAt d.position.offset = some (.error e) := by
  constructor
  · intro h
    induction m generalizing c with
    | zero => cases h
    | succ m ih =>
      rcases hnext : c.next b with _ | ⟨e' | _ | r, c'⟩
      · rw [readBatchLoop, hnext] at h
        cases h
      · rw [readBatchLoop_of_next_error hnext] at h
        cases h
        obtain ⟨_, hcomes, hends⟩ := nextLoop_cases hnext
        cases hends with
        | error hend hread => exact ⟨0, m.succ_pos, hcomes, hend, hread⟩
      · rw [readBatchLoop_of_next_none hnext] at h
        cases h
      · rw [readBatchLoop_of_next_record hnext] at h
        obtain ⟨⟨_ | found, d'⟩, hrest, heq⟩ := Option.map_eq_some_iff.mp h
        · cases heq
          obtain ⟨n, hn, hcomes', hend, hread⟩ := ih hrest
          obtain ⟨_, hcomes, hends⟩ := nextLoop_cases hnext
          cases hends with
          | record hend₀ hread₀ =>
            refine ⟨n + 1, Nat.succ_lt_succ hn, ?_, hend, hread⟩
            simpa using hcomes.trans (.record hend₀ hread₀ hcomes')
        · cases heq
  · rintro ⟨n, hn, hcomes, hend, hread⟩
    induction hcomes generalizing m with
    | here =>
      obtain ⟨m, rfl⟩ := Nat.exists_eq_succ_of_ne_zero (Nat.ne_zero_of_lt hn)
      exact readBatchLoop_of_next_error (next_of_error hend hread) m
    | record hend₀ hread₀ _ ih =>
      obtain ⟨m, rfl⟩ := Nat.exists_eq_succ_of_ne_zero (Nat.ne_zero_of_lt hn)
      rw [readBatchLoop_of_next_record (next_of_record hend₀ hread₀),
        ih (Nat.lt_of_succ_lt_succ hn) hend hread, Option.map_some]
      rfl
    | nothing hend₀ hread₀ _ ih =>
      obtain ⟨m, rfl⟩ := Nat.exists_eq_succ_of_ne_zero (Nat.ne_zero_of_lt hn)
      have hrest := ih hn hend hread
      rw [readBatchLoop] at hrest ⊢
      rw [next_of_nothing hend₀ hread₀]
      exact hrest

/-- **A failing batch leaves the cursor where it was exactly when it meets no record that
fails its check behind its own first position**: for every content of the mapping, every
cursor and every count.  A batch for which there is no vector panics and does not fail. -/
theorem readBatch_keeps_iff (b : PersistentRingBuffer) (c : Cursor) (m : Nat) :
    (∀ e c', c.readBatch b m = some (.error e, c') → c' = c) ↔
      capacityOverflow m = true ∨ ∀ n < m, ∀ d, Comes b c n d → d.atEnd = false →
        ∀ e, b.readAt d.position.offset = some (.error e) → d = c := by
  cases hcount : capacityOverflow m with
  | true => simp [readBatch, hcount]
  | false =>
    rw [readBatch_eq_loop hcount, or_iff_right Bool.false_ne_true]
    constructor
    · intro h n hn d hcomes hend e hread
      exact h e d (readBatchLoop_error_iff.mpr ⟨n, hn, hcomes, hend, hread⟩)
    · intro h e c' hbatch
      obtain ⟨n, hn, hcomes, hend, hread⟩ := readBatchLoop_error_iff.mp hbatch
      exact h n hn c' hcomes hend e hread

end Cursor

end

section Ieee

attribute [local instance] Hasher.ieee

namespace Cursor

/-- Two records in batches of one and of two, the second of which comes to the end. -/
theorem readBatch_add_of_two :
    let record := fun tag => Record.new [1, 2, 3] tag 0
    let b := ((Live.fresh 100 (by decide) Sys.ok).after (Op.writes [record 1, record 2])).buf
    let c := Cursor.mk ⟨0, 0⟩ false
    c.readBatch b 1 = some (.ok [(record 1).stored], Cursor.mk ⟨27, 0⟩ false) ∧
      (Cursor.mk ⟨27, 0⟩ false).readBatch b 2 =
        some (.ok [(record 2).stored], Cursor.mk ⟨54, 0⟩ true) ∧
      c.readBatch b (1 + 2) =
        some (.ok [(record 1).stored, (record 2).stored], Cursor.mk ⟨54, 0⟩ true) := by
  intro record b c
  have hfirst : c.readBatch b 1 = some (.ok [(record 1).stored], Cursor.mk ⟨27, 0⟩ false) := by
    decide +kernel
  have hsecond : (Cursor.mk ⟨27, 0⟩ false).readBatch b 2 =
      some (.ok [(record 2).stored], Cursor.mk ⟨54, 0⟩ true) := by decide +kernel
  have hboth := readBatch_add c b 1 2 (by decide)
  rw [hfirst, Option.bind_some, hsecond] at hboth
  exact ⟨hfirst, hsecond, hboth⟩

/-- Two records, a byte of the second one damaged: a batch of two fails, the first record
is not returned, and the cursor stands behind it. -/
theorem readBatch_drops_first :
    let record := Record.new [1, 2, 3] 7 0
    let b := (((Live.fresh 100 (by decide) Sys.ok).after
      (Op.writes [record, record])).buf).damaged 51 [9]
    let c := Cursor.mk ⟨0, 0⟩ false
    b.readAt 0 = some (.ok (some (record.stored, 27))) ∧
      c.readBatch b 2 = some (.error .invalidRecord, Cursor.mk ⟨27, 0⟩ false) := by
  decide +kernel

end Cursor

end Ieee

end Sherlog
