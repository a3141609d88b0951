import Sherlog.Disk.CursorReads
import Sherlog.Lib.Loop

/-!
# `Cursor::next` without its fuel

`next` calls itself over nothing, and the model cuts it off after `2 ^ 64 + 1` calls.  An
offset of 64 bits is back where it was after `2 ^ 61` steps of 24 bytes, so a call that has
not returned by then never does, and the fuel can be left out of account.

* `Cursor.skip` — a step over nothing; `Cursor.settle_of_lap` says what it comes to in the
  current lap.
* `Cursor.nextLoop_of_nothing` — over nothing, `next` steps on.
* `Cursor.next_of_nothing` — so it returns what it would return from one header further.
-/

namespace Sherlog

open PersistentRingBuffer

section

variable [Hasher]

namespace Cursor

variable {b : PersistentRingBuffer} {c : Cursor}

/-! ## A step over nothing -/

/-- The cursor one header further. -/
def skip (b : PersistentRingBuffer) (c : Cursor) : Cursor := (c.settle b.control none).1

omit [Hasher] in
theorem settle_none (b : PersistentRingBuffer) (c : Cursor) :
    c.settle b.control none = (skip b c, if (skip b c).atEnd then some none else none) := rfl

omit [Hasher] in
/-- Not behind, a step over nothing is the last one as soon as it reaches the write
position. -/
theorem settle_of_lap {control : ControlBlock} (hlap : control.wrapCount ≤ c.position.wrapCount) :
    c.settle control none =
      let offset := c.position.offset + UInt64.ofNat Header.SIZE
      let atEnd := decide (control.writePos ≤ offset)
      ({ position := { c.position with offset }, atEnd }, if atEnd then some none else none) := by
  simp only [settle, decide_eq_true hlap, Bool.and_true]

/-! ## The loop -/

/-- One call of `next`: it returns, or calls itself. -/
def round (b : PersistentRingBuffer) (c : Cursor) :
    Option (Except PersistentError (Option Record) × Cursor) ⊕ Cursor :=
  if c.atEnd then .inl (some (.ok none, c))
  else
    match b.readAt c.position.offset with
    | none => .inl none
    | some (.error e) => .inl (some (.error e, c))
    | some (.ok found) =>
      match c.settle b.control found with
      | (c', some result) => .inl (some (.ok result, c'))
      | (c', none) => .inr c'

theorem nextLoop_eq_loop (b : PersistentRingBuffer) (n : Nat) (c : Cursor) :
    nextLoop b n c = (Loop.loop (round b) n c).join := by
  induction n generalizing c with
  | zero => rfl
  | succ n ih =>
    rw [nextLoop, Loop.loop, round]
    by_cases hend : c.atEnd = true
    · rw [if_pos hend, if_pos hend]
      rfl
    · rw [if_neg hend, if_neg hend]
      rcases b.readAt c.position.offset with _ | e | found
      · rfl
      · rfl
      · rcases hsettle : c.settle b.control found with ⟨c', _ | result⟩
        · simp only [hsettle, ih]
        · simp only [hsettle, Option.join_some]

theorem round_of_nothing (h : c.atEnd = false)
    (hread : b.readAt c.position.offset = some (.ok none)) :
    round b c = if (skip b c).atEnd then .inl (some (.ok none, skip b c)) else .inr (skip b c) := by
  rw [round, if_neg (by simp [h]), hread]
  simp only [settle_none]
  cases (skip b c).atEnd <;> rfl

/-- Over nothing, `next` steps on. -/
theorem nextLoop_of_nothing (h : c.atEnd = false)
    (hread : b.readAt c.position.offset = some (.ok none)) (n : Nat) :
    nextLoop b (n + 1) c =
      if (skip b c).atEnd then some (.ok none, skip b c) else nextLoop b n (skip b c) := by
  have hround := round_of_nothing h hread
  rw [nextLoop_eq_loop, nextLoop_eq_loop]
  by_cases hend : (skip b c).atEnd = true
  · rw [if_pos hend] at hround
    rw [if_pos hend, Loop.loop_succ_inl hround, Option.join_some]
  · rw [if_neg hend] at hround
    rw [if_neg hend, Loop.loop_succ_inr hround]

theorem skip_of_round {c' : Cursor} (h : round b c = .inr c') : c' = skip b c := by
  rw [round] at h
  split at h
  · cases h
  · rcases hread : b.readAt c.position.offset with _ | e | _ | ⟨r, n⟩
    · rw [hread] at h
      cases h
    · rw [hread] at h
      cases h
    · rw [hread] at h
      simp only [settle_none] at h
      rcases hend : (skip b c).atEnd with _ | _
      · simp only [hend, Bool.false_eq_true, if_false] at h
        exact (Sum.inr.inj h).symm
      · simp only [hend, if_true] at h
        cases h
    · rw [hread] at h
      cases h

omit [Hasher] in
/-- Behind its first step a cursor that finds nothing is given by its offset. -/
theorem skip_iterate (c : Cursor) (k : Nat) :
    (skip b)^[k + 1] c = skip b { c with
      position := { c.position with
        offset := c.position.offset + UInt64.ofNat (Header.SIZE * k) } } := by
  induction k with
  | zero =>
    rw [Nat.mul_zero]
    simp [skip, settle]
  | succ k ih =>
    rw [Function.iterate_succ_apply', ih]
    simp only [skip, settle, UInt64.add_assoc, ← UInt64.ofNat_add, Nat.mul_succ]

omit [Hasher] in
/-- After `2 ^ 61` steps of 24 bytes it is back. -/
theorem skip_iterate_period (c : Cursor) : (skip b)^[1 + 2 ^ 61] c = (skip b)^[1] c := by
  have hperiod : UInt64.ofNat (Header.SIZE * 2 ^ 61) = UInt64.ofNat (Header.SIZE * 0) := by decide
  rw [Nat.add_comm 1, skip_iterate, skip_iterate c 0, hperiod]

/-- **Over nothing, `next` is `next` from one header further.** -/
theorem next_of_nothing (h : c.atEnd = false)
    (hread : b.readAt c.position.offset = some (.ok none)) : c.next b = (skip b c).next b := by
  have hround := round_of_nothing h hread
  by_cases hend : (skip b c).atEnd = true
  · rw [if_pos hend] at hround
    rw [next_of_atEnd hend, next, nextLoop_eq_loop, scanFuel, Loop.loop_succ_inl hround,
      Option.join_some]
  · rw [if_neg hend] at hround
    have hrepeats := fun n hn => Loop.loop_of_repeats (n := n) (fun _ _ => skip_of_round)
      (show 1 < 1 + 2 ^ 61 by norm_num) (skip_iterate_period (b := b) (skip b c)) hn
    rw [next, next, nextLoop_eq_loop, nextLoop_eq_loop, scanFuel, Loop.loop_succ_inr hround,
      hrepeats (2 ^ 64) (by norm_num), hrepeats (2 ^ 64 + 1) (by norm_num)]

end Cursor

end

end Sherlog
