import Sherlog.Disk.Next
import Sherlog.Lib.Machine

/-!
# Does `Cursor::next` return?

`next` calls itself over every position at which `read_at` finds nothing, until the
position has reached the write position and the lap of the cursor is not behind that of
the buffer.

* `Cursor.nextLoop_of_lap` — a cursor that is not behind comes back after a bounded number
  of calls, from any offset.
* `Cursor.nextLoop_isSome_iff_of_behind` — one that is behind never sees the end: it comes
  back only by finding something.
* `Cursor.bounded_iff` — together they say exactly when a call of `next` keeps to a given
  bound; `Tour.returns_iff` says it of the cursors of any run.
-/

namespace Sherlog

open PersistentRingBuffer

section

variable [Hasher]

namespace Cursor

variable {b : PersistentRingBuffer} {c : Cursor}

/-- A call of `next` comes back after at most `n` calls of itself. -/
def ReturnsWithin (b : PersistentRingBuffer) (n : Nat) (c : Cursor) : Prop :=
  (nextLoop b (n + 1) c).isSome = true

instance (b : PersistentRingBuffer) (n : Nat) (c : Cursor) : Decidable (ReturnsWithin b n c) :=
  inferInstanceAs (Decidable (_ = true))

/-- The position a cursor has come to after `j` steps over nothing. -/
def skipped (c : Cursor) (j : Nat) : UInt64 :=
  c.position.offset + UInt64.ofNat (Header.SIZE * j)

theorem nextLoop_of_atEnd (h : c.atEnd = true) (n : Nat) :
    nextLoop b (n + 1) c = some (.ok none, c) := by
  rw [nextLoop, if_pos h]

/-- Where there is something to read, `next` comes back at once. -/
theorem nextLoop_of_found (hb : b.Sound) (hread : b.readAt c.position.offset ≠ some (.ok none))
    (n : Nat) : (nextLoop b (n + 1) c).isSome = true := by
  rw [nextLoop]
  split
  · rfl
  · rcases hdec : decodeAt b.area c.position.offset.toNat with e | _ | found
    · rw [readAt_eq hb, hdec]
      rfl
    · exact absurd (by rw [readAt_eq hb, hdec]) hread
    · rw [readAt_eq hb, hdec]
      rfl

omit [Hasher] in
theorem skipped_zero (c : Cursor) : c.skipped 0 = c.position.offset := by
  rw [skipped, Nat.mul_zero]
  exact UInt64.add_zero _

omit [Hasher] in
theorem skipped_skip (c : Cursor) (j : Nat) : (skip b c).skipped j = c.skipped (j + 1) := by
  show c.position.offset + UInt64.ofNat Header.SIZE + UInt64.ofNat (Header.SIZE * j) =
    c.position.offset + UInt64.ofNat (Header.SIZE * (j + 1))
  rw [UInt64.add_assoc, ← UInt64.ofNat_add, Nat.mul_succ, Nat.add_comm Header.SIZE]

/-- **A cursor behind the lap of the buffer comes back only when it finds something.** -/
theorem nextLoop_isSome_iff_of_behind (hb : b.Sound) {n : Nat} :
    ∀ {c : Cursor}, c.atEnd = false → c.position.wrapCount < b.control.wrapCount →
      ((nextLoop b n c).isSome = true ↔ ∃ j < n, b.readAt (c.skipped j) ≠ some (.ok none)) := by
  induction n with
  | zero => intro c _ _; simp [nextLoop]
  | succ n ih =>
    intro c hend hlap
    by_cases hread : b.readAt c.position.offset = some (.ok none)
    · have hnot : decide (b.control.wrapCount ≤ c.position.wrapCount) = false :=
        decide_eq_false (UInt64.not_le.mpr hlap)
      have hgoes : (skip b c).atEnd = false := by simp [skip, settle, hnot]
      rw [nextLoop_of_nothing hend hread, hgoes, if_neg Bool.false_ne_true, ih hgoes hlap]
      simp only [skipped_skip]
      constructor
      · rintro ⟨j, hj, hfound⟩
        exact ⟨j + 1, by omega, hfound⟩
      · rintro ⟨_ | j, hj, hfound⟩
        · rw [skipped_zero] at hfound
          exact absurd hread hfound
        · exact ⟨j, by omega, hfound⟩
    · refine ⟨fun _ => ⟨0, by omega, ?_⟩, fun _ => nextLoop_of_found hb hread n⟩
      rwa [skipped_zero]

/-- One call of a cursor that is not behind: it comes back, or it goes round once more from
below the write position. -/
theorem nextLoop_of_lap_step (hb : b.Sound) {n : Nat}
    (hlap : b.control.wrapCount ≤ c.position.wrapCount)
    (hrest : ∀ c' : Cursor, c'.position = { c.position with offset := c.skipped 1 } →
      c'.position.offset < b.control.writePos → (nextLoop b n c').isSome = true) :
    (nextLoop b (n + 1) c).isSome = true := by
  by_cases hend : c.atEnd = true
  · rw [nextLoop_of_atEnd hend]
    rfl
  by_cases hread : b.readAt c.position.offset = some (.ok none)
  · rw [nextLoop_of_nothing (by simpa using hend) hread]
    by_cases hreach : b.control.writePos ≤ c.position.offset + UInt64.ofNat Header.SIZE
    · have hdone : (skip b c).atEnd = true := by simp [skip, settle_of_lap hlap, hreach]
      rw [if_pos hdone]
      rfl
    · have hgoes : ¬ (skip b c).atEnd = true := by simp [skip, settle_of_lap hlap, hreach]
      rw [if_neg hgoes]
      exact hrest _ rfl (UInt64.not_le.mp hreach)
  · exact nextLoop_of_found hb hread n

/-- Not behind and with no offset near `2 ^ 64`, as many calls as there are headers up to the
write position are enough. -/
theorem nextLoop_of_lap (hb : b.Sound) {n : Nat} :
    ∀ {c : Cursor}, b.control.wrapCount ≤ c.position.wrapCount →
      b.control.writePos.toNat ≤ c.position.offset.toNat + Header.SIZE * n →
        c.position.offset.toNat + Header.SIZE * (n + 1) < 2 ^ 64 →
          (nextLoop b (n + 1) c).isSome = true := by
  induction n with
  | zero =>
    intro c hlap hreach hlt
    refine nextLoop_of_lap_step hb hlap ?_
    intro c' hc' hbelow
    have hoffset : c'.position.offset.toNat = c.position.offset.toNat + Header.SIZE := by
      rw [hc', skipped, UInt64.toNat_add, UInt64.toNat_ofNat']
      simp only [Header.SIZE] at hlt ⊢
      omega
    rw [UInt64.lt_iff_toNat_lt] at hbelow
    omega
  | succ n ih =>
    intro c hlap hreach hlt
    refine nextLoop_of_lap_step hb hlap ?_
    intro c' hc' _
    have hoffset : c'.position.offset.toNat = c.position.offset.toNat + Header.SIZE := by
      rw [hc', skipped, UInt64.toNat_add, UInt64.toNat_ofNat']
      simp only [Header.SIZE] at hlt ⊢
      omega
    refine ih (by rw [hc']; exact hlap) ?_ ?_
    · simp only [Header.SIZE] at hreach hoffset ⊢
      omega
    · simp only [Header.SIZE] at hlt hoffset ⊢
      omega

/-- **A cursor that is not behind comes back**, whatever its offset. -/
theorem returnsWithin_of_lap (hb : b.Sound) (hw : b.control.writePos.toNat ≤ b.size)
    (hlap : b.control.wrapCount ≤ c.position.wrapCount) :
    ReturnsWithin b (b.size / Header.SIZE + 2) c := by
  refine nextLoop_of_lap_step hb hlap ?_
  intro c' hc' hbelow
  have hlt := hb.size_lt
  rw [UInt64.lt_iff_toNat_lt] at hbelow
  simp only [ControlBlock.SIZE] at hlt
  refine nextLoop_of_lap hb (by rw [hc']; exact hlap) ?_ ?_
  · simp only [Header.SIZE]
    omega
  · simp only [Header.SIZE]
    omega

/-- **When `next` keeps to the bound.**  At the end of the data, or not behind the lap of the
buffer, it does; behind it, it does only when one of the positions it steps over has
something to read. -/
theorem bounded_iff (hb : b.Sound) (hw : b.control.writePos.toNat ≤ b.size) (c : Cursor) :
    ReturnsWithin b (b.size / Header.SIZE + 2) c ↔
      c.atEnd = true ∨ b.control.wrapCount ≤ c.position.wrapCount ∨
        ∃ j ≤ b.size / Header.SIZE + 2, b.readAt (c.skipped j) ≠ some (.ok none) := by
  by_cases hend : c.atEnd = true
  · refine ⟨fun _ => Or.inl hend, fun _ => ?_⟩
    rw [ReturnsWithin, nextLoop_of_atEnd hend]
    rfl
  by_cases hlap : b.control.wrapCount ≤ c.position.wrapCount
  · exact ⟨fun _ => Or.inr (Or.inl hlap), fun _ => returnsWithin_of_lap hb hw hlap⟩
  · rw [ReturnsWithin, nextLoop_isSome_iff_of_behind hb (by simpa using hend)
      (UInt64.not_le.mp hlap)]
    simp [hend, hlap]

end Cursor

/-! ## Runs -/

/-- What may happen between two calls of `next` of a cursor. -/
inductive Leg where
  /-- A call on the buffer, by anyone. -/
  | call (op : Op)
  /-- `Cursor::next` -/
  | next
  /-- `Cursor::read_batch` -/
  | readBatch (maxCount : Nat)
  /-- `Cursor::seek_to` -/
  | seekTo (position : Position)
deriving DecidableEq, Repr

/-- A buffer and a cursor on it. -/
structure Tour where
  /-- The buffer. -/
  live : Live
  /-- The cursor. -/
  cursor : Cursor

namespace Tour

/-- A cursor made by `Cursor::new(buffer, None)`. -/
def start (b : Live) : Tour := ⟨b, Cursor.new b.buf none⟩

/-- One leg, and what the cursor returns in it; `none` when it does not come back. -/
def step (s : Tour) : Leg → Option (Except PersistentError (List Record) × Tour)
  | .call op => some (.ok [], { s with live := s.live.step op })
  | .next =>
    (s.cursor.next s.live.buf).map fun res =>
      (res.1.map Option.toList, { s with cursor := res.2 })
  | .readBatch maxCount =>
    (s.cursor.readBatch s.live.buf maxCount).map fun res => (res.1, { s with cursor := res.2 })
  | .seekTo position => some (.ok [], { s with cursor := Cursor.seekTo s.live.buf position })

/-- A list of legs. -/
def run (s : Tour) (legs : List Leg) :
    Option (List (Except PersistentError (List Record)) × Tour) := Machine.run step s legs

theorem size_step {s s' : Tour} {leg : Leg} {res : Except PersistentError (List Record)}
    (h : s.step leg = some (res, s')) : s'.live.buf.size = s.live.buf.size := by
  cases leg with
  | call op =>
    obtain ⟨-, rfl⟩ := Prod.mk.inj (Option.some.inj h)
    exact s.live.size_step op
  | next =>
    obtain ⟨res, -, hres⟩ := Option.map_eq_some_iff.mp h
    obtain ⟨-, rfl⟩ := Prod.mk.inj hres
    rfl
  | readBatch maxCount =>
    obtain ⟨res, -, hres⟩ := Option.map_eq_some_iff.mp h
    obtain ⟨-, rfl⟩ := Prod.mk.inj hres
    rfl
  | seekTo position =>
    obtain ⟨-, rfl⟩ := Prod.mk.inj (Option.some.inj h)
    rfl

theorem size_run {s t : Tour} {legs : List Leg}
    {answers : List (Except PersistentError (List Record))}
    (h : s.run legs = some (answers, t)) : t.live.buf.size = s.live.buf.size :=
  Machine.run_preserves (I := fun u => u.live.buf.size = s.live.buf.size)
    (fun _ _ _ _ hu hstep => (size_step hstep).trans hu) rfl h

/-- **When a call of `next` comes back.**  A cursor of any run, on a buffer of any size with
any calls in between: `next` comes back after at most `size / Header::SIZE + 2` calls of
itself exactly when the cursor is at the end, or is not behind the lap of the buffer, or
there is a record or an error to read at its position or at one that many headers behind
it. -/
theorem returns_iff (size : Nat) (h : ControlBlock.SIZE + size < 2 ^ 63) (sys : Sys)
    (ops : List Op) (legs : List Leg) (answers : List (Except PersistentError (List Record)))
    (s : Tour)
    (hrun : (start ((Live.fresh size h sys).after ops)).run legs = some (answers, s)) :
    s.cursor.ReturnsWithin s.live.buf (size / Header.SIZE + 2) ↔
      s.cursor.atEnd = true ∨
        s.live.buf.control.wrapCount ≤ s.cursor.position.wrapCount ∨
          ∃ j ≤ size / Header.SIZE + 2,
            s.live.buf.readAt (s.cursor.skipped j) ≠ some (.ok none) := by
  have hsize : s.live.buf.size = size := by
    rw [size_run hrun]
    exact (Live.fresh size h sys).size_after ops
  have key := Cursor.bounded_iff s.live.represents.sound s.live.represents.writePos_le s.cursor
  rwa [hsize] at key

end Tour

end

section Ieee

attribute [local instance] Hasher.ieee

/-- Two records of 40 bytes in an area of 64, the second one written when the cursor was
there already: the cursor reads it, and then looks for the end of a lap that is over. -/
theorem Tour.next_overruns :
    let record := fun tag => Record.new (List.replicate 16 tag.toUInt8) tag 0
    let b := (Live.fresh 64 (by decide) Sys.ok).after [.write (record 1) Sys.ok]
    ∃ answers s, (start b).run [.call (.write (record 2) Sys.ok), .next] = some (answers, s) ∧
      ¬ s.cursor.ReturnsWithin s.live.buf (64 / Header.SIZE + 2) := by
  intro record b
  have hsome : ((start b).run [.call (.write (record 2) Sys.ok), .next]).isSome = true := by
    decide +kernel
  have hover : ((start b).run [.call (.write (record 2) Sys.ok), .next]).all (fun res =>
      decide (¬ res.2.cursor.ReturnsWithin res.2.live.buf (64 / Header.SIZE + 2))) = true := by
    decide +kernel
  obtain ⟨⟨answers, s⟩, hrun⟩ := Option.isSome_iff_exists.mp hsome
  rw [hrun] at hover
  exact ⟨answers, s, hrun, of_decide_eq_true hover⟩

/-- In the lap it was made in the cursor comes back. -/
theorem Tour.next_returns :
    let b := (Live.fresh 64 (by decide) Sys.ok).after
      [.write (Record.new (List.replicate 16 1) 1 0) Sys.ok]
    (Tour.start b).cursor.ReturnsWithin b.buf (64 / Header.SIZE + 2) := by
  intro b
  exact (Tour.returns_iff 64 (by decide) Sys.ok _ [] [] (Tour.start b) rfl).mpr
    (Or.inr (Or.inl (by decide +kernel)))

end Ieee

end Sherlog
