import Sherlog.Disk.Agreement

/-!
# Calls that fail

`write`, `read_all`, `reset_read_position` and `commit` store into the mapping and the
control block first and flush last; when the flush fails they return the error and leave
the stores.

* `PersistentRingBuffer.Fails` — a call returns an error and leaves the buffer `b'`.
* `PersistentRingBuffer.Unmoved` — the positions, the wrap counter and the records in
  front of the write position are as before.
* `PersistentRingBuffer.readLoop_error_iff` — when the scan of `read_all` fails.
* `Live.failed_call_keeps_iff` — exactly when a call that fails leaves everything as it
  was: `Live.write_moves` says that an accepted write never does.
-/

namespace Sherlog

open LapLog PersistentRingBuffer Scanning Window

section

variable [Hasher]

namespace PersistentRingBuffer

/-- The call returns an error and leaves the buffer `b'`. -/
def Fails (b b' : PersistentRingBuffer) : Op → Prop
  | .write r sys => ∃ e, b.write r sys = some (.error e, b')
  | .readAll sys => ∃ e, b.readAll sys = some (.error e, b')
  | .resetReadPosition sys => ∃ e, b.resetReadPosition sys = some (.error e, b')
  | .commit c sys => ∃ e, c.commit b sys = some (.error e, b')

/-- The positions, the wrap counter and the area up to the write position are as before. -/
structure Unmoved (b b' : PersistentRingBuffer) : Prop where
  writePos_eq : b'.control.writePos = b.control.writePos
  readPos_eq : b'.control.readPos = b.control.readPos
  wrapCount_eq : b'.control.wrapCount = b.control.wrapCount
  stored_eq : window b'.area 0 b.control.writePos.toNat = window b.area 0 b.control.writePos.toNat

/-- The scan from the read position comes to a record that fails its check. -/
def MeetsError (b : PersistentRingBuffer) : Prop :=
  ∃ p, b.Reaches p ∧ p < b.control.writePos ∧ ∃ e, b.readAt p = some (.error e)

/-- The call does not flush in vain: the flush succeeds, or there is nothing to store, or
nothing to move. -/
def FlushHarmless (b : PersistentRingBuffer) : Op → Prop
  | .write r sys => sys.flush = true ∨ b.size < r.footprint
  | .readAll sys => sys.flush = true ∨ b.control.writePos ≤ b.control.readPos ∨ b.MeetsError
  | .resetReadPosition sys => sys.flush = true ∨ b.control.readPos = b.control.writePos
  | .commit c sys => sys.flush = true ∨ c.commits b = false

variable {b b' : PersistentRingBuffer} {l : Log Record}

omit [Hasher] in
theorem Unmoved.refl (b : PersistentRingBuffer) : b.Unmoved b := ⟨rfl, rfl, rfl, rfl⟩

/-- **The scan fails exactly when it comes to a record that fails its check.** -/
theorem readLoop_error_iff (hb : b.Sound) (hw : b.control.writePos.toNat ≤ b.size) :
    (∃ e, b.readLoop b.control.writePos scanFuel b.control.readPos [] = some (.error e)) ↔
      b.MeetsError := by
  obtain ⟨steps, q, hscan, hdone, hq, hloop, -⟩ := readLoop_eq hb hw b.control.readPos
  have hqp : (UInt64.ofNat q).toNat = q := by
    rw [UInt64.toNat_ofNat', Nat.mod_eq_of_lt hq]
  constructor
  · rintro ⟨e, herror⟩
    have hlt : q < b.control.writePos.toNat := by
      by_contra hge
      rw [hloop, if_neg hge] at herror
      cases herror
    obtain ⟨e', he'⟩ := hdone hlt
    have hstart : b.Reaches (UInt64.ofNat b.control.readPos.toNat) := by
      rw [UInt64.ofNat_toNat]
      exact .start
    refine ⟨UInt64.ofNat q, reaches_of_scan hb hw hscan hstart b.control.readPos.toNat_lt
      (Or.inr hlt), (ofNat_lt_iff hq).mpr hlt, e', ?_⟩
    rw [readAt_ofNat hb hq, he']
  · rintro ⟨p, hreach, hbelow, e, herror⟩
    obtain ⟨steps', hscan', -⟩ := hreach.scan hb hw
    obtain ⟨rest, -, hrest⟩ := hscan.extend hdone hscan'
    rw [readAt_eq hb, Option.some.injEq] at herror
    -- the scan cannot go on from there
    have hp : q = p.toNat := by
      cases hrest with
      | nil => rfl
      | cons _ hlook _ =>
        rw [herror] at hlook
        cases hlook
    refine ⟨.invalidRecord, ?_⟩
    rw [hloop, hp, if_pos (UInt64.lt_iff_toNat_lt.mp hbelow)]

/-- When the scan comes through, `read_all` fails as the flush does. -/
theorem readAll_fails_iff {sys : Sys} {currentPos : UInt64} {records : List Record}
    (hne : b.control.readPos ≠ b.control.writePos)
    (hloop : b.readLoop b.control.writePos scanFuel b.control.readPos [] =
      some (.ok (currentPos, records))) :
    (∃ e, b.readAll sys = some (.error e, b')) ↔
      ∃ e, b.storeControl { b.control with readPos := currentPos } sys = some (.error e, b') := by
  rw [readAll_of_readLoop hne hloop]
  rcases b.storeControl { b.control with readPos := currentPos } sys with _ | ⟨e | u, b₁⟩ <;>
    simp [Except.map]

/-- Sealing another read position fails when the flush does, and the read position is
moved all the same. -/
theorem Represents.storeControl_fails_iff (h : b.Represents l) (readPos : UInt64) (sys : Sys) :
    (∀ b', (∃ e, b.storeControl { b.control with readPos } sys = some (.error e, b')) →
      b.Unmoved b') ↔ sys.flush = true ∨ readPos = b.control.readPos := by
  obtain ⟨b', hstore, -, hcontrol, harea, -⟩ := h.storeControl_represents readPos sys
  rw [hstore, flushed]
  rcases hflush : sys.flush with _ | _
  · constructor
    · intro hkeeps
      have := (hkeeps b' ⟨.io, rfl⟩).readPos_eq
      rw [hcontrol] at this
      exact Or.inr this
    · rintro (hcontra | rfl) b'' ⟨e, he⟩
      · cases hcontra
      · obtain rfl := (Prod.mk.inj (Option.some.inj he)).2
        exact ⟨by rw [hcontrol]; rfl, by rw [hcontrol]; rfl, by rw [hcontrol]; rfl, by rw [harea]⟩
  · simp

end PersistentRingBuffer

end

namespace Live

section

variable [Hasher]

/-- **An accepted write moves the write position or starts a lap**, whatever becomes of the
flush. -/
theorem write_moves (b : Live) {r : Record} (hr : r.footprint ≤ b.buf.size) (sys : Sys) :
    (b.step (.write r sys)).buf.control.writePos ≠ b.buf.control.writePos ∨
      (b.step (.write r sys)).buf.control.wrapCount ≠ b.buf.control.wrapCount := by
  rw [control_step_write b hr]
  show (b.buf.wrapControl r).writePos + UInt64.ofNat r.footprint ≠ _ ∨
    (b.buf.wrapControl r).wrapCount ≠ _
  have hpos := r.footprint_pos
  have hlt := b.represents.size_lt
  cases hwraps : b.buf.wraps r with
  | false =>
    refine Or.inl fun heq => ?_
    rw [wrapControl, hwraps] at heq
    replace heq := congrArg UInt64.toNat heq
    simp only [Bool.false_eq_true, if_false] at heq
    rw [UInt64.toNat_add, UInt64.toNat_ofNat'] at heq
    have := b.buf.control.writePos.toNat_lt
    omega
  | true =>
    refine Or.inr fun heq => ?_
    rw [wrapControl, hwraps] at heq
    replace heq := congrArg UInt64.toNat heq
    simp only [if_true] at heq
    rw [UInt64.toNat_add] at heq
    have := b.buf.control.wrapCount.toNat_lt
    simp at heq
    omega

theorem write_unmoved_iff (b : Live) (r : Record) (sys : Sys) :
    (∀ b', b.buf.Fails b' (.write r sys) → b.buf.Unmoved b') ↔
      b.buf.FlushHarmless (.write r sys) := by
  simp only [Fails, FlushHarmless]
  by_cases hr : r.footprint ≤ b.buf.size
  · rw [b.write_eq hr sys, flushed]
    rcases hflush : sys.flush with _ | _
    · constructor
      · intro hkeeps
        have hunmoved := hkeeps _ ⟨.io, rfl⟩
        rcases b.write_moves hr sys with hne | hne
        · exact absurd hunmoved.writePos_eq hne
        · exact absurd hunmoved.wrapCount_eq hne
      · rintro (hcontra | hbig)
        · cases hcontra
        · omega
    · simp
  · rw [write_rejected (by omega)]
    refine ⟨fun _ => Or.inr (by omega), ?_⟩
    rintro - b' ⟨e, he⟩
    rw [← (Prod.mk.inj (Option.some.inj he)).2]
    exact Unmoved.refl _

theorem reset_unmoved_iff (b : Live) (sys : Sys) :
    (∀ b', b.buf.Fails b' (.resetReadPosition sys) → b.buf.Unmoved b') ↔
      b.buf.FlushHarmless (.resetReadPosition sys) := by
  simp only [Fails, FlushHarmless, resetReadPosition,
    b.represents.storeControl_fails_iff b.buf.control.writePos sys]
  exact or_congr_right eq_comm

theorem commit_unmoved_iff (b : Live) (c : Cursor) (sys : Sys) :
    (∀ b', b.buf.Fails b' (.commit c sys) → b.buf.Unmoved b') ↔
      b.buf.FlushHarmless (.commit c sys) := by
  simp only [Fails, FlushHarmless, Cursor.commit]
  rcases hc : c.commits b.buf with _ | _
  · simp
  · -- what commits is ahead of the read position, so the write position is too
    have hne : b.buf.control.writePos ≠ b.buf.control.readPos := by
      intro heq
      simp only [Cursor.commits, Bool.and_eq_true, decide_eq_true_eq, heq] at hc
      rw [UInt64.lt_iff_toNat_lt, UInt64.le_iff_toNat_le] at hc
      omega
    simp only [if_true, resetReadPosition,
      b.represents.storeControl_fails_iff b.buf.control.writePos sys, hne, or_false,
      Bool.true_eq_false]

theorem readAll_unmoved_iff (b : Live) (sys : Sys) :
    (∀ b', b.buf.Fails b' (.readAll sys) → b.buf.Unmoved b') ↔
      b.buf.FlushHarmless (.readAll sys) := by
  have hsound := b.represents.sound
  have hmeets := readLoop_error_iff hsound b.represents.writePos_le
  obtain ⟨steps, q, hscan, -, hq, hloop, -⟩ :=
    readLoop_eq hsound b.represents.writePos_le b.buf.control.readPos
  have hqp : (UInt64.ofNat q).toNat = q := by
    rw [UInt64.toNat_ofNat', Nat.mod_eq_of_lt hq]
  simp only [Fails, FlushHarmless, ← hmeets, UInt64.le_iff_toNat_le]
  by_cases heq : b.buf.control.readPos = b.buf.control.writePos
  · simp [readAll, heq]
  by_cases hlt : q < b.buf.control.writePos.toNat
  · rw [if_pos hlt] at hloop
    rw [readAll, if_neg heq, hloop]
    refine ⟨fun _ => Or.inr (Or.inr ⟨_, rfl⟩), ?_⟩
    rintro - b' ⟨e, he⟩
    rw [← (Prod.mk.inj (Option.some.inj he)).2]
    exact Unmoved.refl _
  · rw [if_neg hlt] at hloop
    have hstore := b.represents.storeControl_fails_iff (UInt64.ofNat q) sys
    -- the scan has moved the read position unless it was not below the write position
    have hstay : UInt64.ofNat q = b.buf.control.readPos ↔
        b.buf.control.writePos.toNat ≤ b.buf.control.readPos.toNat := by
      rw [← UInt64.toNat_inj, hqp]
      exact ⟨fun h => by omega, fun h => (hscan.eq_of_stop_le h).2⟩
    simp only [readAll_fails_iff heq hloop, hstore, hstay]
    simp [hloop]

/-- **A call that fails leaves the buffer as it was exactly when its flush is harmless**: for
every run and every call. -/
theorem failed_call_keeps_iff (size : Nat) (h : ControlBlock.SIZE + size < 2 ^ 63) (sys : Sys)
    (ops : List Op) (op : Op) :
    let b := ((fresh size h sys).after ops).buf
    (∀ b', b.Fails b' op → b.Unmoved b') ↔ b.FlushHarmless op := by
  intro b
  cases op with
  | write r sys => exact write_unmoved_iff _ r sys
  | readAll sys => exact readAll_unmoved_iff _ sys
  | resetReadPosition sys => exact reset_unmoved_iff _ sys
  | commit c sys => exact commit_unmoved_iff _ c sys

end

section Ieee

attribute [local instance] Hasher.ieee

/-- A record too large for the buffer is refused before anything is stored. -/
theorem failed_call_keeps_of_large :
    let b := (fresh 100 (by decide) Sys.ok).buf
    let large := Op.write (Record.new (List.replicate 80 7) 7 0) ⟨false, 0⟩
    b.Fails b large ∧ b.Unmoved b := by
  intro b large
  have hlarge : b.size < (Record.new (List.replicate 80 7) 7 0).footprint := by
    decide +kernel
  have hfails : b.Fails b large := ⟨.invalidRecord, write_rejected hlarge _⟩
  exact ⟨hfails, (failed_call_keeps_iff 100 (by decide) Sys.ok [] large).mpr (Or.inr hlarge) b
    hfails⟩

/-- A write whose flush fails leaves its record behind, so that a second attempt stores it
twice; a `read_all` whose flush fails has consumed the record that it does not return. -/
theorem failed_calls_move :
    let record := Record.new [1, 2, 3] 7 0
    let before := PersistentRingBuffer.fresh 100 Sys.ok
    let after := ((fresh 100 (by decide) Sys.ok).after (Op.writes [record])).buf
    (before.control.writePos = 0 ∧ (before.write record ⟨false, 0⟩).map
        (fun p => (p.1, p.2.control.writePos)) = some (.error .io, 27)) ∧
      after.control.readPos = 0 ∧ (after.readAll ⟨false, 0⟩).map
        (fun p => (p.1, p.2.control.readPos)) = some (.error .io, 27) := by
  decide +kernel

end Ieee

end Live

end Sherlog
