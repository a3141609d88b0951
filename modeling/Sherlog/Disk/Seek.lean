import Sherlog.Disk.Run

/-!
# Seeking

`seek_to` takes any position there is and puts the cursor into the current lap.

* `Position.key` — the order of positions: laps first, then offsets.
* `Position.clamp` — a position brought between the front and the end of the lap; that it
  is monotone and does nothing twice (`Position.clamp_mono`, `Position.clamp_clamp`) is
  a matter of the order alone.
* `Live.writePos_ne_zero` — a buffer in its second lap or later is never at its front,
  because a lap starts with the record that found no room in the one before.
* `Live.seekTo_clamps` — so `seek_to` is the clamp, and `at_end` tells whether it came
  out at the end.
-/

namespace Sherlog

/-! ## The order of positions -/

namespace Position

/-- Laps first, then offsets. -/
def key (p : Position) : ℕ ×ₗ ℕ := toLex (p.wrapCount.toNat, p.offset.toNat)

theorem key_injective : Function.Injective key := by
  intro p q h
  have h' : (p.wrapCount.toNat, p.offset.toNat) = (q.wrapCount.toNat, q.offset.toNat) := h
  obtain ⟨hwrap, hoffset⟩ := Prod.mk.inj h'
  cases p
  cases q
  exact congrArg₂ Position.mk (UInt64.toNat_inj.mp hoffset) (UInt64.toNat_inj.mp hwrap)

instance : LinearOrder Position := LinearOrder.lift' key key_injective

theorem le_iff {p q : Position} :
    p ≤ q ↔ p.wrapCount < q.wrapCount ∨ p.wrapCount = q.wrapCount ∧ p.offset ≤ q.offset := by
  rw [UInt64.lt_iff_toNat_lt, ← UInt64.toNat_inj, UInt64.le_iff_toNat_le]
  exact Prod.Lex.toLex_le_toLex

theorem lt_iff {p q : Position} :
    p < q ↔ p.wrapCount < q.wrapCount ∨ p.wrapCount = q.wrapCount ∧ p.offset < q.offset := by
  rw [UInt64.lt_iff_toNat_lt, ← UInt64.toNat_inj, UInt64.lt_iff_toNat_lt]
  exact Prod.Lex.toLex_lt_toLex

/-- The position brought between two others. -/
def clamp (lo hi p : Position) : Position := max lo (min p hi)

theorem clamp_mono (lo hi : Position) : Monotone (clamp lo hi) :=
  fun _ _ h => max_le_max_left lo (min_le_min_right hi h)

theorem clamp_of_le {lo hi p : Position} (hlo : lo ≤ p) (hhi : p ≤ hi) : clamp lo hi p = p := by
  rw [clamp, min_eq_left hhi, max_eq_right hlo]

theorem clamp_of_le_lo {lo hi p : Position} (h : lo ≤ hi) (hp : p ≤ lo) : clamp lo hi p = lo := by
  rw [clamp, min_eq_left (hp.trans h), max_eq_left hp]

theorem clamp_of_hi_le {lo hi p : Position} (h : lo ≤ hi) (hp : hi ≤ p) : clamp lo hi p = hi := by
  rw [clamp, min_eq_right hp, max_eq_right h]

theorem clamp_clamp {lo hi : Position} (h : lo ≤ hi) (p : Position) :
    clamp lo hi (clamp lo hi p) = clamp lo hi p :=
  clamp_of_le (le_max_left ..) (max_le h (min_le_right ..))

end Position

/-! ## The current lap -/

/-- Where the current lap starts. -/
def PersistentRingBuffer.lapFront (b : PersistentRingBuffer) : Position :=
  ⟨0, b.control.wrapCount⟩

/-- Where the current lap ends. -/
def PersistentRingBuffer.lapEnd (b : PersistentRingBuffer) : Position :=
  ⟨b.control.writePos, b.control.wrapCount⟩

theorem PersistentRingBuffer.lapFront_le_lapEnd (b : PersistentRingBuffer) :
    b.lapFront ≤ b.lapEnd :=
  Position.le_iff.mpr (Or.inr ⟨rfl, UInt64.le_iff_toNat_le.mpr (Nat.zero_le _)⟩)

/-- **The three branches of `seek_to` clamp.**  The one for older laps takes it that the
end of the lap is not its front. -/
theorem Cursor.seekTo_eq (b : PersistentRingBuffer)
    (hend : b.control.wrapCount ≠ 0 → b.control.writePos ≠ 0) (p : Position) :
    Cursor.seekTo b p =
      { position := Position.clamp b.lapFront b.lapEnd p,
        atEnd := decide (Position.clamp b.lapFront b.lapEnd p = b.lapEnd) } := by
  have hcond : (b.control.wrapCount < p.wrapCount ∨
      p.wrapCount = b.control.wrapCount ∧ b.control.writePos < p.offset) ↔ b.lapEnd < p := by
    rw [Position.lt_iff, eq_comm]
    rfl
  unfold Cursor.seekTo
  simp only [hcond]
  by_cases hfuture : b.lapEnd < p
  · rw [Position.clamp_of_hi_le b.lapFront_le_lapEnd hfuture.le, decide_eq_true rfl,
      if_pos hfuture]
    rfl
  · rw [if_neg hfuture]
    by_cases hpast : p.wrapCount < b.control.wrapCount
    · -- there is an older lap, so this one is not empty
      have hne : b.lapFront ≠ b.lapEnd := by
        intro heq
        refine hend ?_ (congrArg Position.offset heq).symm
        rintro hzero
        rw [hzero] at hpast
        exact absurd hpast (by simp)
      have hle : p ≤ b.lapFront := Position.le_iff.mpr (Or.inl hpast)
      rw [if_pos hpast, Position.clamp_of_le_lo b.lapFront_le_lapEnd hle, decide_eq_false hne]
      rfl
    · -- neither a later lap nor an older one
      have hlap : p.wrapCount = b.control.wrapCount := by
        have hno : ¬ b.control.wrapCount < p.wrapCount := fun h => hfuture (hcond.mp (Or.inl h))
        rw [UInt64.lt_iff_toNat_lt] at hno hpast
        exact UInt64.toNat_inj.mp (by omega)
      have hlo : b.lapFront ≤ p :=
        Position.le_iff.mpr (Or.inr ⟨hlap.symm, UInt64.le_iff_toNat_le.mpr (Nat.zero_le _)⟩)
      rw [if_neg hpast, Position.clamp_of_le hlo (le_of_not_gt hfuture)]
      congr 1
      rw [Bool.eq_iff_iff, beq_iff_eq, decide_eq_true_iff]
      constructor
      · intro h
        exact congrArg₂ Position.mk h hlap
      · exact congrArg Position.offset

/-! ## Reachable buffers -/

namespace Live

section

variable [Hasher]

/-- **After the first lap the write position is never zero.** -/
theorem writePos_ne_zero (b : Live) (h : b.buf.control.wrapCount ≠ 0) :
    b.buf.control.writePos ≠ 0 := by
  have hpast : b.log.past ≠ [] := by
    intro hnil
    rw [b.represents.wrapCount_eq, hnil] at h
    exact h rfl
  have hpos : LapLog.extent Record.diskImage [] <
      LapLog.extent Record.diskImage ([] ++ b.log.lap) :=
    PersistentRingBuffer.extent_lt_of_ne_nil (b.represents.lap_ne_nil hpast)
  rw [List.nil_append, ← b.writePos_eq_extent] at hpos
  intro hzero
  rw [writePos, hzero] at hpos
  exact absurd hpos (by simp)

/-- **`seek_to` clamps into the current lap**, for every run and every position: the new
position is the one asked for, brought between the front and the end of the lap, and the
flag says whether it is the end.  So seeking is monotone, and seeking again to where one
is changes nothing. -/
theorem seekTo_clamps (size : Nat) (h : ControlBlock.SIZE + size < 2 ^ 63) (sys : Sys)
    (ops : List Op) :
    let b := ((fresh size h sys).after ops).buf
    (∀ p, (Cursor.seekTo b p).position = Position.clamp b.lapFront b.lapEnd p ∧
      ((Cursor.seekTo b p).atEnd = true ↔ (Cursor.seekTo b p).position = b.lapEnd)) ∧
      (Monotone fun p => (Cursor.seekTo b p).position) ∧
        ∀ p, Cursor.seekTo b (Cursor.seekTo b p).position = Cursor.seekTo b p := by
  intro b
  have hseek := Cursor.seekTo_eq b ((fresh size h sys).after ops).writePos_ne_zero
  refine ⟨fun p => ?_, ?_, fun p => ?_⟩
  · rw [hseek p]
    exact ⟨rfl, decide_eq_true_iff⟩
  · simp only [hseek]
    exact Position.clamp_mono _ _
  · rw [hseek, hseek p]
    simp only [Position.clamp_clamp b.lapFront_le_lapEnd]

end

section Ieee

attribute [local instance] Hasher.ieee

/-- The second record has started a lap; a position of the lap before it goes to the
front. -/
theorem seekTo_clamps_of_two :
    let record := Record.new (List.replicate 16 7) 7 0
    (Cursor.seekTo ((fresh 50 (by decide) Sys.ok).after (Op.writes [record, record])).buf
      ⟨24, 0⟩).position = ⟨0, 1⟩ := by
  intro record
  have hclamp := ((seekTo_clamps 50 (by decide) Sys.ok (Op.writes [record, record])).1 ⟨24, 0⟩).1
  refine hclamp.trans ?_
  decide +kernel

end Ieee

end Live

end Sherlog
