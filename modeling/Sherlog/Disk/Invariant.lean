import Sherlog.Disk.Sums

/-!
# The representation invariant of the persistent buffer

What holds of a persistent buffer between any two calls, and what each call may do to it.

* `PersistentRingBuffer.WellFormed` — the shape of the mapping and the bounds of the
  positions.
* `Before` — the order of the laps: `write` goes up in it, until the `u64` that counts the
  laps is used up.
* `Stores` — an accepted write puts its record into one range of the area and leaves the
  rest alone; `Live.lapPlaces` are the ranges of the current lap.
* `Live.invariant` — all of it, for every run, with the sums of `Sherlog.Disk.Sums` that never
  leave a machine word.
-/

namespace Sherlog

open Window LapLog PersistentRingBuffer

section

variable [Hasher]

namespace PersistentRingBuffer

/-- The shape of a buffer between two calls. -/
structure WellFormed (b : PersistentRingBuffer) : Prop where
  length_mmap : b.mmap.length = ControlBlock.SIZE + b.size
  control_stored : ∃ pad, b.mmap.take ControlBlock.SIZE = b.control.toBytes pad
  bufferSize_eq : b.control.bufferSize.toNat = b.size
  writePos_le : b.control.writePos.toNat ≤ b.size
  header_le_writePos : 0 < b.control.wrapCount → Header.SIZE ≤ b.control.writePos.toNat

/-- The place of the second control block in the laps is behind that of the first. -/
def Before (c c' : ControlBlock) : Prop :=
  c.wrapCount < c'.wrapCount ∨ c.wrapCount = c'.wrapCount ∧ c.writePos < c'.writePos

/-- The position at which `write` puts the header of a record. -/
def place (b : PersistentRingBuffer) (r : Record) : Nat := (b.wrapControl r).writePos.toNat

/-- From the first buffer to the second a record has been stored in its range, and nothing
else of the area has changed. -/
structure Stores (b b' : PersistentRingBuffer) (r : Record) : Prop where
  fits : b.place r + r.footprint ≤ b.size
  stored : window b'.area (b.place r) r.footprint = r.diskImage
  kept : ∀ p n, p + n ≤ b.place r ∨ b.place r + r.footprint ≤ p →
    window b'.area p n = window b.area p n
  writePos_eq : b'.control.writePos.toNat = b.place r + r.footprint

variable {b b' : PersistentRingBuffer} {l : Log Record}

/-! ## In one state -/

theorem Represents.wellFormed (h : b.Represents l) : b.WellFormed where
  length_mmap := h.sound.length_mmap
  control_stored := by
    obtain ⟨pad, hmmap⟩ := h.mmap_eq_area
    exact ⟨pad, by rw [hmmap, List.take_left' (ControlBlock.length_toBytes _ _)]⟩
  bufferSize_eq := by
    have hlt := h.size_lt
    rw [h.bufferSize_eq, UInt64.toNat_ofNat', Nat.mod_eq_of_lt (by omega)]
  writePos_le := h.writePos_le
  header_le_writePos := by
    intro hwrapped
    have hpast : l.past ≠ [] := by
      intro hnil
      rw [h.wrapCount_eq, hnil] at hwrapped
      exact absurd hwrapped (by decide)
    obtain ⟨r, rest, hlap⟩ := List.exists_cons_of_ne_nil (h.lap_ne_nil hpast)
    rw [h.writePos_eq, hlap, extent_cons, Record.length_diskImage, Record.footprint]
    omega

end PersistentRingBuffer

namespace Live

/-! ## One write -/

theorem place_eq (b : Live) {r : Record} (hr : r.footprint ≤ b.buf.size) :
    b.buf.place r = b.log.pushPos Record.diskImage b.buf.size r :=
  b.represents.wrapControl_writePos hr

/-- An accepted write overwrites one range of the area. -/
theorem area_step_write (b : Live) {r : Record} (hr : r.footprint ≤ b.buf.size) (sys : Sys) :
    (b.step (.write r sys)).buf.area = overwrite b.buf.area (b.buf.place r) r.diskImage := by
  rw [(b.step (.write r sys)).represents.area_eq, b.log_step_write hr, size_step,
    b.represents.cells_push_eq, b.place_eq hr]

theorem stores_write (b : Live) {r : Record} (hr : r.footprint ≤ b.buf.size) (sys : Sys) :
    b.buf.Stores (b.step (.write r sys)).buf r := by
  have hfits : b.buf.place r + r.footprint ≤ b.buf.size := by
    rw [b.place_eq hr]
    exact b.represents.pushPos_add_le hr
  have hroom : b.buf.place r + r.diskImage.length ≤ b.buf.area.length := by
    rwa [b.represents.sound.length_area, Record.length_diskImage]
  exact
    { fits := hfits
      stored := by
        rw [b.area_step_write hr, ← Record.length_diskImage, window_overwrite_self hroom]
      kept := by
        intro p n hapart
        rw [b.area_step_write hr]
        exact window_overwrite_of_disjoint hroom (by rwa [Record.length_diskImage])
      writePos_eq := by
        rw [b.control_step_write hr, b.place_eq hr]
        exact b.represents.writeControl_writePos hr }

/-- **A write goes up in the order of the laps**, unless it starts a lap when the counter of
the laps has no number left for it. -/
theorem before_write (b : Live) {r : Record} (hr : r.footprint ≤ b.buf.size) (sys : Sys)
    (hleft : ¬ (b.buf.wraps r = true ∧ b.buf.control.wrapCount.toNat + 1 = 2 ^ 64)) :
    Before b.buf.control (b.step (.write r sys)).buf.control := by
  have hlt := b.buf.control.wrapCount.toNat_lt
  by_cases hwraps : b.buf.wraps r = true
  · refine Or.inl ?_
    have hcount : (b.step (.write r sys)).buf.control.wrapCount =
        b.buf.control.wrapCount + 1 := by
      rw [b.control_step_write hr]
      show (b.buf.wrapControl r).wrapCount = _
      rw [wrapControl, if_pos hwraps]
    have hnot : b.buf.control.wrapCount.toNat + 1 ≠ 2 ^ 64 := fun h => hleft ⟨hwraps, h⟩
    rw [hcount, UInt64.lt_iff_toNat_lt, UInt64.toNat_add]
    show _ < (_ + 1) % _
    omega
  · refine Or.inr ⟨?_, ?_⟩
    · rw [b.control_step_write hr]
      show _ = (b.buf.wrapControl r).wrapCount
      rw [wrapControl, if_neg hwraps]
    · have hplace : b.buf.place r = b.buf.control.writePos.toNat := by
        rw [place, wrapControl, if_neg hwraps]
      rw [UInt64.lt_iff_toNat_lt, (b.stores_write hr sys).writePos_eq, hplace]
      have := r.footprint_pos
      omega

/-- Nothing but an accepted write changes the positions of the writer or the area. -/
theorem unchanged_step (b : Live) {op : Op}
    (hop : ∀ r sys, op = .write r sys → b.buf.size < r.footprint) :
    (b.step op).buf.control.writePos = b.buf.control.writePos ∧
      (b.step op).buf.control.wrapCount = b.buf.control.wrapCount ∧
        (b.step op).buf.area = b.buf.area := by
  have hlog : (b.step op).log = b.log := by
    rcases b.step_cases op with ⟨hlog, -⟩ | ⟨r, sys, hwrite, hr, -⟩
    · exact hlog
    · have := hop r sys hwrite
      omega
  refine ⟨?_, ?_, ?_⟩
  · rw [← UInt64.toNat_inj, (b.step op).represents.writePos_eq, hlog, b.represents.writePos_eq]
  · rw [(b.step op).represents.wrapCount_eq, hlog, b.represents.wrapCount_eq]
  · rw [(b.step op).represents.area_eq, hlog, size_step, b.represents.area_eq]

/-! ## The ranges of a lap -/

/-- The places and records of the current lap after a call. -/
def placesAfter (b : Live) (places : List (Nat × Record)) : Op → List (Nat × Record)
  | .write r _ =>
    if b.buf.size < r.footprint then places
    else if b.buf.wraps r then [(b.buf.place r, r)]
    else places ++ [(b.buf.place r, r)]
  | _ => places

/-- The places and records of the current lap after a run, given those before it. -/
def lapPlaces : Live → List (Nat × Record) → List Op → List (Nat × Record)
  | _, places, [] => places
  | b, places, op :: ops => lapPlaces (b.step op) (b.placesAfter places op) ops

/-- The records lie at their places, one behind the other and none behind the write
position. -/
structure Tiled (b : Live) (places : List (Nat × Record)) : Prop where
  pairwise : places.Pairwise fun x y => x.1 + x.2.footprint ≤ y.1
  stored : ∀ x ∈ places, x.1 + x.2.footprint ≤ b.writePos ∧
    window b.buf.area x.1 x.2.footprint = x.2.diskImage

theorem Tiled.step {b : Live} {places : List (Nat × Record)} (h : b.Tiled places) (op : Op) :
    (b.step op).Tiled (b.placesAfter places op) := by
  have hkeep : (∀ r sys, op = .write r sys → b.buf.size < r.footprint) →
      (b.step op).Tiled places := by
    intro hop
    obtain ⟨hpos, -, harea⟩ := b.unchanged_step hop
    exact ⟨h.pairwise, fun x hx => by rw [writePos, hpos, harea]; exact h.stored x hx⟩
  cases op with
  | write r sys =>
    by_cases hbig : b.buf.size < r.footprint
    · rw [placesAfter, if_pos hbig]
      refine hkeep ?_
      rintro r' sys' heq
      cases heq
      exact hbig
    · have hstores := b.stores_write (not_lt.mp hbig) sys
      rw [placesAfter, if_neg hbig]
      by_cases hwraps : b.buf.wraps r = true
      · rw [if_pos hwraps]
        refine ⟨List.pairwise_singleton _ _, ?_⟩
        intro x hx
        obtain rfl := List.mem_singleton.mp hx
        exact ⟨hstores.writePos_eq.ge, hstores.stored⟩
      · have hplace : b.buf.place r = b.writePos := by
          rw [place, wrapControl, if_neg hwraps]
          rfl
        rw [if_neg hwraps]
        refine ⟨?_, ?_⟩
        · refine List.pairwise_append.mpr ⟨h.pairwise, List.pairwise_singleton _ _, ?_⟩
          intro x hx y hy
          obtain rfl := List.mem_singleton.mp hy
          exact hplace ▸ (h.stored x hx).1
        · intro x hx
          have hend := hstores.writePos_eq
          rcases List.mem_append.mp hx with hx | hx
          · obtain ⟨hle, hwindow⟩ := h.stored x hx
            rw [hplace] at hend
            refine ⟨?_, ?_⟩
            · rw [writePos, hend]
              omega
            · rw [hstores.kept x.1 x.2.footprint (Or.inl (hplace ▸ hle)), hwindow]
          · obtain rfl := List.mem_singleton.mp hx
            exact ⟨hend.ge, hstores.stored⟩
  | readAll sys => exact hkeep (by simp)
  | resetReadPosition sys => exact hkeep (by simp)
  | commit c sys => exact hkeep (by simp)

theorem Tiled.after {ops : List Op} : ∀ {b : Live} {places : List (Nat × Record)},
    b.Tiled places → (b.after ops).Tiled (b.lapPlaces places ops) := by
  induction ops with
  | nil => exact fun h => h
  | cons op ops ih => exact fun h => ih (h.step op)

/-! ## The counter of the laps -/

/-- In an area for one empty record every write but the first starts a lap. -/
theorem log_replicate (sys : Sys) (n : Nat) :
    let r := Record.new [] 0 0
    ((fresh 24 (by decide) sys).after (List.replicate (n + 1) (.write r Sys.ok))).log =
      ⟨List.replicate n [r], [r]⟩ := by
  intro r
  induction n with
  | zero => rfl
  | succ n ih =>
    have hsize : ((fresh 24 (by decide) sys).after
        (List.replicate (n + 1) (.write r Sys.ok))).buf.size = 24 := size_after ..
    have hfull : ¬ (⟨List.replicate n [r], [r]⟩ : Log Record).HasRoom Record.diskImage 24 r := by
      rw [Log.HasRoom, extent_cons, extent_nil, Record.length_diskImage]
      show ¬ 24 + 0 + 24 ≤ 24
      omega
    rw [List.replicate_succ', after_append, after_cons, after_nil,
      log_step_write _ (by rw [hsize]; exact le_rfl), ih, hsize, Log.push_of_not_hasRoom hfull,
      ← List.replicate_succ]

/-- **With all numbers of the counter used, the next lap is counted as the first.** -/
theorem not_before_of_full {n : Nat} (hn : n + 1 = 2 ^ 64) (sys : Sys) :
    let r := Record.new [] 0 0
    let b := (fresh 24 (by decide) sys).after (List.replicate (n + 1) (.write r Sys.ok))
    ¬ Before b.buf.control (b.step (.write r Sys.ok)).buf.control := by
  intro r b
  have hlog : b.log = ⟨List.replicate n [r], [r]⟩ := log_replicate sys n
  have hnext : (b.step (.write r Sys.ok)).log = ⟨List.replicate (n + 1) [r], [r]⟩ := by
    have key : ((fresh 24 (by decide) sys).after
        (List.replicate (n + 1 + 1) (.write r Sys.ok))).log =
          ⟨List.replicate (n + 1) [r], [r]⟩ := log_replicate sys (n + 1)
    rwa [List.replicate_succ' (n := n + 1), after_append, after_cons, after_nil] at key
  have hcount := b.represents.wrapCount_eq
  have hcount' := (b.step (.write r Sys.ok)).represents.wrapCount_eq
  rw [hlog, List.length_replicate] at hcount
  rw [hnext, List.length_replicate, hn] at hcount'
  have hzero : (b.step (.write r Sys.ok)).buf.control.wrapCount.toNat = 0 := by
    rw [hcount']
    rfl
  have hlast : b.buf.control.wrapCount.toNat = n := by
    rw [hcount, UInt64.toNat_ofNat', Nat.mod_eq_of_lt (by omega)]
  rintro (hlt | ⟨heq, -⟩)
  · rw [UInt64.lt_iff_toNat_lt] at hlt
    omega
  · rw [← UInt64.toNat_inj] at heq
    omega

/-! ## Every run -/

/-- **The representation invariant.**  After any run of calls on a fresh buffer, whatever
they return and whether or not their flushes succeed: every call has come back, and the
buffer is well formed and of its old size; the records of the current lap lie at places one
behind the other, whole.

A further write of a record that is not too large comes back, stores it in one range of the
area, leaves the rest alone and goes up in the order of the laps, unless it starts a lap when the
counter of the laps has no number left for it.  Any other call comes back and leaves the positions
of the writer and the whole area alone.  From any position `read_at` comes back.

No sum of positions and lengths leaves a machine word: with any addition that is right within
it, wrapping or checked, `write`, `read_at` and `read_all` do the same. -/
theorem invariant (size : Nat) (h : ControlBlock.SIZE + size < 2 ^ 63) (sys : Sys)
    (ops : List Op) :
    let start := fresh size h sys
    let b := start.after ops
    let places := start.lapPlaces [] ops
    PersistentRingBuffer.new [] size sys = some (.ok start.buf) ∧
      start.buf.run ops = some b.buf ∧ b.buf.size = size ∧ b.buf.WellFormed ∧
      (places.Pairwise (fun x y => x.1 + x.2.footprint ≤ y.1) ∧
        ∀ x ∈ places, x.1 + x.2.footprint ≤ size ∧
          window b.buf.area x.1 x.2.footprint = x.2.diskImage) ∧
      (∀ r sys', r.footprint ≤ size →
        ∃ b', b.buf.step (.write r sys') = some b' ∧ b.buf.Stores b' r ∧
          (¬ (b.buf.wraps r = true ∧ b.buf.control.wrapCount.toNat + 1 = 2 ^ 64) →
            Before b.buf.control b'.control)) ∧
      (∀ op, (∀ r sys', op = .write r sys' → size < r.footprint) →
        ∃ b', b.buf.step op = some b' ∧ b'.control.writePos = b.buf.control.writePos ∧
          b'.control.wrapCount = b.buf.control.wrapCount ∧ b'.area = b.buf.area) ∧
      (∀ position, (b.buf.readAt position).isSome = true) ∧
      ∀ add, Adds add →
        (∀ r : Record, r.data.length ≤ isizeMax → ∀ sys',
          b.buf.writeWith add r sys' = b.buf.write r sys') ∧
        (∀ position, b.buf.readAtWith add position = b.buf.readAt position) ∧
        ∀ sys', b.buf.readAllWith add sys' = b.buf.readAll sys' := by
  intro start b places
  have hsize : b.buf.size = size := size_after ..
  have htiled : b.Tiled places :=
    Tiled.after ⟨List.Pairwise.nil, by simp⟩
  have hsound := b.represents.sound
  refine ⟨new_eq_fresh h sys, run_after start ops, hsize, b.represents.wellFormed,
    ⟨htiled.pairwise, ?_⟩, ?_, ?_, ?_, ?_⟩
  · intro x hx
    obtain ⟨hle, hwindow⟩ := htiled.stored x hx
    exact ⟨hle.trans (hsize ▸ b.writePos_le), hwindow⟩
  · intro r sys' hr
    rw [← hsize] at hr
    exact ⟨_, b.step_buf _, b.stores_write hr sys', b.before_write hr sys'⟩
  · intro op hop
    rw [← hsize] at hop
    exact ⟨_, b.step_buf op, b.unchanged_step hop⟩
  · intro position
    rw [readAt_eq hsound]
    rfl
  · intro add hadd
    exact ⟨fun r hr sys' => b.represents.writeWith_eq hadd hr sys',
      hsound.readAtWith_eq hadd, hsound.readAllWith_eq b.represents.writePos_le hadd⟩

end Live

end

section Ieee

attribute [local instance] Hasher.ieee

/-- In an area for one empty record, `2 ^ 64` writes use up the counter of the laps. -/
theorem Live.laps_run_out :
    let r := Record.new [] 0 0
    let b := (fresh 24 (by decide) Sys.ok).after (List.replicate (2 ^ 64) (.write r Sys.ok))
    r.footprint ≤ 24 ∧ ¬ Before b.buf.control (b.step (.write r Sys.ok)).buf.control := by
  have hfull : 2 ^ 64 - 1 + 1 = 2 ^ 64 := by omega
  have key := not_before_of_full hfull Sys.ok
  rw [hfull] at key
  exact ⟨by decide, key⟩

/-- A lap of two records and a third that starts the next; with checked sums too it is written
and the buffer is read. -/
theorem Live.invariant_of_three :
    let record := fun tag => Record.new (List.replicate 16 tag.toUInt8) tag 0
    let b := (fresh 100 (by decide) Sys.ok).after
      [.write (record 1) Sys.ok, .write (record 2) ⟨false, 7⟩]
    b.buf.WellFormed ∧
      (∃ b', b.buf.step (.write (record 3) Sys.ok) = some b' ∧ b.buf.Stores b' (record 3) ∧
        Before b.buf.control b'.control) ∧
      b.buf.writeWith checkedAdd (record 3) Sys.ok = b.buf.write (record 3) Sys.ok ∧
      b.buf.readAllWith checkedAdd Sys.ok = b.buf.readAll Sys.ok := by
  intro record b
  obtain ⟨-, -, -, hb, -, hwrite, -, -, hsums⟩ := Live.invariant 100 (by decide) Sys.ok
    [.write (record 1) Sys.ok, .write (record 2) ⟨false, 7⟩]
  obtain ⟨b', hstep, hstores, hbefore⟩ := hwrite (record 3) Sys.ok (by decide)
  obtain ⟨hwriteWith, -, hreadAllWith⟩ := hsums checkedAdd adds_checkedAdd
  refine ⟨hb, ⟨b', hstep, hstores, hbefore ?_⟩, hwriteWith _ (by decide) _, hreadAllWith _⟩
  decide +kernel

end Ieee

end Sherlog
