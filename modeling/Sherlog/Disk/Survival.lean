import Sherlog.Disk.Run

/-!
# Which records survive

A record stays readable at the place where it was stored until a later lap reaches
that place.  Whether a lap does is a matter of where it ends (`Live.lapEnds`).

* `Live.oldAt_after`, `Live.currentOrOld_after` — the run lemmas: a record stays where
  it is while no later lap goes beyond its offset.
* `Live.survives` — such a record is read back, with its data, time and tag, and the
  records of the current lap tile the area up to the write position.
-/

namespace Sherlog

open LapLog PersistentRingBuffer

namespace Live

section

variable [Hasher]

theorem lapEnds_step_subset (b : Live) (op : Op) (ops : List Op) :
    (b.step op).lapEnds ops ⊆ b.lapEnds (op :: ops) := by
  intro e he
  rw [lapEnds]
  by_cases h : b.startsLap op = true
  · rw [if_pos h]
    exact List.mem_cons_of_mem _ he
  · rwa [if_neg h]

theorem writePos_le_of_lapEnds {b : Live} {ops : List Op} {a : Nat}
    (h : ∀ e ∈ b.lapEnds ops, e ≤ a) : extent Record.diskImage b.log.lap ≤ a := by
  obtain ⟨e, ends, hends, hle⟩ := b.writePos_le_lapEnds ops
  rw [← writePos_eq_extent]
  exact hle.trans (h e (hends ▸ List.mem_cons_self ..))

/-- **A record of a finished lap stays** while no lap goes beyond its offset. -/
theorem oldAt_after {r : Record} {a : Nat} {ops : List Op} :
    ∀ {b : Live}, b.log.OldAt Record.diskImage r a → (∀ e ∈ b.lapEnds ops, e ≤ a) →
      (b.after ops).log.OldAt Record.diskImage r a := by
  induction ops with
  | nil => exact fun hat _ => hat
  | cons op ops ih =>
    intro b hat hends
    have hrest : ∀ e ∈ (b.step op).lapEnds ops, e ≤ a :=
      fun e he => hends e (b.lapEnds_step_subset op ops he)
    refine ih ?_ hrest
    rcases b.step_cases op with ⟨hlog, -⟩ | ⟨s, sys, -, -, hlog, -⟩
    · rwa [hlog]
    · have hle := writePos_le_of_lapEnds hrest
      rw [hlog] at hle ⊢
      exact hat.push hle

/-- **A record of the current lap stays** while no later lap goes beyond its offset. -/
theorem currentOrOld_after {r : Record} {a : Nat} {ops : List Op} :
    ∀ {b : Live}, b.log.CurrentAt Record.diskImage r a → (∀ e ∈ (b.lapEnds ops).tail, e ≤ a) →
      (b.after ops).log.CurrentAt Record.diskImage r a ∨
        (b.after ops).log.OldAt Record.diskImage r a := by
  induction ops with
  | nil => exact fun hat _ => Or.inl hat
  | cons op ops ih =>
    intro b hat hends
    rw [lapEnds] at hends
    by_cases h : b.startsLap op = true
    · rw [if_pos h, List.tail_cons] at hends
      refine Or.inr (oldAt_after (b := b.step op) ?_ hends)
      rcases b.step_cases op with ⟨-, hstarts⟩ | ⟨s, sys, -, -, hlog, hstarts⟩
      · rw [hstarts] at h
        cases h
      · have hle := writePos_le_of_lapEnds hends
        rw [hlog] at hle ⊢
        exact hat.oldAt_push (hstarts.mp h) hle
    · rw [if_neg h] at hends
      refine ih ?_ hends
      rcases b.step_cases op with ⟨hlog, -⟩ | ⟨s, sys, -, -, hlog, hstarts⟩
      · rwa [hlog]
      · rw [hlog]
        refine hat.push_of_hasRoom ?_
        by_contra hno
        exact h (hstarts.mpr hno)

/-- The record of an accepted write is in the current lap, at the offset where `write`
put its header. -/
theorem currentAt_write (b : Live) {r : Record} (hr : r.footprint ≤ b.buf.size) (sys : Sys) :
    (b.step (.write r sys)).log.CurrentAt Record.diskImage r
      (b.buf.wrapControl r).writePos.toNat := by
  rw [log_step_write b hr, b.represents.wrapControl_writePos hr]
  exact Log.currentAt_push ..

/-- **Records survive until a later lap reaches them.**  In a buffer below 4 GiB a record
that an accepted write stored at an offset is read back there, whole, after every further
run in which no later lap ends beyond that offset; and after every run the records of the
current lap tile the area, in order and without a gap. -/
theorem survives (size : Nat) (h : ControlBlock.SIZE + size < 2 ^ 63) (hsmall : size < 2 ^ 32)
    (sys : Sys) :
    (∀ (before after : List Op) (r : Record) (wsys : Sys), r.footprint ≤ size →
      let b := (fresh size h sys).after before
      let a := (b.buf.wrapControl r).writePos
      (∀ e ∈ ((b.step (.write r wsys)).lapEnds after).tail, e ≤ a.toNat) →
        ∃ found, ((b.step (.write r wsys)).after after).buf.readAt a =
            some (.ok (some (found, Header.SIZE + r.data.length))) ∧
          found.content = r.content ∧ found.header.size.toNat = r.data.length ∧
          found.header.crc32 = Hasher.finalize r.data) ∧
      ∀ ops : List Op, ((fresh size h sys).after ops).buf.DecodesTo 0
        ((fresh size h sys).after ops).log.lap ((fresh size h sys).after ops).writePos := by
  refine ⟨?_, fun ops => decodesTo_lap _ (by simpa using hsmall)⟩
  intro before after r wsys hr b a hends
  have hb : b.buf.size = size := size_after ..
  have hshort : r.data.length < 2 ^ 32 := by
    rw [Record.footprint] at hr
    omega
  have hread : ((b.step (.write r wsys)).after after).buf.readAt (UInt64.ofNat a.toNat) =
      some (.ok (some (r.stored, r.footprint))) := by
    have hat := b.currentAt_write (hb ▸ hr) wsys
    rcases currentOrOld_after hat hends with hcur | hold
    · exact Live.represents _ |>.readAt_currentAt hcur hshort
    · exact Live.represents _ |>.readAt_oldAt hold hshort
  rw [UInt64.ofNat_toNat] at hread
  refine ⟨r.stored, hread, rfl, ?_, rfl⟩
  show (UInt32.ofNat r.data.length).toNat = _
  rw [UInt32.toNat_ofNat', Nat.mod_eq_of_lt hshort]

end

section Ieee

attribute [local instance] Hasher.ieee

/-- In an area of 100 bytes the third record of 40 starts a lap that ends where the second
one begins. -/
theorem survives_second_of_three :
    let record := fun tag => Record.new (List.replicate 16 tag.toUInt8) tag 0
    ∃ found, ((fresh 100 (by decide) Sys.ok).after
        (Op.writes [record 1, record 2, record 3])).buf.readAt 40 =
          some (.ok (some (found, 40))) ∧ found.content = (record 2).content := by
  intro record
  have hends : ∀ e ∈ (((fresh 100 (by decide) Sys.ok).after
      (Op.writes [record 1, record 2])).lapEnds (Op.writes [record 3])).tail, e ≤ 40 := by
    decide +kernel
  have hplace : (((fresh 100 (by decide) Sys.ok).after
      (Op.writes [record 1])).buf.wrapControl (record 2)).writePos = 40 := by
    decide +kernel
  have key := (survives 100 (by decide) (by decide) Sys.ok).1 (Op.writes [record 1])
    (Op.writes [record 3]) (record 2) Sys.ok (by decide)
  simp only [hplace] at key
  obtain ⟨found, hread, hcontent, -⟩ := key hends
  have hlen : Header.SIZE + (record 2).data.length = 40 := rfl
  rw [hlen] at hread
  simp only [Op.writes, List.map_cons, List.map_nil, after_cons, after_nil] at hread ⊢
  exact ⟨found, hread, hcontent⟩

end Ieee

end Live

end Sherlog
