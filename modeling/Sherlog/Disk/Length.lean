import Sherlog.Disk.Survival

/-!
# Records of any length

`write` checks the length of a record against the size of the area, a `usize`; the header
it stores has a `u32` for it, and `data.len() as u32` keeps the low 32 bits.

* `Live.sizeField_write` — what the header of a record just written says about its length.
* `PersistentRingBuffer.accepted_reads_back_iff` — on a 64-bit target, of every size that
  `new` accepts: an accepted record reads back whole exactly when it is shorter than 4 GiB.
-/

namespace Sherlog

open LapLog Window

section

variable [Hasher]

/-- The size field of the header at an offset of the data area. -/
def PersistentRingBuffer.sizeField (b : PersistentRingBuffer) (p : Nat) : Nat :=
  (Header.ofBytes (window b.area p Header.SIZE)).size.toNat

namespace Live

open PersistentRingBuffer

/-- The size field keeps the low 32 bits of the length. -/
theorem sizeField_write (b : Live) {r : Record} (hr : r.footprint ≤ b.buf.size) (sys : Sys) :
    (b.step (.write r sys)).buf.sizeField (b.buf.wrapControl r).writePos.toNat =
      r.data.length % 2 ^ 32 := by
  have hwin := (b.step (.write r sys)).represents.window_currentAt (b.currentAt_write hr sys)
  rw [sizeField, ofBytes_window_of_diskImage hwin]
  exact UInt32.toNat_ofNat'

/-- The first record goes to the front. -/
theorem wrapControl_writePos_fresh {size : Nat} (h : ControlBlock.SIZE + size < 2 ^ 63) {sys : Sys}
    {r : Record} (hr : r.footprint ≤ size) :
    ((fresh size h sys).buf.wrapControl r).writePos = 0 := by
  have hlive := (fresh size h sys).represents
  have hroom : (fresh size h sys).log.HasRoom Record.diskImage size r :=
    (hlive.hasRoom_iff r).mpr ((Nat.zero_add r.footprint).le.trans hr)
  rw [wrapControl, hlive.wraps_of_hasRoom hr hroom]
  rfl

/-- Data as long as the header says reads back. -/
theorem readAt_write (b : Live) {r : Record} (hr : r.footprint ≤ b.buf.size) (sys : Sys)
    (hshort : r.data.length < 2 ^ 32) :
    (b.step (.write r sys)).buf.readAt (b.buf.wrapControl r).writePos =
      some (.ok (some (r.stored, r.footprint))) := by
  have hread := (b.step (.write r sys)).represents.readAt_currentAt
    (b.currentAt_write hr sys) hshort
  rwa [UInt64.ofNat_toNat] at hread

end Live

namespace PersistentRingBuffer

/-- What is read has the length that its header gives. -/
theorem Sound.length_of_readAt {b : PersistentRingBuffer} (hb : b.Sound) {p : UInt64}
    {found : Record} {n : Nat} (h : b.readAt p = some (.ok (some (found, n)))) :
    found.data.length = b.sizeField p.toNat := by
  rw [readAt_eq hb, Option.some.injEq] at h
  simp only [decodeAt] at h
  split_ifs at h with hhead hvalid hdata hcrc <;>
    simp only [Except.ok.injEq, Option.some.injEq, Prod.mk.injEq, reduceCtorEq] at h
  obtain ⟨rfl, -⟩ := h
  exact length_window (by omega)

/-- Does a record just written to the offset read back whole: its length in the size
field, its data from `read_at`? -/
def ReadsBack (b : PersistentRingBuffer) (r : Record) (a : UInt64) : Prop :=
  b.sizeField a.toNat = r.data.length ∧
    ∃ found n, b.readAt a = some (.ok (some (found, n))) ∧ found.data = r.data

/-- **An accepted record reads back whole exactly when it is shorter than 4 GiB**, for every
size of the buffer, every run in front of the write and every record. -/
theorem accepted_reads_back_iff {size : Nat} (hsize : size < 2 ^ 64) {sys : Sys}
    {created : PersistentRingBuffer} (hnew : new [] size sys = some (.ok created))
    {ops : List Op} {b : PersistentRingBuffer} (hrun : created.run ops = some b)
    {r : Record} {wsys : Sys} {b' : PersistentRingBuffer}
    (hwrite : b.write r wsys = some (.ok (), b')) :
    b'.ReadsBack r (b.wrapControl r).writePos ↔ r.data.length < 2 ^ 32 := by
  obtain ⟨h, rfl⟩ := new_nil_eq_some hsize hnew
  obtain rfl : ((Live.fresh size h sys).after ops).buf = b :=
    Option.some.inj (((Live.fresh size h sys).run_after ops).symm.trans hrun)
  generalize (Live.fresh size h sys).after ops = live at hwrite ⊢
  have hr : r.footprint ≤ live.buf.size := by
    by_contra hbig
    rw [write_rejected (by omega)] at hwrite
    cases hwrite
  obtain rfl : (live.step (.write r wsys)).buf = b' :=
    (Prod.mk.inj (Option.some.inj ((live.write_eq hr wsys).symm.trans hwrite))).2
  rw [ReadsBack, live.sizeField_write hr wsys]
  constructor
  · rintro ⟨hlen, -⟩
    omega
  · intro hshort
    exact ⟨Nat.mod_eq_of_lt hshort, _, _, live.readAt_write hr wsys hshort, rfl⟩

end PersistentRingBuffer

end

section Ieee

attribute [local instance] Hasher.ieee

namespace PersistentRingBuffer

/-- A record that fills a buffer of four bytes. -/
theorem accepted_reads_back_of_four :
    let record := Record.new [1, 2, 3, 4] 7 0
    ∃ b', (fresh 28 Sys.ok).write record Sys.ok = some (.ok (), b') ∧ b'.ReadsBack record 0 := by
  intro record
  have hwrite : (((fresh 28 Sys.ok).write record Sys.ok).map Prod.fst) = some (.ok ()) := by
    decide +kernel
  obtain ⟨⟨res, b'⟩, hb', rfl⟩ := Option.map_eq_some_iff.mp hwrite
  refine ⟨b', hb', ?_⟩
  have hrun : (fresh 28 Sys.ok).run [] = some (fresh 28 Sys.ok) := rfl
  exact (accepted_reads_back_iff (by decide) (new_eq_fresh (by decide) Sys.ok) hrun hb').mpr
    (by decide)

/-- A record of 4 GiB in a buffer that just holds it: `write` accepts it and stores a
size of zero, and what `read_at` returns, if anything, is empty. -/
theorem accepted_loses_length :
    let record := Record.new (List.replicate (2 ^ 32) 0) 7 0
    record.data.length = 2 ^ 32 ∧ ∃ created b', new [] (2 ^ 32 + 24) Sys.ok = some (.ok created) ∧
      created.write record Sys.ok = some (.ok (), b') ∧ b'.sizeField 0 = 0 ∧
        ∀ found n, b'.readAt 0 = some (.ok (some (found, n))) → found.data = [] := by
  intro record
  have hlen : record.data.length = 2 ^ 32 := List.length_replicate
  have hsize : ControlBlock.SIZE + (2 ^ 32 + 24) < 2 ^ 63 := by decide
  have hr : record.footprint ≤ 2 ^ 32 + 24 := by
    rw [Record.footprint, hlen, Header.SIZE, Nat.add_comm]
  have hwrite := (Live.fresh (2 ^ 32 + 24) hsize Sys.ok).write_eq hr Sys.ok
  have hfield := (Live.fresh (2 ^ 32 + 24) hsize Sys.ok).sizeField_write hr Sys.ok
  rw [Live.wrapControl_writePos_fresh hsize hr, hlen] at hfield
  refine ⟨hlen, _, _, new_eq_fresh hsize Sys.ok, hwrite, hfield, ?_⟩
  intro found n hread
  have hdata := (Live.represents _).sound.length_of_readAt hread
  exact List.eq_nil_of_length_eq_zero (hdata.trans hfield)

end PersistentRingBuffer

end Ieee

end Sherlog
