import Sherlog.Disk.Survival

/-!
# Damage to stored records

Bytes of the data area that something other than the buffer has changed.

* `PersistentRingBuffer.damaged` — the buffer with some bytes of its data area
  overwritten; it is still sound (`Sound.damaged`) and its area is the overwritten one
  (`Sound.area_damaged`).
* `PersistentRingBuffer.InPlace` — the bytes of a record lie whole at an offset;
  `Live.inPlace_after` says that they stay there while no later lap goes beyond it.
* `Live.damaged_data_rejected` — a burst of at most four bytes in the data of a record in
  place makes `read_at` report the record, never return it.
-/

namespace Sherlog

open LapLog Window

section

variable [Hasher]

namespace PersistentRingBuffer

/-- The buffer after the bytes of its data area from `p` on were overwritten. -/
def damaged (b : PersistentRingBuffer) (p : Nat) (bytes : List UInt8) : PersistentRingBuffer :=
  { b with mmap := overwrite b.mmap (ControlBlock.SIZE + p) bytes }

/-- The bytes `write` stored for the record lie whole at the offset. -/
def InPlace (b : PersistentRingBuffer) (r : Record) (p : Nat) : Prop :=
  p + r.footprint ≤ b.size ∧ window b.area p r.footprint = r.diskImage

variable {b : PersistentRingBuffer} {p : Nat} {bytes : List UInt8}

omit [Hasher] in
theorem Sound.damaged (hb : b.Sound) (hfit : p + bytes.length ≤ b.size) :
    (b.damaged p bytes).Sound where
  length_mmap := by
    have hlen := hb.length_mmap
    rw [PersistentRingBuffer.damaged, length_overwrite (by omega), hlen]
  size_lt := hb.size_lt

omit [Hasher] in
theorem Sound.area_damaged (hb : b.Sound) :
    (b.damaged p bytes).area = overwrite b.area p bytes := by
  have hfront : (b.mmap.take ControlBlock.SIZE).length = ControlBlock.SIZE := by
    rw [List.length_take, hb.length_mmap, min_eq_left (by omega)]
  have hsplit := overwrite_append_right (b.mmap.take ControlBlock.SIZE) b.area bytes p
  rw [hfront, area, List.take_append_drop] at hsplit
  rw [area, PersistentRingBuffer.damaged, hsplit, List.drop_left' hfront]
  rfl

/-- The data of a record in place, once a part of it has been overwritten. -/
theorem window_data_overwrite {area : List UInt8} {r : Record} {k : Nat}
    (hfit : p + r.footprint ≤ area.length) (hwin : window area p r.footprint = r.diskImage)
    (hk : k + bytes.length ≤ r.data.length) :
    window (overwrite area (p + Header.SIZE + k) bytes) (p + Header.SIZE) r.data.length =
      r.data.take k ++ bytes ++ r.data.drop (k + bytes.length) := by
  rw [Record.footprint] at hfit
  rw [window_overwrite_inside (by omega) hk, window_data_of_diskImage hwin, overwrite]

/-- **A burst in the data shows.** -/
theorem decodeAt_damaged_data [Hasher.Ieee] {area : List UInt8} {r : Record} {k : Nat}
    (hfit : p + r.footprint ≤ area.length) (hshort : r.data.length < 2 ^ 32)
    (hwin : window area p r.footprint = r.diskImage)
    (hk : k + bytes.length ≤ r.data.length) (hburst : bytes.length ≤ 4)
    (hne : bytes ≠ window r.data k bytes.length) :
    decodeAt (overwrite area (p + Header.SIZE + k) bytes) p = .error .invalidRecord := by
  have hsize : r.diskHeader.size.toNat = r.data.length := by
    show (UInt32.ofNat r.data.length).toNat = _
    rw [UInt32.toNat_ofNat', Nat.mod_eq_of_lt hshort]
  have hvalid : r.diskHeader.isValid = true := rfl
  have hdata := window_data_overwrite hfit hwin hk
  rw [Record.footprint] at hfit
  have hlen : (overwrite area (p + Header.SIZE + k) bytes).length = area.length :=
    length_overwrite (by omega)
  -- the header in front of the burst is as it was
  have hhead : window (overwrite area (p + Header.SIZE + k) bytes) p Header.SIZE =
      window area p Header.SIZE :=
    window_overwrite_of_disjoint (by omega) (Or.inl (by omega))
  have hcrc : r.diskHeader.verifyCrc
      (r.data.take k ++ bytes ++ r.data.drop (k + bytes.length)) = false := by
    refine beq_eq_false_iff_ne.mpr fun heq => hne ?_
    have hsplit : r.data.take k ++ window r.data k bytes.length ++
        r.data.drop (k + bytes.length) = r.data := by
      have h := overwrite_window r.data (p := k) hk
      rwa [overwrite, length_window hk] at h
    replace heq : Hasher.finalize r.data = _ := heq
    rw [Hasher.Ieee.finalize_eq, Hasher.Ieee.finalize_eq] at heq
    refine ieeeCrc32_burst (r.data.take k) (r.data.drop (k + bytes.length))
      (length_window hk).symm hburst ?_
    rw [hsplit, heq]
  rw [decodeAt, hlen, if_neg (by omega), hhead, ofBytes_window_of_diskImage hwin]
  simp only [hvalid, hsize, hdata, hcrc, Bool.true_eq_false, if_false, if_true]
  rw [if_neg (by omega)]

end PersistentRingBuffer

namespace Live

open PersistentRingBuffer

/-- Where a record stays readable its bytes stay whole. -/
theorem inPlace_after (b : Live) {r : Record} (hr : r.footprint ≤ b.buf.size) (sys : Sys)
    {ops : List Op}
    (hends : ∀ e ∈ ((b.step (.write r sys)).lapEnds ops).tail,
      e ≤ (b.buf.wrapControl r).writePos.toNat) :
    ((b.step (.write r sys)).after ops).buf.InPlace r (b.buf.wrapControl r).writePos.toNat := by
  have hlive := ((b.step (.write r sys)).after ops).represents
  rcases currentOrOld_after (b.currentAt_write hr sys) hends with hcur | hold
  · exact ⟨currentAt_fits hlive.fits hcur, hlive.window_currentAt hcur⟩
  · refine ⟨oldAt_fits hlive.fits hold, ?_⟩
    rw [hlive.area_eq, ← Record.length_diskImage]
    exact hold.window_cells _

/-- **Damaged data is never delivered.**  In a buffer below 4 GiB, let a record that an
accepted write stored at an offset still be in place after any further run, and let any
one to four consecutive bytes of its data be overwritten with others.  Then `read_at` at
that offset reports an invalid record. -/
theorem damaged_data_rejected [Hasher.Ieee] (size : Nat) (h : ControlBlock.SIZE + size < 2 ^ 63)
    (hsmall : size < 2 ^ 32) (sys : Sys) (before after : List Op) (r : Record) (wsys : Sys)
    (hr : r.footprint ≤ size) :
    let b := (fresh size h sys).after before
    let a := (b.buf.wrapControl r).writePos
    let later := ((b.step (.write r wsys)).after after).buf
    later.InPlace r a.toNat → ∀ (k : Nat) (bytes : List UInt8),
      k + bytes.length ≤ r.data.length → bytes.length ≤ 4 →
        bytes ≠ window r.data k bytes.length →
          (later.damaged (a.toNat + Header.SIZE + k) bytes).readAt a =
            some (.error .invalidRecord) := by
  intro b a later hplace k bytes hk hburst hne
  have hsound : later.Sound := (((b.step (.write r wsys)).after after).represents).sound
  obtain ⟨hfit, hwin⟩ := hplace
  have hshort : r.data.length < 2 ^ 32 := by
    rw [Record.footprint] at hr
    omega
  have hinside : a.toNat + Header.SIZE + k + bytes.length ≤ later.size := by
    rw [Record.footprint] at hfit
    omega
  rw [readAt_eq (hsound.damaged hinside), hsound.area_damaged,
    decodeAt_damaged_data (by rw [hsound.length_area]; exact hfit) hshort hwin hk hburst hne]

end Live

end

namespace Live

open PersistentRingBuffer

section Ieee

attribute [local instance] Hasher.ieee

/-- The second byte of the first of two records, changed from 1 to 0. -/
theorem damaged_data_rejected_of_two :
    let record := Record.new [1, 1, 1] 7 0
    ((((fresh 100 (by decide) Sys.ok).step (.write record Sys.ok)).after
        (Op.writes [record])).buf.damaged 25 [0]).readAt 0 =
      some (.error .invalidRecord) := by
  intro record
  have : Hasher.Ieee := ⟨fun _ => rfl⟩
  have hstart :
      (((fresh 100 (by decide) Sys.ok).after []).buf.wrapControl record).writePos = 0 := by
    decide +kernel
  have hplace : (((fresh 100 (by decide) Sys.ok).step (.write record Sys.ok)).after
      (Op.writes [record])).buf.InPlace record 0 := by
    have hends : ∀ e ∈ (((fresh 100 (by decide) Sys.ok).step (.write record Sys.ok)).lapEnds
        (Op.writes [record])).tail,
        e ≤ ((fresh 100 (by decide) Sys.ok).buf.wrapControl record).writePos.toNat := by
      decide +kernel
    have hwhole := inPlace_after (fresh 100 (by decide) Sys.ok) (by decide) Sys.ok hends
    have hzero :
        ((fresh 100 (by decide) Sys.ok).buf.wrapControl record).writePos.toNat = 0 := by
      decide +kernel
    rwa [hzero] at hwhole
  have key := damaged_data_rejected 100 (by decide) (by decide) Sys.ok [] (Op.writes [record])
    record Sys.ok (by decide)
  simp only [hstart] at key
  exact key hplace 1 [0] (by decide) (by decide) (by decide)

end Ieee

end Live

end Sherlog
