import Sherlog.Disk.Decode
import Sherlog.Lib.LapLog

/-!
# What the buffer is for: a log in laps

The bytes, offsets and counters of a `PersistentRingBuffer` keep a log in laps over
the data area (`LapLog`), whose records are laid out as `Record.diskImage`.

* `Represents b l` — the buffer `b` holds the log `l`: the mapping is the encoding
  of the control block in memory, followed by exactly the cells of `l`; the write
  position is the end of the current lap and the wrap counter the number of finished
  laps modulo `2 ^ 64`.
* `represents_fresh` — a new buffer holds the empty log; `new_nil_eq_some` says which
  sizes it can have.
* `write_represents` — an accepted write pushes its record, whether or not the flush
  behind it succeeds; a rejected one does nothing (`write_rejected`).
* `storeControl_represents` — moving the read position keeps the log.
* `Represents.readAt_currentAt`, `Represents.readAt_oldAt` — a record of the current
  lap, or one that no later lap has reached, is read back.
* `Represents.decodesTo_lap` — the records of the current lap lie end to end.
-/

namespace Sherlog

open LittleEndian Window LapLog

variable [Hasher]

namespace PersistentRingBuffer

/-- The buffer holds the log. -/
structure Represents (b : PersistentRingBuffer) (l : Log Record) : Prop where
  size_lt : ControlBlock.SIZE + b.size < 2 ^ 63
  mmap_eq : ∃ pad, b.mmap =
    b.control.toBytes pad ++ l.cells Record.diskImage (List.replicate b.size 0)
  fits : l.Fits Record.diskImage b.size
  writePos_eq : b.control.writePos.toNat = extent Record.diskImage l.lap
  wrapCount_eq : b.control.wrapCount = UInt64.ofNat l.past.length
  lap_ne_nil : l.past ≠ [] → l.lap ≠ []
  magic_eq : b.control.magic = ControlBlock.MAGIC
  version_eq : b.control.version = ControlBlock.VERSION
  bufferSize_eq : b.control.bufferSize = UInt64.ofNat b.size

/-- The buffer `new` makes of an empty file. -/
def fresh (size : Nat) (sys : Sys) : PersistentRingBuffer :=
  { mmap := (ControlBlock.new (UInt64.ofNat size)).toBytes sys.pad ++ List.replicate size 0,
    control := ControlBlock.new (UInt64.ofNat size), size }

theorem new_eq_fresh {size : Nat} (h : ControlBlock.SIZE + size < 2 ^ 63) (sys : Sys) :
    new [] size sys = some (.ok (fresh size sys)) := by
  have htotal : wrapping (size + ControlBlock.SIZE) = ControlBlock.SIZE + size := by
    rw [wrapping_of_lt (by omega), Nat.add_comm]
  have hmax : ¬ isizeMax < ControlBlock.SIZE + size := by unfold isizeMax; omega
  rw [new, if_pos rfl]
  simp only [htotal, if_neg hmax]
  rw [List.replicate_add, copyInto_eq_some (by simp), overwrite_front _ (by simp)]
  rfl

/-- No other size is to be had: `new` makes a buffer of an empty file only when the
mapping does not outgrow `isize::MAX`. -/
theorem new_nil_eq_some {size : Nat} (hsize : size < 2 ^ 64) {sys : Sys}
    {b : PersistentRingBuffer} (h : new [] size sys = some (.ok b)) :
    ControlBlock.SIZE + size < 2 ^ 63 ∧ b = fresh size sys := by
  have hS : ControlBlock.SIZE = 48 := rfl
  have hlt : ControlBlock.SIZE + size < 2 ^ 63 := by
    by_contra hbig
    rw [new, if_pos rfl] at h
    by_cases hwrap : size + ControlBlock.SIZE < 2 ^ 64
    · -- too large for a mapping
      have hmax : isizeMax < wrapping (size + ControlBlock.SIZE) := by
        rw [wrapping_of_lt hwrap]
        unfold isizeMax
        omega
      simp only [if_pos hmax] at h
      cases h
    · -- the sum has wrapped, and the control block no longer fits
      have htotal : wrapping (size + ControlBlock.SIZE) < ControlBlock.SIZE := by
        unfold wrapping
        omega
      have hmax : ¬ isizeMax < wrapping (size + ControlBlock.SIZE) := by
        unfold isizeMax
        omega
      have hcopy : ¬ 0 + ControlBlock.SIZE ≤ wrapping (size + ControlBlock.SIZE) := by omega
      simp only [if_neg hmax, copyInto, ControlBlock.length_toBytes, List.length_replicate,
        if_neg hcopy] at h
      cases h
  rw [new_eq_fresh hlt] at h
  exact ⟨hlt, (Except.ok.inj (Option.some.inj h)).symm⟩

theorem represents_fresh {size : Nat} (h : ControlBlock.SIZE + size < 2 ^ 63) (sys : Sys) :
    (fresh size sys).Represents Log.empty where
  size_lt := h
  mmap_eq := ⟨sys.pad, rfl⟩
  fits := Log.fits_empty
  writePos_eq := rfl
  wrapCount_eq := rfl
  lap_ne_nil := fun hne => absurd rfl hne
  magic_eq := rfl
  version_eq := rfl
  bufferSize_eq := rfl

variable {b : PersistentRingBuffer} {l : Log Record}

theorem Represents.length_cells (h : b.Represents l) :
    (l.cells Record.diskImage (List.replicate b.size 0)).length = b.size := by
  have hfits : l.Fits Record.diskImage (List.replicate b.size (0 : UInt8)).length := by
    rw [List.length_replicate]
    exact h.fits
  rw [hfits.length_cells, List.length_replicate]

theorem Represents.sound (h : b.Represents l) : b.Sound where
  length_mmap := by
    obtain ⟨pad, hmmap⟩ := h.mmap_eq
    rw [hmmap, List.length_append, ControlBlock.length_toBytes, h.length_cells]
  size_lt := h.size_lt

theorem Represents.area_eq (h : b.Represents l) :
    b.area = l.cells Record.diskImage (List.replicate b.size 0) := by
  obtain ⟨pad, hmmap⟩ := h.mmap_eq
  rw [area, hmmap, List.drop_left' (ControlBlock.length_toBytes _ _)]

theorem Represents.writePos_le (h : b.Represents l) : b.control.writePos.toNat ≤ b.size := by
  rw [h.writePos_eq]
  exact h.fits _ (List.mem_cons_self ..)

theorem extent_diskImage (rs : List Record) :
    extent Record.diskImage rs = (rs.map Record.footprint).sum := by
  simp [extent_eq_sum]

theorem extent_lt_of_ne_nil {front rest : List Record} (h : rest ≠ []) :
    extent Record.diskImage front < extent Record.diskImage (front ++ rest) := by
  obtain ⟨r, rs, rfl⟩ := List.exists_cons_of_ne_nil h
  have := r.footprint_pos
  rw [extent_append, extent_cons, Record.length_diskImage]
  omega

/-! ## Writing -/

theorem write_rejected {r : Record} (h : b.size < r.footprint) (sys : Sys) :
    b.write r sys = some (.error .invalidRecord, b) := if_pos h

theorem Represents.hasRoom_iff (h : b.Represents l) (r : Record) :
    l.HasRoom Record.diskImage b.size r ↔ b.control.writePos.toNat + r.footprint ≤ b.size := by
  rw [Log.HasRoom, Record.length_diskImage, h.writePos_eq]

/-- The `wrap` of `write` is the rule of the log. -/
theorem Represents.wraps_eq (h : b.Represents l) {r : Record} (hr : r.footprint ≤ b.size) :
    b.wraps r = decide (¬ l.HasRoom Record.diskImage b.size r) := by
  have hlt := h.size_lt
  have hle := h.writePos_le
  have h1 : wrapping (ControlBlock.SIZE + b.size) = ControlBlock.SIZE + b.size :=
    wrapping_of_lt (by omega)
  have h2 : wrapping (ControlBlock.SIZE + b.control.writePos.toNat) =
      ControlBlock.SIZE + b.control.writePos.toNat := wrapping_of_lt (by omega)
  have h3 : wrapping (ControlBlock.SIZE + b.control.writePos.toNat + r.footprint) =
      ControlBlock.SIZE + b.control.writePos.toNat + r.footprint := wrapping_of_lt (by omega)
  rw [wraps, h1, h2, h3, decide_eq_decide, h.hasRoom_iff]
  omega

theorem Represents.wraps_of_hasRoom (h : b.Represents l) {r : Record} (hr : r.footprint ≤ b.size)
    (hroom : l.HasRoom Record.diskImage b.size r) : b.wraps r = false := by
  rw [h.wraps_eq hr, decide_eq_false_iff_not, not_not]
  exact hroom

theorem Represents.wraps_of_not_hasRoom (h : b.Represents l) {r : Record}
    (hr : r.footprint ≤ b.size) (hroom : ¬ l.HasRoom Record.diskImage b.size r) :
    b.wraps r = true := by
  rw [h.wraps_eq hr, decide_eq_true_iff]
  exact hroom

theorem Represents.pushPos_add_le (_ : b.Represents l) {r : Record} (hr : r.footprint ≤ b.size) :
    l.pushPos Record.diskImage b.size r + r.footprint ≤ b.size := by
  have hle : l.pushPos Record.diskImage b.size r + r.diskImage.length ≤ b.size :=
    Log.pushPos_add_le (by simpa using hr)
  simpa using hle

theorem Represents.wrapControl_writePos (h : b.Represents l) {r : Record}
    (hr : r.footprint ≤ b.size) :
    (b.wrapControl r).writePos.toNat = l.pushPos Record.diskImage b.size r := by
  by_cases hroom : l.HasRoom Record.diskImage b.size r
  · rw [wrapControl, h.wraps_of_hasRoom hr hroom, Log.pushPos_of_hasRoom hroom, ← h.writePos_eq]
    rfl
  · rw [wrapControl, h.wraps_of_not_hasRoom hr hroom, Log.pushPos_of_not_hasRoom hroom]
    rfl

theorem Represents.wrapControl_wrapCount (h : b.Represents l) {r : Record}
    (hr : r.footprint ≤ b.size) :
    (b.wrapControl r).wrapCount =
      UInt64.ofNat (l.push Record.diskImage b.size r).past.length := by
  by_cases hroom : l.HasRoom Record.diskImage b.size r
  · rw [wrapControl, h.wraps_of_hasRoom hr hroom, Log.push_of_hasRoom hroom]
    exact h.wrapCount_eq
  · rw [wrapControl, h.wraps_of_not_hasRoom hr hroom, Log.push_of_not_hasRoom hroom, if_pos rfl,
      List.length_cons, UInt64.ofNat_add, ← h.wrapCount_eq]
    rfl

theorem Represents.writeControl_writePos (h : b.Represents l) {r : Record}
    (hr : r.footprint ≤ b.size) :
    (b.writeControl r).writePos.toNat =
      l.pushPos Record.diskImage b.size r + r.footprint := by
  have hlt := h.size_lt
  have hle := h.pushPos_add_le hr
  have hpos := h.wrapControl_writePos hr
  rw [writeControl]
  simp only
  rw [UInt64.toNat_add, UInt64.toNat_ofNat', hpos, Nat.mod_eq_of_lt (b := 2 ^ 64) (by omega),
    Nat.mod_eq_of_lt (by omega)]

omit [Hasher] in
/-- Outside its position and the wrap counter `write` keeps the control block. -/
theorem wrapControl_eq (b : PersistentRingBuffer) (r : Record) :
    (b.wrapControl r).magic = b.control.magic ∧ (b.wrapControl r).version = b.control.version ∧
      (b.wrapControl r).bufferSize = b.control.bufferSize ∧
      (b.wrapControl r).readPos = b.control.readPos := by
  unfold wrapControl
  split <;> exact ⟨rfl, rfl, rfl, rfl⟩

/-- Where the stores of an accepted write go. -/
theorem Represents.writeStores_eq (h : b.Represents l) {r : Record} (hr : r.footprint ≤ b.size)
    (sys : Sys) :
    b.writeStores r sys =
      [(ControlBlock.SIZE + l.pushPos Record.diskImage b.size r, r.diskHeader.toBytes),
        (ControlBlock.SIZE + l.pushPos Record.diskImage b.size r + Header.SIZE, r.data),
        (0, (b.writeControl r).updateCrc.toBytes sys.pad)] := by
  have hlt := h.size_lt
  have hle := h.pushPos_add_le hr
  simp only [Record.footprint] at hle
  simp only [writeStores, h.wrapControl_writePos hr]
  rw [wrapping_of_lt (by omega), wrapping_of_lt (by omega)]

/-- The data area after an accepted write. -/
theorem Represents.cells_push_eq (h : b.Represents l) (r : Record) :
    (l.push Record.diskImage b.size r).cells Record.diskImage (List.replicate b.size 0) =
      overwrite b.area (l.pushPos Record.diskImage b.size r) r.diskImage := by
  rw [Log.cells_push, h.area_eq]

omit [Hasher] in
/-- A store behind the control block is one into the area. -/
theorem overwrite_toBytes_append (c : ControlBlock) (pad : UInt32) (area bytes : List UInt8)
    (p : Nat) :
    overwrite (c.toBytes pad ++ area) (ControlBlock.SIZE + p) bytes =
      c.toBytes pad ++ overwrite area p bytes := by
  rw [← ControlBlock.length_toBytes c pad, overwrite_append_right]

/-- The mapping after the first store of an accepted write: a header in the area. -/
theorem Represents.copyAll_header (h : b.Represents l) {r : Record} (hr : r.footprint ≤ b.size)
    (stores : List (Nat × List UInt8)) {pad : UInt32}
    (hmmap : b.mmap = b.control.toBytes pad ++ b.area) :
    copyAll b.mmap ((ControlBlock.SIZE + l.pushPos Record.diskImage b.size r,
        r.diskHeader.toBytes) :: stores) =
      copyAll (b.control.toBytes pad ++ overwrite b.area (l.pushPos Record.diskImage b.size r)
        r.diskHeader.toBytes) stores := by
  have hle := h.pushPos_add_le hr
  have hlen := h.sound.length_mmap
  simp only [Record.footprint] at hle
  rw [copyAll_cons_of_fits _ (by rw [Header.length_toBytes]; omega), hmmap,
    overwrite_toBytes_append]

/-- The mapping after the first two stores of an accepted write: the old control block
and the new area. -/
theorem Represents.copyAll_record (h : b.Represents l) {r : Record} (hr : r.footprint ≤ b.size)
    (stores : List (Nat × List UInt8)) {pad : UInt32}
    (hmmap : b.mmap = b.control.toBytes pad ++ b.area) :
    copyAll b.mmap ((ControlBlock.SIZE + l.pushPos Record.diskImage b.size r,
        r.diskHeader.toBytes) ::
        (ControlBlock.SIZE + l.pushPos Record.diskImage b.size r + Header.SIZE, r.data) ::
        stores) =
      copyAll (b.control.toBytes pad ++
        (l.push Record.diskImage b.size r).cells Record.diskImage (List.replicate b.size 0))
        stores := by
  have hle := h.pushPos_add_le hr
  have hlen := h.sound.length_area
  simp only [Record.footprint] at hle
  have harea : (overwrite b.area (l.pushPos Record.diskImage b.size r)
      r.diskHeader.toBytes).length = b.size := by
    rw [length_overwrite (by rw [Header.length_toBytes]; omega), hlen]
  have htwo : overwrite (overwrite b.area (l.pushPos Record.diskImage b.size r)
      r.diskHeader.toBytes) (l.pushPos Record.diskImage b.size r + Header.SIZE) r.data =
      (l.push Record.diskImage b.size r).cells Record.diskImage (List.replicate b.size 0) := by
    rw [h.cells_push_eq, Record.diskImage, ← Header.length_toBytes r.diskHeader]
    exact overwrite_overwrite_behind (by rw [Header.length_toBytes]; omega)
  rw [h.copyAll_header hr _ hmmap, copyAll_cons_of_fits _ (by simp [harea]; omega),
    Nat.add_assoc, overwrite_toBytes_append, htwo]

theorem Represents.mmap_eq_area (h : b.Represents l) :
    ∃ pad, b.mmap = b.control.toBytes pad ++ b.area := by
  obtain ⟨pad, hmmap⟩ := h.mmap_eq
  exact ⟨pad, by rw [h.area_eq, hmmap]⟩

/-- **An accepted write pushes its record**, whatever becomes of the flush. -/
theorem Represents.write_represents (h : b.Represents l) {r : Record} (hr : r.footprint ≤ b.size)
    (sys : Sys) :
    ∃ b', b.write r sys = some (flushed sys, b') ∧ b'.size = b.size ∧
      b'.control = (b.writeControl r).updateCrc ∧
      b'.Represents (l.push Record.diskImage b.size r) := by
  obtain ⟨pad, hmmap⟩ := h.mmap_eq_area
  obtain ⟨hmagic, hversion, hbuffer, -⟩ := b.wrapControl_eq r
  refine ⟨⟨(b.writeControl r).updateCrc.toBytes sys.pad ++
    (l.push Record.diskImage b.size r).cells Record.diskImage (List.replicate b.size 0),
    (b.writeControl r).updateCrc, b.size⟩, ?_, rfl, rfl, ?_⟩
  · rw [write, if_neg (by omega), h.writeStores_eq hr, h.copyAll_record hr _ hmmap,
      copyAll_cons_of_fits _ (by simp), overwrite_front _ (by simp)]
    rfl
  · exact
      { size_lt := h.size_lt
        mmap_eq := ⟨sys.pad, rfl⟩
        fits := h.fits.push (by simpa using hr)
        writePos_eq := by
          rw [Log.extent_push, Record.length_diskImage]
          exact h.writeControl_writePos hr
        wrapCount_eq := h.wrapControl_wrapCount hr
        lap_ne_nil := by
          intro _
          by_cases hroom : l.HasRoom Record.diskImage b.size r
          · simp [Log.push_of_hasRoom hroom]
          · simp [Log.push_of_not_hasRoom hroom]
        magic_eq := hmagic.trans h.magic_eq
        version_eq := hversion.trans h.version_eq
        bufferSize_eq := hbuffer.trans h.bufferSize_eq }

/-! ## Moving the read position -/

/-- **A control block that differs only in the read position keeps the log.** -/
theorem Represents.storeControl_represents (h : b.Represents l) (readPos : UInt64) (sys : Sys) :
    ∃ b', b.storeControl { b.control with readPos } sys = some (flushed sys, b') ∧
      b'.size = b.size ∧ b'.control = { b.control with readPos }.updateCrc ∧ b'.area = b.area ∧
      b'.Represents l := by
  obtain ⟨pad, hmmap⟩ := h.mmap_eq_area
  refine ⟨⟨{ b.control with readPos }.updateCrc.toBytes sys.pad ++ b.area,
    { b.control with readPos }.updateCrc, b.size⟩, ?_, rfl, rfl, ?_, ?_⟩
  · rw [storeControl, hmmap, copyInto_eq_some (by simp), overwrite_front _ (by simp)]
    rfl
  · exact List.drop_left' (ControlBlock.length_toBytes _ _)
  · exact
      { size_lt := h.size_lt
        mmap_eq := ⟨sys.pad, by rw [h.area_eq]⟩
        fits := h.fits
        writePos_eq := h.writePos_eq
        wrapCount_eq := h.wrapCount_eq
        lap_ne_nil := h.lap_ne_nil
        magic_eq := h.magic_eq
        version_eq := h.version_eq
        bufferSize_eq := h.bufferSize_eq }

/-! ## Reading records that are in place -/

theorem Sound.readAt_of_window (hb : b.Sound) {r : Record} {a : Nat}
    (hfit : a + r.footprint ≤ b.size) (hshort : r.data.length < 2 ^ 32)
    (hwin : window b.area a r.footprint = r.diskImage) :
    b.readAt (UInt64.ofNat a) = some (.ok (some (r.stored, r.footprint))) := by
  have hlt := hb.size_lt
  have ha : (UInt64.ofNat a).toNat = a := by
    rw [UInt64.toNat_ofNat', Nat.mod_eq_of_lt (by omega)]
  rw [readAt_eq hb, ha, decodeAt_of_window (by rw [hb.length_area]; omega) hshort hwin]

theorem currentAt_fits {cap : Nat} {r : Record} {a : Nat} (hfits : l.Fits Record.diskImage cap)
    (h : l.CurrentAt Record.diskImage r a) : a + r.footprint ≤ cap := by
  obtain ⟨before, after, hlap, rfl⟩ := h
  have := hfits l.lap (List.mem_cons_self ..)
  rw [hlap, extent_append, extent_cons, Record.length_diskImage] at this
  omega

theorem oldAt_fits {cap : Nat} {r : Record} {a : Nat} (hfits : l.Fits Record.diskImage cap)
    (h : l.OldAt Record.diskImage r a) : a + r.footprint ≤ cap := by
  obtain ⟨-, newer, before, after, older, hpast, rfl, -⟩ := h
  have := hfits (before ++ r :: after) (by simp [hpast])
  rw [extent_append, extent_cons, Record.length_diskImage] at this
  omega

/-- The bytes of a record of the current lap are in the data area. -/
theorem Represents.window_currentAt (h : b.Represents l) {r : Record} {a : Nat}
    (hat : l.CurrentAt Record.diskImage r a) : window b.area a r.footprint = r.diskImage := by
  rw [h.area_eq, ← Record.length_diskImage]
  exact hat.window_cells _

/-- **A record of the current lap is read back.** -/
theorem Represents.readAt_currentAt (h : b.Represents l) {r : Record} {a : Nat}
    (hat : l.CurrentAt Record.diskImage r a) (hshort : r.data.length < 2 ^ 32) :
    b.readAt (UInt64.ofNat a) = some (.ok (some (r.stored, r.footprint))) :=
  h.sound.readAt_of_window (currentAt_fits h.fits hat) hshort (h.window_currentAt hat)

/-- **A record that no later lap has reached is read back.** -/
theorem Represents.readAt_oldAt (h : b.Represents l) {r : Record} {a : Nat}
    (hat : l.OldAt Record.diskImage r a) (hshort : r.data.length < 2 ^ 32) :
    b.readAt (UInt64.ofNat a) = some (.ok (some (r.stored, r.footprint))) := by
  refine h.sound.readAt_of_window (oldAt_fits h.fits hat) hshort ?_
  rw [h.area_eq, ← Record.length_diskImage]
  exact hat.window_cells _

/-- In a buffer below 4 GiB every record fits the size field. -/
theorem Represents.short_of_mem (h : b.Represents l) (hsize : b.size < 2 ^ 32) {r : Record}
    (hr : r ∈ l.lap) : r.data.length < 2 ^ 32 := by
  obtain ⟨before, after, hlap⟩ := List.append_of_mem hr
  have := currentAt_fits h.fits (r := r) ⟨before, after, hlap, rfl⟩
  simp only [Record.footprint] at this
  omega

/-- **Records whose bytes lie end to end are read one after the other.** -/
theorem Sound.decodesTo_of_window (hb : b.Sound) {records : List Record} :
    ∀ {p : Nat}, window b.area p (extent Record.diskImage records) =
        lapCells Record.diskImage records →
      p + extent Record.diskImage records ≤ b.size → (∀ r ∈ records, r.data.length < 2 ^ 32) →
        b.DecodesTo p records (p + extent Record.diskImage records) := by
  induction records with
  | nil => exact fun _ _ _ => rfl
  | cons r records ih =>
    intro p hwin hfits hshort
    obtain ⟨hfirst, hrest⟩ := window_lapCells_cons _ hwin
    rw [extent_cons, Record.length_diskImage] at hfits ⊢
    rw [Record.length_diskImage] at hfirst hrest
    refine ⟨hb.readAt_of_window (by omega) (hshort r List.mem_cons_self) hfirst, ?_⟩
    rw [← Nat.add_assoc]
    exact ih hrest (by omega) fun s hs => hshort s (List.mem_cons_of_mem _ hs)

/-- **The records of the current lap lie end to end**, from any record boundary of the
lap to the write position. -/
theorem Represents.decodesTo_lap (h : b.Represents l) {before rest : List Record}
    (hlap : l.lap = before ++ rest) (hshort : ∀ r ∈ rest, r.data.length < 2 ^ 32) :
    b.DecodesTo (extent Record.diskImage before) rest b.control.writePos.toNat := by
  have hfits := h.fits _ (List.mem_cons_self ..)
  have hcells : window (l.cells Record.diskImage (List.replicate b.size 0)) 0
      (extent Record.diskImage l.lap) = lapCells Record.diskImage l.lap := l.window_cells_lap _
  rw [← h.area_eq, hlap] at hcells
  have hback := (window_lapCells_append _ hcells).2
  rw [h.writePos_eq, hlap, extent_append]
  rw [hlap, extent_append] at hfits
  rw [Nat.zero_add] at hback
  exact h.sound.decodesTo_of_window hback hfits hshort

end PersistentRingBuffer

end Sherlog
