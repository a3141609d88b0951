import Sherlog.Disk.Scan
import Sherlog.Disk.Run

/-!
# The sums of positions and lengths

The source adds positions and lengths in machine words: in the release profile modulo `2 ^ 64`,
in the debug profile with a panic when a sum does not fit.  Here `write`, `read_at` and `read_all`
are given with the addition as a parameter.

* `writeWith`, `readAtWith`, `readAllWith` — the three functions over any addition;
  `writeWith_wrappingAdd`, `readAtWith_wrappingAdd`, `readAllWith_wrappingAdd` — over the one of
  the release profile they are `write`, `readAt` and `readAll`.
* `Adds` — an addition that is right wherever the sum fits a machine word.
* `Represents.writeWith_eq`, `Sound.readAtWith_eq`, `Sound.readAllWith_eq` — all such additions
  give the same, so that no sum is ever beyond a machine word.
-/

namespace Sherlog

open Window LapLog

/-- An addition of machine words; `none` is a panic. -/
abbrev Addition := Nat → Nat → Option Nat

/-- The addition of the release profile. -/
def wrappingAdd : Addition := fun m n => some (wrapping (m + n))

/-- The addition of the debug profile. -/
def checkedAdd : Addition := fun m n => if m + n < 2 ^ 64 then some (m + n) else none

/-- The addition is right wherever the sum fits a machine word. -/
def Adds (add : Addition) : Prop := ∀ m n, m + n < 2 ^ 64 → add m n = some (m + n)

theorem adds_wrappingAdd : Adds wrappingAdd :=
  fun _ _ h => congrArg some (wrapping_of_lt h)

theorem adds_checkedAdd : Adds checkedAdd := fun _ _ h => if_pos h

/-- Such an addition agrees with that of the release profile. -/
theorem Adds.both {add : Addition} (hadd : Adds add) {m n : Nat} (h : m + n < 2 ^ 64) :
    add m n = some (m + n) ∧ wrappingAdd m n = some (m + n) :=
  ⟨hadd m n h, adds_wrappingAdd m n h⟩

section

variable [Hasher]

namespace PersistentRingBuffer

/-- `PersistentRingBuffer::write`. -/
def writeWith (add : Addition) (b : PersistentRingBuffer) (r : Record) (sys : Sys) :
    Option (Except PersistentError Unit × PersistentRingBuffer) := do
  let totalSize ← add Header.SIZE r.data.length
  if b.size < totalSize then some (.error .invalidRecord, b)
  else
    let dataStart ← add ControlBlock.SIZE b.control.writePos.toNat
    let dataEnd ← add dataStart totalSize
    let bufferEnd ← add ControlBlock.SIZE b.size
    let control :=
      if bufferEnd < dataEnd then
        { b.control with writePos := 0, wrapCount := b.control.wrapCount + 1 }
      else b.control
    let headerPos ← add ControlBlock.SIZE control.writePos.toNat
    let dataPos ← add headerPos Header.SIZE
    let _ ← add dataPos r.data.length
    let writePos ← add control.writePos.toNat totalSize
    let control := ControlBlock.updateCrc { control with writePos := UInt64.ofNat writePos }
    let mmap ← copyAll b.mmap
      [(headerPos, r.diskHeader.toBytes), (dataPos, r.data), (0, control.toBytes sys.pad)]
    some (flushed sys, { b with mmap, control })

/-- `PersistentRingBuffer::read_at`. -/
def readAtWith (add : Addition) (b : PersistentRingBuffer) (position : UInt64) :
    Option (Except PersistentError (Option (Record × Nat))) :=
  if b.size ≤ position.toNat then some (.ok none)
  else do
    let absPos ← add ControlBlock.SIZE position.toNat
    let dataPos ← add absPos Header.SIZE
    if b.mmap.length < dataPos then some (.ok none)
    else
      let headerBytes ← slice b.mmap absPos dataPos
      let header := Header.ofBytes headerBytes
      if header.isValid = false then some (.ok none)
      else
        let dataSize := header.size.toNat
        let dataEnd ← add dataPos dataSize
        if b.mmap.length < dataEnd then some (.ok none)
        else
          let data ← slice b.mmap dataPos dataEnd
          if header.verifyCrc data = false then some (.error .invalidRecord)
          else
            let size ← add Header.SIZE dataSize
            some (.ok (some ({ header := { size := header.size, crc32 := header.crc32,
                                           timestampUs := header.timestampUs, tag := header.tag },
                               data }, size)))

/-- The `while` loop of `read_all`. -/
def readLoopWith (add : Addition) (b : PersistentRingBuffer) (writePos : UInt64) :
    Nat → UInt64 → List Record → Option (Except PersistentError (UInt64 × List Record))
  | 0, _, _ => none
  | fuel + 1, currentPos, records =>
    if currentPos < writePos then
      match b.readAtWith add currentPos with
      | none => none
      | some (.error e) => some (.error e)
      | some (.ok (some (record, size))) =>
        (add currentPos.toNat size).bind fun currentPos =>
          b.readLoopWith add writePos fuel (UInt64.ofNat currentPos) (records ++ [record])
      | some (.ok none) =>
        (add currentPos.toNat Header.SIZE).bind fun currentPos =>
          b.readLoopWith add writePos fuel (UInt64.ofNat currentPos) records
    else some (.ok (currentPos, records))

/-- `PersistentRingBuffer::read_all`. -/
def readAllWith (add : Addition) (b : PersistentRingBuffer) (sys : Sys) :
    Option (Except PersistentError (List Record) × PersistentRingBuffer) :=
  if b.control.readPos = b.control.writePos then some (.ok [], b)
  else
    match b.readLoopWith add b.control.writePos scanFuel b.control.readPos [] with
    | none => none
    | some (.error e) => some (.error e, b)
    | some (.ok (currentPos, records)) =>
      (b.storeControl { b.control with readPos := currentPos } sys).map fun res =>
        (res.1.map fun _ => records, res.2)

variable {b : PersistentRingBuffer} {add : Addition}

omit [Hasher] in
theorem ofNat_wrapping_add (p : UInt64) (n : Nat) :
    UInt64.ofNat (wrapping (p.toNat + n)) = p + UInt64.ofNat n := by
  refine UInt64.toNat_inj.mp ?_
  rw [UInt64.toNat_add, UInt64.toNat_ofNat', UInt64.toNat_ofNat', wrapping, Nat.mod_mod,
    Nat.add_mod_mod]

/-! ## Over the addition of the release profile -/

/-- For data that fits into memory. -/
theorem writeWith_wrappingAdd (b : PersistentRingBuffer) {r : Record}
    (hdata : r.data.length ≤ isizeMax) (sys : Sys) :
    b.writeWith wrappingAdd r sys = b.write r sys := by
  have htotal : wrapping (Header.SIZE + r.data.length) = r.footprint :=
    wrapping_of_lt (by simp only [isizeMax, Header.SIZE] at *; omega)
  have hcontrol : (if wrapping (ControlBlock.SIZE + b.size) <
      wrapping (wrapping (ControlBlock.SIZE + b.control.writePos.toNat) + r.footprint) then
        { b.control with writePos := 0, wrapCount := b.control.wrapCount + 1 }
      else b.control) = b.wrapControl r := by
    simp only [wrapControl, wraps, decide_eq_true_eq]
  simp only [writeWith, wrappingAdd, Option.bind_eq_bind, Option.bind_some, htotal, hcontrol,
    ofNat_wrapping_add]
  rw [write]
  split
  · rfl
  · exact Option.map_eq_bind.symm

theorem readAtWith_wrappingAdd (b : PersistentRingBuffer) (position : UInt64) :
    b.readAtWith wrappingAdd position = b.readAt position := by
  have hsize : ∀ header : Header, wrapping (Header.SIZE + header.size.toNat) =
      Header.SIZE + header.size.toNat := by
    intro header
    have hlt := header.size.toNat_lt
    exact wrapping_of_lt (by simp only [Header.SIZE]; omega)
  simp only [readAtWith, readAt, wrappingAdd, Option.bind_eq_bind, Option.bind_some, hsize]
  split
  · rfl
  split
  · rfl
  refine Option.bind_congr fun headerBytes _ => ?_
  split
  · rfl
  split
  · rfl
  rw [Option.map_eq_bind]
  refine Option.bind_congr fun data _ => ?_
  rw [Function.comp_apply]
  split <;> rfl

theorem readLoopWith_wrappingAdd (b : PersistentRingBuffer) (writePos : UInt64) {fuel : Nat} :
    ∀ (currentPos : UInt64) (records : List Record),
      b.readLoopWith wrappingAdd writePos fuel currentPos records =
        b.readLoop writePos fuel currentPos records := by
  induction fuel with
  | zero => exact fun _ _ => rfl
  | succ fuel ih =>
    intro currentPos records
    rw [readLoopWith, readLoop, readAtWith_wrappingAdd]
    by_cases hbelow : currentPos < writePos
    · rw [if_pos hbelow, if_pos hbelow]
      rcases b.readAt currentPos with _ | e | _ | ⟨record, size⟩
      · rfl
      · rfl
      · simp only [wrappingAdd, Option.bind_some, ofNat_wrapping_add, ih]
      · simp only [wrappingAdd, Option.bind_some, ofNat_wrapping_add, ih]
    · rw [if_neg hbelow, if_neg hbelow]

theorem readAllWith_wrappingAdd (b : PersistentRingBuffer) (sys : Sys) :
    b.readAllWith wrappingAdd sys = b.readAll sys := by
  rw [readAllWith, readLoopWith_wrappingAdd]
  rfl

/-! ## Over any other -/

theorem Represents.writeWith_eq {l : Log Record} (h : b.Represents l) (hadd : Adds add)
    {r : Record} (hdata : r.data.length ≤ isizeMax) (sys : Sys) :
    b.writeWith add r sys = b.write r sys := by
  rw [← b.writeWith_wrappingAdd hdata sys]
  have hlt := h.size_lt
  have hle := h.writePos_le
  obtain ⟨htotal, htotal'⟩ : add Header.SIZE r.data.length = _ ∧ _ :=
    hadd.both (by simp only [isizeMax, Header.SIZE] at *; omega)
  rw [writeWith, writeWith, htotal, htotal']
  simp only [Option.bind_eq_bind, Option.bind_some]
  by_cases hbig : b.size < Header.SIZE + r.data.length
  · rw [if_pos hbig, if_pos hbig]
  have hplace : (b.wrapControl r).writePos.toNat + (Header.SIZE + r.data.length) ≤ b.size :=
    h.wrapControl_writePos (not_lt.mp hbig) ▸ h.pushPos_add_le (not_lt.mp hbig)
  obtain ⟨hstart, hstart'⟩ :
      add ControlBlock.SIZE b.control.writePos.toNat = _ ∧ _ := hadd.both (by omega)
  obtain ⟨hend, hend'⟩ :
      add (ControlBlock.SIZE + b.control.writePos.toNat) (Header.SIZE + r.data.length) = _ ∧ _ :=
    hadd.both (by omega)
  obtain ⟨hbuffer, hbuffer'⟩ : add ControlBlock.SIZE b.size = _ ∧ _ := hadd.both (by omega)
  rw [if_neg hbig, if_neg hbig, hstart, hstart', hbuffer, hbuffer']
  simp only [Option.bind_some]
  rw [hend, hend']
  simp only [Option.bind_some]
  have hcontrol : (if ControlBlock.SIZE + b.size <
      ControlBlock.SIZE + b.control.writePos.toNat + (Header.SIZE + r.data.length) then
        { b.control with writePos := 0, wrapCount := b.control.wrapCount + 1 }
      else b.control) = b.wrapControl r := by
    rw [wrapControl]
    refine if_congr ?_ rfl rfl
    rw [h.wraps_eq (not_lt.mp hbig), decide_eq_true_eq, h.hasRoom_iff, Record.footprint]
    omega
  rw [hcontrol]
  obtain ⟨hheader, hheader'⟩ :
      add ControlBlock.SIZE (b.wrapControl r).writePos.toNat = _ ∧ _ := hadd.both (by omega)
  obtain ⟨hdataPos, hdataPos'⟩ :
      add (ControlBlock.SIZE + (b.wrapControl r).writePos.toNat) Header.SIZE = _ ∧ _ :=
    hadd.both (by omega)
  obtain ⟨hdataEnd, hdataEnd'⟩ :
      add (ControlBlock.SIZE + (b.wrapControl r).writePos.toNat + Header.SIZE) r.data.length = _ ∧
        _ := hadd.both (by omega)
  obtain ⟨hnext, hnext'⟩ : add (b.wrapControl r).writePos.toNat (Header.SIZE + r.data.length) = _ ∧
      _ := hadd.both (by omega)
  rw [hheader, hheader', hnext, hnext']
  simp only [Option.bind_some]
  rw [hdataPos, hdataPos']
  simp only [Option.bind_some]
  rw [hdataEnd, hdataEnd']

theorem Sound.readAtWith_eq (hb : b.Sound) (hadd : Adds add) (position : UInt64) :
    b.readAtWith add position = b.readAt position := by
  rw [← readAtWith_wrappingAdd]
  have hlt := hb.size_lt
  have hlen := hb.length_mmap
  rw [readAtWith, readAtWith]
  by_cases hbeyond : b.size ≤ position.toNat
  · rw [if_pos hbeyond, if_pos hbeyond]
  obtain ⟨habs, habs'⟩ : add ControlBlock.SIZE position.toNat = _ ∧ _ := hadd.both (by omega)
  obtain ⟨hdata, hdata'⟩ : add (ControlBlock.SIZE + position.toNat) Header.SIZE = _ ∧ _ :=
    hadd.both (by simp only [ControlBlock.SIZE, Header.SIZE] at *; omega)
  rw [if_neg hbeyond, if_neg hbeyond, habs, habs']
  simp only [Option.bind_eq_bind, Option.bind_some]
  rw [hdata, hdata']
  simp only [Option.bind_some]
  by_cases hshort : b.mmap.length < ControlBlock.SIZE + position.toNat + Header.SIZE
  · rw [if_pos hshort, if_pos hshort]
  rw [if_neg hshort, if_neg hshort]
  refine Option.bind_congr fun headerBytes _ => ?_
  have hsize := (Header.ofBytes headerBytes).size.toNat_lt
  by_cases hvalid : (Header.ofBytes headerBytes).isValid = false
  · rw [if_pos hvalid, if_pos hvalid]
  obtain ⟨hend, hend'⟩ : add (ControlBlock.SIZE + position.toNat + Header.SIZE)
      (Header.ofBytes headerBytes).size.toNat = _ ∧ _ := hadd.both (by omega)
  obtain ⟨htotal, htotal'⟩ : add Header.SIZE (Header.ofBytes headerBytes).size.toNat = _ ∧ _ :=
    hadd.both (by simp only [Header.SIZE]; omega)
  rw [if_neg hvalid, if_neg hvalid, hend, hend']
  simp only [htotal, htotal', Option.bind_some]

theorem Sound.readLoopWith_eq (hb : b.Sound) (hadd : Adds add) {writePos : UInt64}
    (hw : writePos.toNat ≤ b.size) {fuel : Nat} :
    ∀ (currentPos : UInt64) (records : List Record),
      b.readLoopWith add writePos fuel currentPos records =
        b.readLoop writePos fuel currentPos records := by
  have hlt := hb.size_lt
  have hlen := hb.length_area
  simp only [ControlBlock.SIZE] at hlt
  induction fuel with
  | zero => exact fun _ _ => rfl
  | succ fuel ih =>
    intro currentPos records
    have hsum : ∀ n, currentPos.toNat + n < 2 ^ 64 →
        add currentPos.toNat n = wrappingAdd currentPos.toNat n :=
      fun n hn => (hadd _ _ hn).trans (adds_wrappingAdd _ _ hn).symm
    rw [← readLoopWith_wrappingAdd, readLoopWith, readLoopWith, hb.readAtWith_eq hadd,
      readAtWith_wrappingAdd]
    by_cases hbelow : currentPos < writePos
    · rw [if_pos hbelow, if_pos hbelow, readAt_eq hb]
      have hpos := UInt64.lt_iff_toNat_lt.mp hbelow
      rcases hread : decodeAt b.area currentPos.toNat with _ | found
      · rfl
      · have hnext := advance_lt (by omega) (by omega) hread
        rcases found with _ | ⟨record, size⟩
        · show (add currentPos.toNat Header.SIZE).bind _ =
            (wrappingAdd currentPos.toNat Header.SIZE).bind _
          rw [hsum Header.SIZE hnext]
          simp only [ih, readLoopWith_wrappingAdd]
        · show (add currentPos.toNat size).bind _ = (wrappingAdd currentPos.toNat size).bind _
          rw [hsum size hnext]
          simp only [ih, readLoopWith_wrappingAdd]
    · rw [if_neg hbelow, if_neg hbelow]

theorem Sound.readAllWith_eq (hb : b.Sound) (hw : b.control.writePos.toNat ≤ b.size)
    (hadd : Adds add) (sys : Sys) : b.readAllWith add sys = b.readAll sys := by
  rw [readAllWith, hb.readLoopWith_eq hadd hw]
  rfl

end PersistentRingBuffer

end

end Sherlog
