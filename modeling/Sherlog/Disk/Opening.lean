import Sherlog.Disk.Run
import Sherlog.Disk.Scan

/-!
# Opening a file

`new` takes an existing file as it is: it looks at the magic number and the checksum of
the control block, and neither at the length of the file nor at the sizes and positions
the control block claims.

* `PersistentRingBuffer.Access`, `PersistentRingBuffer.InBounds` — a call on an open
  buffer, and that none of its slice indices leaves the mapping.
* `PersistentRingBuffer.OpensSafely` — `new` comes back, and if with a buffer, every call
  after every run on it keeps within the mapping.
* `PersistentRingBuffer.Roomy` — the invariant: the area claimed is in the file, or too
  small for any record, and the write position wraps around before the mapping ends.
* `PersistentRingBuffer.opens_safely_iff` — the files that open safely.
-/

namespace Sherlog

open LittleEndian Window

section

variable [Hasher]

namespace PersistentRingBuffer

/-! ## Bounds -/

/-- A call of one of the three operations that index the mapping. -/
inductive Access where
  | write (r : Record) (sys : Sys)
  | readAt (position : UInt64)
  | readAll (sys : Sys)

/-- No slice index of the call leaves the mapping.  `read_all` indexes it in its calls of
`read_at` and where it stores the control block. -/
def InBounds (b : PersistentRingBuffer) : Access → Prop
  | .write r sys => (b.write r sys).isSome = true
  | .readAt p => (b.readAt p).isSome = true
  | .readAll sys =>
    (∀ p ∈ b.readAtCalls b.control.writePos scanFuel b.control.readPos,
      (b.readAt p).isSome = true) ∧
    ∀ readPos, (b.storeControl { b.control with readPos } sys).isSome = true

/-- Opening the file and using the buffer never panics on a slice index: `new` comes back,
and after every run on the buffer it returns every call is in bounds. -/
def OpensSafely (file : List UInt8) : Prop :=
  ∀ size sys, ∃ opened, new file size sys = some opened ∧
    ∀ b, opened = .ok b → ∀ ops b', b.run ops = some b' → ∀ call, b'.InBounds call

/-- The area claimed is in the file, or too small for any record, and the sum of the write
position and the length of a record does not go round. -/
structure Roomy (b : PersistentRingBuffer) : Prop where
  control_le : ControlBlock.SIZE ≤ b.mmap.length
  length_le : b.mmap.length ≤ isizeMax
  fits : b.size < Header.SIZE ∨ ControlBlock.SIZE + b.size ≤ b.mmap.length ∧
    (2 ^ 64 ≤ ControlBlock.SIZE + b.control.writePos.toNat ∨
      ControlBlock.SIZE + b.control.writePos.toNat + b.size < 2 ^ 64)

variable {b b' : PersistentRingBuffer} {r : Record}

/-- When the three stores of `write` stay inside the mapping. -/
theorem write_isSome_iff (hr : r.footprint ≤ b.size) (sys : Sys) :
    (b.write r sys).isSome = true ↔
      let headerPos := wrapping (ControlBlock.SIZE + (b.wrapControl r).writePos.toNat)
      headerPos + Header.SIZE ≤ b.mmap.length ∧
        wrapping (headerPos + Header.SIZE) + r.data.length ≤ b.mmap.length ∧
          ControlBlock.SIZE ≤ b.mmap.length := by
  rw [write, if_neg (by omega), Option.isSome_map, copyAll_isSome_iff]
  simp [writeStores]

omit [Hasher] in
/-- The place of a record, in numbers: at the front if it is found not to fit. -/
theorem toNat_wrapControl (b : PersistentRingBuffer) (r : Record) :
    (b.wrapControl r).writePos.toNat =
      if wrapping (ControlBlock.SIZE + b.size) <
          wrapping (wrapping (ControlBlock.SIZE + b.control.writePos.toNat) + r.footprint)
        then 0 else b.control.writePos.toNat := by
  rw [wrapControl, wraps]
  split <;> simp_all

omit [Hasher] in
theorem toNat_writeControl (b : PersistentRingBuffer) (r : Record) :
    (b.writeControl r).writePos.toNat =
      wrapping ((b.wrapControl r).writePos.toNat + r.footprint) := by
  rw [writeControl, wrapping]
  simp

/-! ## The calls of a roomy buffer -/

omit [Hasher] in
/-- A record that fits the area claimed goes inside it, or over the control block. -/
theorem Roomy.place_le (hb : b.Roomy) (hr : r.footprint ≤ b.size) :
    wrapping (ControlBlock.SIZE + (b.wrapControl r).writePos.toNat) + r.footprint ≤
      ControlBlock.SIZE + b.size := by
  obtain ⟨-, hlen, hfits⟩ := hb
  have hw := b.control.writePos.toNat_lt
  rw [toNat_wrapControl]
  by_cases hwrap : wrapping (ControlBlock.SIZE + b.size) <
      wrapping (wrapping (ControlBlock.SIZE + b.control.writePos.toNat) + r.footprint)
  · rw [if_pos hwrap]
    simp only [wrapping, isizeMax, ControlBlock.SIZE, Header.SIZE, Record.footprint] at *
    omega
  · rw [if_neg hwrap]
    simp only [wrapping, isizeMax, ControlBlock.SIZE, Header.SIZE, Record.footprint] at *
    omega

theorem Roomy.write (hb : b.Roomy) (r : Record) (sys : Sys) : b.InBounds (.write r sys) := by
  by_cases hr : r.footprint ≤ b.size
  · have hplace := hb.place_le hr
    obtain ⟨hcontrol, hlen, hfits⟩ := hb
    rw [InBounds, write_isSome_iff hr]
    simp only [isizeMax, ControlBlock.SIZE, Header.SIZE, Record.footprint] at *
    rw [wrapping_of_lt (n := _ + 24) (by omega)]
    omega
  · rw [InBounds, PersistentRingBuffer.write, if_pos (by omega)]
    rfl

theorem Roomy.readAt (hb : b.Roomy) (p : UInt64) : b.InBounds (.readAt p) := by
  obtain ⟨-, hlen, hfits⟩ := hb
  rw [InBounds, PersistentRingBuffer.readAt]
  by_cases hbeyond : b.size ≤ p.toNat
  · rw [if_pos hbeyond]
    rfl
  simp only [isizeMax, ControlBlock.SIZE, Header.SIZE] at hlen hfits ⊢
  have habs : wrapping (48 + p.toNat) = 48 + p.toNat := wrapping_of_lt (by omega)
  have hend : wrapping (48 + p.toNat + 24) = 48 + p.toNat + 24 := wrapping_of_lt (by omega)
  rw [if_neg hbeyond]
  simp only [habs, hend]
  by_cases hhead : b.mmap.length < 48 + p.toNat + 24
  · rw [if_pos hhead]
    rfl
  rw [if_neg hhead, slice_eq_some (by omega), Option.bind_some]
  generalize Header.ofBytes (window b.mmap (48 + p.toNat) 24) = header
  have hsize := header.size.toNat_lt
  have hdata : wrapping (48 + p.toNat + 24 + header.size.toNat) =
      48 + p.toNat + 24 + header.size.toNat := wrapping_of_lt (by omega)
  cases header.isValid with
  | false => rfl
  | true =>
    simp only [Bool.true_eq_false, if_false, hdata]
    split
    · rfl
    · rw [slice_eq_some (by omega)]
      rfl

theorem Roomy.storeControl (hb : b.Roomy) (control : ControlBlock) (sys : Sys) :
    (b.storeControl control sys).isSome = true := by
  have hcontrol := hb.control_le
  rw [PersistentRingBuffer.storeControl, Option.isSome_map,
    copyInto_eq_some (by simpa using hcontrol)]
  rfl

/-- **Every call of a roomy buffer is in bounds.** -/
theorem Roomy.inBounds (hb : b.Roomy) (call : Access) : b.InBounds call := by
  cases call with
  | write r sys => exact hb.write r sys
  | readAt p => exact hb.readAt p
  | readAll sys => exact ⟨fun p _ => hb.readAt p, fun _ => hb.storeControl _ sys⟩

/-! ## Runs -/

theorem storeControl_length {control : ControlBlock} {sys : Sys} {res : Except PersistentError Unit}
    (h : b.storeControl control sys = some (res, b')) :
    b'.mmap.length = b.mmap.length ∧ b'.size = b.size := by
  obtain ⟨mmap, hcopy, hres⟩ := Option.map_eq_some_iff.mp h
  obtain ⟨-, rfl⟩ := Prod.mk.inj hres
  exact ⟨length_of_copyInto hcopy, rfl⟩

/-- No call changes the length of the mapping or the size. -/
theorem step_length {op : Op} (h : b.step op = some b') :
    b'.mmap.length = b.mmap.length ∧ b'.size = b.size := by
  cases op with
  | write r sys =>
    obtain ⟨⟨res, b₁⟩, hwrite, rfl⟩ := Option.map_eq_some_iff.mp h
    rw [PersistentRingBuffer.write] at hwrite
    split at hwrite
    · rw [← (Prod.mk.inj (Option.some.inj hwrite)).2]
      exact ⟨rfl, rfl⟩
    · obtain ⟨mmap, hcopy, hres⟩ := Option.map_eq_some_iff.mp hwrite
      rw [← (Prod.mk.inj hres).2]
      exact ⟨length_of_copyAll hcopy, rfl⟩
  | readAll sys =>
    obtain ⟨⟨res, b₁⟩, hread, rfl⟩ := Option.map_eq_some_iff.mp h
    rw [readAll] at hread
    split at hread
    · rw [← (Prod.mk.inj (Option.some.inj hread)).2]
      exact ⟨rfl, rfl⟩
    · split at hread
      · cases hread
      · rw [← (Prod.mk.inj (Option.some.inj hread)).2]
        exact ⟨rfl, rfl⟩
      · obtain ⟨⟨res', b₂⟩, hstore, hres⟩ := Option.map_eq_some_iff.mp hread
        rw [← (Prod.mk.inj hres).2]
        exact storeControl_length hstore
  | resetReadPosition sys =>
    obtain ⟨⟨res, b₁⟩, hreset, rfl⟩ := Option.map_eq_some_iff.mp h
    exact storeControl_length hreset
  | commit c sys =>
    obtain ⟨⟨res, b₁⟩, hcommit, rfl⟩ := Option.map_eq_some_iff.mp h
    rw [Cursor.commit] at hcommit
    split at hcommit
    · exact storeControl_length hcommit
    · rw [← (Prod.mk.inj (Option.some.inj hcommit)).2]
      exact ⟨rfl, rfl⟩

/-- Only an accepted write moves the write position. -/
theorem step_writePos {op : Op} (h : b.step op = some b') :
    b'.control.writePos = b.control.writePos ∨
      ∃ r, r.footprint ≤ b.size ∧ b'.control.writePos = (b.writeControl r).writePos := by
  rw [step_control h]
  cases op with
  | write r sys =>
    rw [unsealed]
    split
    · exact Or.inl rfl
    · exact Or.inr ⟨r, by omega, rfl⟩
  | readAll sys =>
    rw [unsealed]
    split
    · exact Or.inl rfl
    · split <;> exact Or.inl rfl
  | resetReadPosition sys => exact Or.inl rfl
  | commit c sys =>
    rw [unsealed]
    split <;> exact Or.inl rfl

theorem Roomy.step (hb : b.Roomy) {op : Op} (h : b.step op = some b') : b'.Roomy := by
  obtain ⟨hlen, hsize⟩ := step_length h
  refine ⟨by rw [hlen]; exact hb.control_le, by rw [hlen]; exact hb.length_le, ?_⟩
  rw [hlen, hsize]
  rcases step_writePos h with heq | ⟨r, hr, heq⟩
  · rw [heq]
    exact hb.fits
  · have hplace := hb.place_le hr
    have hmax := hb.length_le
    have hw := (b.wrapControl r).writePos.toNat_lt
    rw [heq, toNat_writeControl]
    refine hb.fits.imp_right fun hfits => ⟨hfits.1, ?_⟩
    have hin := hfits.1
    simp only [wrapping, isizeMax, ControlBlock.SIZE, Header.SIZE, Record.footprint] at *
    omega

theorem Roomy.run {ops : List Op} (hb : b.Roomy) (h : b.run ops = some b') : b'.Roomy := by
  induction ops generalizing b with
  | nil => rwa [← Option.some.inj h]
  | cons op ops ih =>
    rw [PersistentRingBuffer.run, List.foldlM_cons] at h
    obtain ⟨b₁, hstep, hrest⟩ := Option.bind_eq_some_iff.mp h
    exact ih (hb.step hstep) hrest

/-! ## Buffers that are not roomy -/

/-- A record of the given length on disk. -/
def recordOf (n : Nat) : Record := ⟨default, List.replicate (n - Header.SIZE) 0⟩

omit [Hasher] in
theorem footprint_recordOf {n : Nat} (h : Header.SIZE ≤ n) : (recordOf n).footprint = n := by
  rw [recordOf, Record.footprint, List.length_replicate]
  omega

/-- The buffer after a write that went through. -/
theorem run_write {sys : Sys} (h : (b.write r sys).isSome = true) (hr : r.footprint ≤ b.size) :
    ∃ b', b.run [.write r sys] = some b' ∧ b'.mmap.length = b.mmap.length ∧ b'.size = b.size ∧
      b'.control.writePos = (b.writeControl r).writePos := by
  obtain ⟨⟨res, b'⟩, hwrite⟩ := Option.isSome_iff_exists.mp h
  have hstep : b.step (.write r sys) = some b' := by
    rw [step, hwrite]
    rfl
  obtain ⟨hlen, hsize⟩ := step_length hstep
  refine ⟨b', by rw [run, List.foldlM_cons, hstep]; rfl, hlen, hsize, ?_⟩
  rw [step_control hstep, unsealed, if_neg (by omega)]
  rfl

/-- A record that does not fit behind the control block goes through only when the position
of its header goes round `2 ^ 64`. -/
theorem goes_round_of_write {sys : Sys} (h : (b.write r sys).isSome = true)
    (hlen : b.mmap.length ≤ isizeMax) (hr : r.footprint ≤ b.size)
    (hfile : b.mmap.length < ControlBlock.SIZE + r.footprint) :
    2 ^ 64 ≤ ControlBlock.SIZE + b.control.writePos.toNat ∧
      (b.writeControl r).writePos.toNat = (b.control.writePos.toNat + r.footprint) % 2 ^ 64 := by
  obtain ⟨hhead, hdata, -⟩ := (write_isSome_iff hr sys).mp h
  rw [toNat_writeControl]
  rw [toNat_wrapControl] at hhead hdata ⊢
  by_cases hwrap : wrapping (ControlBlock.SIZE + b.size) <
      wrapping (wrapping (ControlBlock.SIZE + b.control.writePos.toNat) + r.footprint)
  · rw [if_pos hwrap] at hhead hdata
    simp only [wrapping, isizeMax, ControlBlock.SIZE, Header.SIZE, Record.footprint] at *
    omega
  · rw [if_neg hwrap] at hhead hdata ⊢
    refine ⟨?_, rfl⟩
    simp only [wrapping, isizeMax, ControlBlock.SIZE, Header.SIZE, Record.footprint] at *
    omega

/-- **A buffer whose area is not in the file is not safe**: no more than three records of
the right length go through. -/
theorem le_length_of_inBounds (hlen : b.mmap.length ≤ isizeMax) (hsize : Header.SIZE ≤ b.size)
    (hsafe : ∀ ops b', b.run ops = some b' → ∀ call, b'.InBounds call) :
    ControlBlock.SIZE + b.size ≤ b.mmap.length := by
  by_contra hfile
  have hr := footprint_recordOf (le_max_left Header.SIZE (b.mmap.length + 1 - ControlBlock.SIZE))
  generalize recordOf (max Header.SIZE (b.mmap.length + 1 - ControlBlock.SIZE)) = r at hr
  have hfits : r.footprint ≤ b.size := by
    simp only [ControlBlock.SIZE, Header.SIZE] at *
    omega
  have hlong : b.mmap.length < ControlBlock.SIZE + r.footprint := by
    simp only [ControlBlock.SIZE, Header.SIZE] at *
    omega
  have hshort : r.footprint < 2 ^ 63 + 24 := by
    simp only [isizeMax, ControlBlock.SIZE, Header.SIZE] at *
    omega
  -- the first record, the second and the third
  have hwrite := hsafe [] b rfl (.write r Sys.ok)
  obtain ⟨hround, hpos⟩ := goes_round_of_write hwrite hlen hfits hlong
  obtain ⟨b₁, hrun₁, hlen₁, hsize₁, hpos₁⟩ := run_write hwrite hfits
  have hwrite₁ := hsafe _ b₁ hrun₁ (.write r Sys.ok)
  obtain ⟨hround₁, hpos₁'⟩ := goes_round_of_write hwrite₁ (by rwa [hlen₁]) (by rwa [hsize₁])
    (by rwa [hlen₁])
  obtain ⟨b₂, hrun₂, hlen₂, hsize₂, hpos₂⟩ := run_write hwrite₁ (by rwa [hsize₁])
  have hrun : b.run ([.write r Sys.ok] ++ [.write r Sys.ok]) = some b₂ := by
    rw [run, List.foldlM_append, ← run, hrun₁]
    exact hrun₂
  obtain ⟨hround₂, -⟩ := goes_round_of_write (hsafe _ b₂ hrun (.write r Sys.ok))
    (by rwa [hlen₂, hlen₁]) (by rwa [hsize₂, hsize₁]) (by rwa [hlen₂, hlen₁])
  rw [hpos₂, hpos₁', hpos₁, hpos] at hround₂
  rw [hpos₁, hpos] at hround₁
  have hw := b.control.writePos.toNat_lt
  simp only [ControlBlock.SIZE, Header.SIZE, Record.footprint] at *
  omega

/-- **What is safe is roomy.** -/
theorem roomy_of_inBounds (hcontrol : ControlBlock.SIZE ≤ b.mmap.length)
    (hlen : b.mmap.length ≤ isizeMax)
    (hsafe : ∀ ops b', b.run ops = some b' → ∀ call, b'.InBounds call) : b.Roomy := by
  refine ⟨hcontrol, hlen, ?_⟩
  by_cases hsize : b.size < Header.SIZE
  · exact Or.inl hsize
  have hfile := le_length_of_inBounds hlen (by omega) hsafe
  refine Or.inr ⟨hfile, ?_⟩
  by_contra hround
  -- a record as large as the area goes where the mapping has long ended
  have hr := footprint_recordOf (not_lt.mp hsize)
  have hwrite := hsafe [] b rfl (.write (recordOf b.size) Sys.ok)
  obtain ⟨hhead, -, -⟩ := (write_isSome_iff hr.le Sys.ok).mp hwrite
  have hw := b.control.writePos.toNat_lt
  rw [toNat_wrapControl, hr] at hhead
  rw [if_neg (by
    simp only [wrapping, isizeMax, ControlBlock.SIZE, Header.SIZE] at *
    omega)] at hhead
  simp only [wrapping, isizeMax, ControlBlock.SIZE, Header.SIZE] at *
  omega

/-- **The files that open safely**, of every length that can be mapped and with any content:
those with a control block that `new` refuses, or that claims an area too small for any
record, or one that is in the file and a write position from which no record takes the sum
of `write` round `2 ^ 64`. -/
theorem opens_safely_iff {file : List UInt8} (hne : file ≠ []) (hlen : file.length ≤ isizeMax) :
    OpensSafely file ↔ ControlBlock.SIZE ≤ file.length ∧
      let control := ControlBlock.ofBytes (window file 0 ControlBlock.SIZE)
      (control.magic ≠ ControlBlock.MAGIC ∨ control.verifyCrc = false) ∨
        control.bufferSize.toNat < Header.SIZE ∨
          ControlBlock.SIZE + control.bufferSize.toNat ≤ file.length ∧
            (2 ^ 64 ≤ ControlBlock.SIZE + control.writePos.toNat ∨
              ControlBlock.SIZE + control.writePos.toNat + control.bufferSize.toNat < 2 ^ 64) := by
  by_cases hshort : file.length < ControlBlock.SIZE
  · -- the slice of the control block panics
    refine ⟨fun hsafe => ?_, fun h => absurd h.1 (by omega)⟩
    obtain ⟨opened, hnew, -⟩ := hsafe 0 Sys.ok
    rw [new, if_neg hne, slice, if_neg (by omega)] at hnew
    cases hnew
  · have hslice : slice file 0 ControlBlock.SIZE = some (window file 0 ControlBlock.SIZE) := by
      rw [slice, if_pos ⟨Nat.zero_le _, by omega⟩, Nat.sub_zero]
    generalize hc : ControlBlock.ofBytes (window file 0 ControlBlock.SIZE) = control
    have hnew : ∀ size sys, new file size sys = some
        (if control.magic ≠ ControlBlock.MAGIC ∨ control.verifyCrc = false then
            .error .invalidBuffer
          else .ok { mmap := file, control, size := control.bufferSize.toNat }) := by
      intro size sys
      rw [new, if_neg hne, hslice, Option.map_some, ← hc]
    simp only [OpensSafely, hnew, Option.some.injEq]
    by_cases hbad : control.magic ≠ ControlBlock.MAGIC ∨ control.verifyCrc = false
    · simp only [if_pos hbad]
      refine ⟨fun _ => ⟨by omega, Or.inl hbad⟩, fun _ size sys => ⟨_, rfl, ?_⟩⟩
      intro b hb
      cases hb
    · simp only [if_neg hbad]
      constructor
      · intro hsafe
        obtain ⟨opened, rfl, hbounds⟩ := hsafe 0 Sys.ok
        have hroomy := roomy_of_inBounds (by simpa using hshort) hlen (hbounds _ rfl)
        exact ⟨hroomy.control_le, Or.inr hroomy.fits⟩
      · rintro ⟨hcontrol, hfits⟩ size sys
        refine ⟨_, rfl, ?_⟩
        rintro b hb ops b' hrun call
        obtain rfl := Except.ok.inj hb
        have hroomy : Roomy { mmap := file, control, size := control.bufferSize.toNat } :=
          ⟨hcontrol, hlen, hfits.resolve_left hbad⟩
        exact (hroomy.run hrun).inBounds call

end PersistentRingBuffer

end

section Ieee

attribute [local instance] Hasher.ieee

namespace PersistentRingBuffer

/-- A file of 64 zeros has no magic number, and is refused.  One with a control block that
carries its own checksum opens, and is safe when its area is there. -/
theorem opens_safely_of_zeros :
    let control := { ControlBlock.blank 64 with crc32 := 1228708372 }
    let file := control.toBytes 0 ++ List.replicate 64 0
    OpensSafely (List.replicate 64 0) ∧ new file 0 Sys.ok = some (.ok ⟨file, control, 64⟩) ∧
      OpensSafely file := by
  intro control file
  refine ⟨(opens_safely_iff (by simp) (by decide)).mpr ⟨by decide, Or.inl (Or.inl ?_)⟩,
    by decide +kernel, (opens_safely_iff ?_ (by decide +kernel)).mpr ⟨by decide +kernel, ?_⟩⟩
  · decide +kernel
  · decide +kernel
  · refine Or.inr (Or.inr ⟨?_, Or.inr ?_⟩)
    · decide +kernel
    · decide +kernel

/-- A file of one byte: the slice of the control block panics. -/
theorem not_opens_safely_of_one_byte : new [0] 1024 Sys.ok = none ∧ ¬ OpensSafely [0] := by
  have hnew : new [0] 1024 Sys.ok = none := by decide +kernel
  refine ⟨hnew, fun hsafe => ?_⟩
  obtain ⟨opened, hopened, -⟩ := hsafe 1024 Sys.ok
  rw [hnew] at hopened
  cases hopened

end PersistentRingBuffer

end Ieee

end Sherlog
