import Sherlog.Disk.Run

/-!
# Stopping in the middle of a write

`write` makes three stores into the mapping: the header, the data and the control block.
A process that stops in between leaves the mapping that the stores made so far have
produced, and whoever opens the file next finds the control block in its first bytes.

* `crashed` — what is found after a crash, and `CrashSafe` — the area described by the
  control block found still decodes to the records of that control block's lap.
* `Live.crashSafe_of_hasRoom` — a write behind the last record is safe at every point.
* `Live.write_crashSafe_iff` — a write that wraps puts its header over the first record of
  the lap that the control block in the file still describes; it is safe only when it
  writes the same record there again.
-/

namespace Sherlog

open LittleEndian Window LapLog PersistentRingBuffer

section

variable [Hasher]

namespace PersistentRingBuffer

/-- The buffer found in a mapping: the control block is the one in its first bytes. -/
def crashed (b : PersistentRingBuffer) (mmap : List UInt8) : PersistentRingBuffer :=
  { mmap, control := ControlBlock.ofBytes (window mmap 0 ControlBlock.SIZE), size := b.size }

end PersistentRingBuffer

namespace Live

/-- After the first `k` stores of a write the control block found is the old one or the
new one, and the area it describes decodes, from its front on, to the records of its
lap. -/
def CrashSafe (b : Live) (r : Record) (sys : Sys) (k : Nat) : Prop :=
  ∃ mmap, copyAll b.buf.mmap ((b.buf.writeStores r sys).take k) = some mmap ∧
    let found := b.buf.crashed mmap
    (found.control = b.buf.control ∧
        found.DecodesTo 0 b.log.lap found.control.writePos.toNat) ∨
      (found.control = (b.step (.write r sys)).buf.control ∧
        found.DecodesTo 0 (b.step (.write r sys)).log.lap found.control.writePos.toNat)

/-! ## The mapping after some of the stores -/

omit [Hasher] in
theorem crashed_append (b : PersistentRingBuffer) (c : ControlBlock) (pad : UInt32)
    (area : List UInt8) :
    (b.crashed (c.toBytes pad ++ area)).control = c ∧
      (b.crashed (c.toBytes pad ++ area)).area = area := by
  have hfront := window_front (c.toBytes pad) area
  have hblock := c.ofBytes_toBytes pad []
  rw [ControlBlock.length_toBytes] at hfront
  rw [List.append_nil] at hblock
  refine ⟨?_, List.drop_left' (ControlBlock.length_toBytes _ _)⟩
  show ControlBlock.ofBytes (window (c.toBytes pad ++ area) 0 ControlBlock.SIZE) = c
  rw [hfront, hblock]

/-- A store into the area leaves a mapping of the right size. -/
theorem crashed_sound (b : Live) (c : ControlBlock) (pad : UInt32) {pos : Nat} {part : List UInt8}
    (hfit : pos + part.length ≤ b.buf.area.length) :
    (b.buf.crashed (c.toBytes pad ++ overwrite b.buf.area pos part)).Sound where
  length_mmap := by
    show (_ ++ _ : List UInt8).length = _
    rw [List.length_append, ControlBlock.length_toBytes, length_overwrite hfit,
      b.represents.sound.length_area]
    rfl
  size_lt := b.represents.size_lt

/-- What of the record is in the area after the first `k` stores, for `k` below three. -/
def storedPart (r : Record) (k : Nat) : List UInt8 :=
  [[], r.diskHeader.toBytes, r.diskImage].getD k []

theorem length_storedPart_le (r : Record) (k : Nat) : (storedPart r k).length ≤ r.footprint := by
  match k with
  | 0 => simp [storedPart]
  | 1 => simp [storedPart, Record.footprint]
  | 2 => simp [storedPart]
  | k + 3 => simp [storedPart]

/-- What has been stored is the front of the record. -/
theorem window_storedPart (r : Record) (k : Nat) :
    window r.diskImage 0 (storedPart r k).length = storedPart r k := by
  match k with
  | 0 => rfl
  | 1 => exact window_front r.diskHeader.toBytes r.data
  | 2 => exact window_zero_length _
  | k + 3 => rfl

/-- **Before the third store** the old control block is found, and an area in which part of
the record has been stored. -/
theorem copyAll_take (b : Live) {r : Record} (hr : r.footprint ≤ b.buf.size) (sys : Sys) {k : Nat}
    (hk : k < 3) :
    ∃ pad, copyAll b.buf.mmap ((b.buf.writeStores r sys).take k) =
      some (b.buf.control.toBytes pad ++ overwrite b.buf.area
        (b.log.pushPos Record.diskImage b.buf.size r) (storedPart r k)) := by
  obtain ⟨pad, hmmap⟩ := b.represents.mmap_eq_area
  refine ⟨pad, ?_⟩
  rw [b.represents.writeStores_eq hr]
  match k, hk with
  | 0, _ => simp [storedPart, overwrite, hmmap]
  | 1, _ => exact b.represents.copyAll_header hr [] hmmap
  | 2, _ =>
    refine (b.represents.copyAll_record hr [] hmmap).trans ?_
    rw [b.represents.cells_push_eq]
    rfl

/-- What is left to show before the third store: the front of the area still holds the
lap. -/
theorem crashSafe_of_front (b : Live) {r : Record} (hr : r.footprint ≤ b.buf.size) (sys : Sys)
    (hsmall : b.buf.size < 2 ^ 32) {k : Nat} (hk : k < 3)
    (hfront : window (overwrite b.buf.area (b.log.pushPos Record.diskImage b.buf.size r)
      (storedPart r k)) 0 b.writePos = lapCells Record.diskImage b.log.lap) :
    b.CrashSafe r sys k := by
  obtain ⟨pad, hcopy⟩ := b.copyAll_take hr sys hk
  obtain ⟨hcontrol, harea⟩ := crashed_append b.buf b.buf.control pad (overwrite b.buf.area
    (b.log.pushPos Record.diskImage b.buf.size r) (storedPart r k))
  have hfit : b.log.pushPos Record.diskImage b.buf.size r + (storedPart r k).length ≤
      b.buf.area.length := by
    have := b.represents.pushPos_add_le hr
    have := length_storedPart_le r k
    rw [b.represents.sound.length_area]
    omega
  refine ⟨_, hcopy, Or.inl ⟨hcontrol, ?_⟩⟩
  have hcrashed := b.crashed_sound b.buf.control pad hfit
  rw [hcontrol, show b.buf.control.writePos.toNat = b.writePos from rfl, b.writePos_eq_extent]
  rw [b.writePos_eq_extent] at hfront
  have hle := b.writePos_le
  rw [b.writePos_eq_extent] at hle
  have key := hcrashed.decodesTo_of_window (p := 0) (by rw [harea, hfront])
    ((Nat.zero_add _).trans_le hle) fun s hs => b.represents.short_of_mem hsmall hs
  rwa [Nat.zero_add] at key

/-- After the third store the buffer found is the one after the write. -/
theorem crashSafe_of_all (b : Live) {r : Record} (hr : r.footprint ≤ b.buf.size) (sys : Sys)
    (hsmall : b.buf.size < 2 ^ 32) {k : Nat} (hk : 3 ≤ k) : b.CrashSafe r sys k := by
  have hstores : (b.buf.writeStores r sys).take k = b.buf.writeStores r sys :=
    List.take_of_length_le hk
  have hwrite := b.write_eq hr sys
  rw [write, if_neg (by omega)] at hwrite
  obtain ⟨mmap, hcopy, hres⟩ := Option.map_eq_some_iff.mp hwrite
  have hmmap : mmap = (b.step (.write r sys)).buf.mmap :=
    congrArg PersistentRingBuffer.mmap (Prod.mk.inj hres).2
  obtain ⟨pad, harea⟩ := (b.step (.write r sys)).represents.mmap_eq_area
  have hsame : b.buf.crashed mmap = (b.step (.write r sys)).buf := by
    have hcontrol := (crashed_append b.buf (b.step (.write r sys)).buf.control pad
      (b.step (.write r sys)).buf.area).1
    rw [← harea, ← hmmap] at hcontrol
    exact PersistentRingBuffer.ext hmmap hcontrol (b.size_step _).symm
  refine ⟨mmap, by rw [hstores, hcopy], Or.inr ?_⟩
  rw [hsame]
  exact ⟨rfl, decodesTo_lap _ (by rwa [size_step])⟩

/-! ## Which writes are safe -/

theorem window_area_lap (b : Live) :
    window b.buf.area 0 b.writePos = lapCells Record.diskImage b.log.lap := by
  rw [b.represents.area_eq, b.writePos_eq_extent]
  exact b.log.window_cells_lap _

/-- **A write behind the last record is safe** at every point: it stays clear of the lap
until the control block is replaced. -/
theorem crashSafe_of_hasRoom (b : Live) {r : Record} (hr : r.footprint ≤ b.buf.size) (sys : Sys)
    (hsmall : b.buf.size < 2 ^ 32) (hroom : b.log.HasRoom Record.diskImage b.buf.size r) (k : Nat) :
    b.CrashSafe r sys k := by
  by_cases hk : k < 3
  · refine b.crashSafe_of_front hr sys hsmall hk ?_
    have hle := b.represents.pushPos_add_le hr
    have hpart := length_storedPart_le r k
    have hpos := Log.pushPos_of_hasRoom hroom
    rw [← b.writePos_eq_extent] at hpos
    rw [window_overwrite_of_disjoint (by rw [b.represents.sound.length_area]; omega)
      (Or.inl (by omega)), b.window_area_lap]
  · exact b.crashSafe_of_all hr sys hsmall (by omega)

/-- A lap that leaves no room for a record the buffer can hold has a first record. -/
theorem exists_first (b : Live) {r : Record} (hr : r.footprint ≤ b.buf.size)
    (hroom : ¬ b.log.HasRoom Record.diskImage b.buf.size r) :
    ∃ first rest, b.log.lap = first :: rest := by
  refine List.exists_cons_of_ne_nil ?_
  intro hnil
  refine hroom ?_
  rw [Log.HasRoom, hnil, extent_nil, Record.length_diskImage]
  omega

theorem window_area_first (b : Live) {first : Record} {rest : List Record}
    (hlap : b.log.lap = first :: rest) :
    window b.buf.area 0 first.footprint = first.diskImage :=
  b.represents.window_currentAt ⟨[], rest, hlap, rfl⟩

/-- Writing the first record of the lap once more at its place changes nothing before the
control block is replaced. -/
theorem crashSafe_of_same (b : Live) {r first : Record} {rest : List Record}
    (hr : r.footprint ≤ b.buf.size) (sys : Sys) (hsmall : b.buf.size < 2 ^ 32)
    (hroom : ¬ b.log.HasRoom Record.diskImage b.buf.size r) (hlap : b.log.lap = first :: rest)
    (hsame : first.diskImage = r.diskImage) (k : Nat) : b.CrashSafe r sys k := by
  by_cases hk : k < 3
  · refine b.crashSafe_of_front hr sys hsmall hk ?_
    have hfoot : first.footprint = r.footprint := by
      rw [← Record.length_diskImage, hsame, Record.length_diskImage]
    have hfirst := b.window_area_first hlap
    have hpart : window b.buf.area 0 (storedPart r k).length = storedPart r k := by
      have hsub := window_window b.buf.area (p := 0) (q := 0)
        ((Nat.zero_add _).le.trans (length_storedPart_le r k))
      rw [← hfoot, hfirst, hsame, window_storedPart] at hsub
      exact hsub.symm
    have hlen := length_storedPart_le r k
    have hback := overwrite_window b.buf.area (p := 0) (n := (storedPart r k).length)
      (by rw [b.represents.sound.length_area]; omega)
    rw [hpart] at hback
    rw [Log.pushPos_of_not_hasRoom hroom, hback, b.window_area_lap]
  · exact b.crashSafe_of_all hr sys hsmall (by omega)

/-- **A write that wraps and is safe after its second store writes the first record of the
lap again.** -/
theorem stored_eq_of_crashSafe (b : Live) {r first : Record} {rest : List Record}
    (hr : r.footprint ≤ b.buf.size) {sys : Sys} (hsmall : b.buf.size < 2 ^ 32)
    (hroom : ¬ b.log.HasRoom Record.diskImage b.buf.size r) (hlap : b.log.lap = first :: rest)
    (hsafe : b.CrashSafe r sys 2) : first.stored = r.stored := by
  obtain ⟨pad, hcopy⟩ := b.copyAll_take hr sys (k := 2) (by omega)
  obtain ⟨mmap, hmmap, hfound⟩ := hsafe
  rw [hcopy, Log.pushPos_of_not_hasRoom hroom] at hmmap
  obtain rfl := Option.some.inj hmmap
  obtain ⟨hcontrol, harea⟩ := crashed_append b.buf b.buf.control pad
    (overwrite b.buf.area 0 (storedPart r 2))
  have hfit : 0 + (storedPart r 2).length ≤ b.buf.area.length := by
    have := length_storedPart_le r 2
    rw [b.represents.sound.length_area]
    omega
  have hread := (b.crashed_sound b.buf.control pad hfit).readAt_of_window (r := r) (a := 0)
    (by rw [Nat.zero_add]; exact hr)
    (by rw [Record.footprint] at hr; omega)
    (by rw [harea, ← Record.length_diskImage]; exact window_overwrite_self hfit)
  rcases hfound with ⟨-, hdecodes⟩ | ⟨hnew, -⟩
  · rw [hlap] at hdecodes
    have hfirst := hdecodes.1
    rw [hread] at hfirst
    simp only [Option.some.injEq, Except.ok.injEq, Prod.mk.injEq] at hfirst
    exact hfirst.1.symm
  · exfalso
    rw [hcontrol, b.control_step_write hr] at hnew
    have hcount : b.buf.control.wrapCount = (b.buf.writeControl r).updateCrc.wrapCount :=
      congrArg ControlBlock.wrapCount hnew
    have hwrap : (b.buf.writeControl r).updateCrc.wrapCount = (b.buf.wrapControl r).wrapCount :=
      rfl
    rw [hwrap, wrapControl, b.represents.wraps_of_not_hasRoom hr hroom, if_pos rfl] at hcount
    simp at hcount

/-- **A write is crash-safe exactly when it does not wrap**, or puts the record that is
already there at the front: for every reachable buffer below 4 GiB and every accepted
record. -/
theorem write_crashSafe_iff (size : Nat) (h : ControlBlock.SIZE + size < 2 ^ 63)
    (hsmall : size < 2 ^ 32) (sys : Sys) (ops : List Op) (r : Record) (hr : r.footprint ≤ size)
    (wsys : Sys) :
    let b := (fresh size h sys).after ops
    (∀ k, b.CrashSafe r wsys k) ↔
      b.buf.wraps r = false ∨ ∃ first rest, b.log.lap = first :: rest ∧
        first.content = r.content := by
  intro b
  have hsize : b.buf.size = size := size_after ..
  have hr' : r.footprint ≤ b.buf.size := hsize ▸ hr
  have hsmall' : b.buf.size < 2 ^ 32 := hsize ▸ hsmall
  by_cases hroom : b.log.HasRoom Record.diskImage b.buf.size r
  · exact ⟨fun _ => Or.inl (b.represents.wraps_of_hasRoom hr' hroom),
      fun _ => b.crashSafe_of_hasRoom hr' wsys hsmall' hroom⟩
  · have hwraps := b.represents.wraps_of_not_hasRoom hr' hroom
    obtain ⟨first, rest, hlap⟩ := b.exists_first hr' hroom
    constructor
    · intro hsafe
      have hstored := b.stored_eq_of_crashSafe hr' hsmall' hroom hlap (hsafe 2)
      refine Or.inr ⟨first, rest, hlap, ?_⟩
      rw [← Record.content_stored, hstored, Record.content_stored]
    · rintro (hno | ⟨first', rest', hlap', hcontent⟩)
      · rw [hwraps] at hno
        cases hno
      · obtain ⟨rfl, rfl⟩ := List.cons.inj (hlap.symm.trans hlap')
        exact b.crashSafe_of_same hr' wsys hsmall' hroom hlap
          (Record.diskImage_of_content hcontent)

end Live

end

section Ieee

attribute [local instance] Hasher.ieee

namespace Live

/-- In an area of 64 bytes the second record of 40 goes over the first.  After two stores the
control block in the file still describes the lap of the first. -/
theorem write_not_crashSafe :
    let record := fun tag => Record.new (List.replicate 16 tag.toUInt8) tag 0
    let b := (fresh 64 (by decide) Sys.ok).after [.write (record 1) Sys.ok]
    (record 2).footprint ≤ 64 ∧ ¬ b.CrashSafe (record 2) Sys.ok 2 := by
  intro record b
  refine ⟨by decide, fun hsafe => ?_⟩
  have hlap : b.log.lap = record 1 :: [] := by decide +kernel
  have hstored := b.stored_eq_of_crashSafe (r := record 2) (by decide) (by decide)
    (by decide +kernel) hlap hsafe
  exact absurd hstored (by decide +kernel)

/-- Behind the first record of an area the second is safe while it is written, and so is the
first when it is written again, over itself. -/
theorem write_crashSafe_of_two :
    let record := fun tag => Record.new (List.replicate 16 tag.toUInt8) tag 0
    (∀ k, ((fresh 100 (by decide) Sys.ok).after [.write (record 1) Sys.ok]).CrashSafe (record 2)
      Sys.ok k) ∧
      ∀ k, ((fresh 64 (by decide) Sys.ok).after [.write (record 1) Sys.ok]).CrashSafe (record 1)
        Sys.ok k := by
  intro record
  have hlap : ((fresh 64 (by decide) Sys.ok).after [.write (record 1) Sys.ok]).log.lap =
      record 1 :: [] := by decide +kernel
  exact ⟨(write_crashSafe_iff 100 (by decide) (by decide) Sys.ok [.write (record 1) Sys.ok]
      (record 2) (by decide) Sys.ok).mpr (Or.inl (by decide +kernel)),
    (write_crashSafe_iff 64 (by decide) (by decide) Sys.ok [.write (record 1) Sys.ok]
      (record 1) (by decide) Sys.ok).mpr (Or.inr ⟨_, _, hlap, rfl⟩)⟩

end Live

end Ieee

end Sherlog
