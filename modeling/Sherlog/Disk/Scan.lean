import Sherlog.Disk.Persistent
import Sherlog.Disk.Decode
import Sherlog.Lib.Scan

/-!
# Scanning whatever the area holds

The scan of `read_all` over a data area of arbitrary bytes.  Nothing here knows of a
log: the mapping has the right length, the write position lies inside the area, and
that is all.

* `PersistentRingBuffer.readLoop_of_scan` — the loop of `read_all` follows the scan of
  `decodeAt`, from any read position.
* `readLoop_eq` — the whole loop, and how many rounds it takes.
* `readAtCalls` — the calls of `read_at` on the way; `readLoop_congr`,
  `readLoop_eq_none_of_mem` — the loop depends on these, and panics when one of them does.
* `Bears` — what it takes for a record to be returned from a position.
* `readAll_of_anyBytes` — the call comes back; what it returns lies apart, in order; and
  when it fails it has changed nothing.
-/

namespace Sherlog

open Scanning Window

section

variable [Hasher]

/-- At position `p` of the area lies a header with the marker and the fields of `r`, and
behind it exactly `size` bytes of data with a matching checksum. -/
structure Bears (area : List UInt8) (p : Nat) (r : Record) : Prop where
  fits : p + Header.SIZE + r.header.size.toNat ≤ area.length
  isValid : (Header.ofBytes (window area p Header.SIZE)).isValid = true
  header_eq : r.header =
    { size := (Header.ofBytes (window area p Header.SIZE)).size,
      crc32 := (Header.ofBytes (window area p Header.SIZE)).crc32,
      timestampUs := (Header.ofBytes (window area p Header.SIZE)).timestampUs,
      tag := (Header.ofBytes (window area p Header.SIZE)).tag }
  data_eq : r.data = window area (p + Header.SIZE) r.header.size.toNat
  verifyCrc : (Header.ofBytes (window area p Header.SIZE)).verifyCrc r.data = true

/-- **What is decoded is there.** -/
theorem bears_of_decodeAt {area : List UInt8} {p n : Nat} {r : Record}
    (h : decodeAt area p = .ok (some (r, n))) :
    Bears area p r ∧ n = Header.SIZE + r.header.size.toNat := by
  simp only [decodeAt] at h
  split_ifs at h with hhead hvalid hdata hcrc <;>
    simp only [Except.ok.injEq, Option.some.injEq, Prod.mk.injEq, reduceCtorEq] at h
  obtain ⟨rfl, rfl⟩ := h
  exact ⟨⟨not_lt.mp hdata, by simpa using hvalid, rfl, rfl, by simpa using hcrc⟩, rfl⟩

theorem covers_decodeAt (area : List UInt8) : Covers (decodeAt area) Header.SIZE := by
  intro p r n h
  rw [(bears_of_decodeAt h).2]
  exact Nat.le_add_right _ _

/-- Only a checksum fails. -/
theorem decodeAt_error {area : List UInt8} {p : Nat} {e : PersistentError}
    (h : decodeAt area p = .error e) : e = .invalidRecord := by
  simp only [decodeAt] at h
  split_ifs at h
  exact (Except.error.inj h).symm

/-- From inside the area no step leads beyond `2 ^ 64`. -/
theorem advance_lt {area : List UInt8} {p : Nat} {found : Option (Record × Nat)}
    (hlen : area.length < 2 ^ 63) (hp : p ≤ area.length) (h : decodeAt area p = .ok found) :
    p + advance Header.SIZE found < 2 ^ 64 := by
  rcases found with _ | ⟨r, n⟩
  · show p + Header.SIZE < _
    simp only [Header.SIZE]
    omega
  · have hle := (decodeAt_some h).2
    show p + n < _
    omega

namespace PersistentRingBuffer

/-- The positions at which the loop of `read_all` calls `read_at`. -/
def readAtCalls (b : PersistentRingBuffer) (writePos : UInt64) : Nat → UInt64 → List UInt64
  | 0, _ => []
  | fuel + 1, currentPos =>
    if currentPos < writePos then
      currentPos ::
        match b.readAt currentPos with
        | some (.ok (some (_, size))) =>
          b.readAtCalls writePos fuel (currentPos + UInt64.ofNat size)
        | some (.ok none) => b.readAtCalls writePos fuel (currentPos + UInt64.ofNat Header.SIZE)
        | _ => []
    else []

/-- **The loop looks at the buffer in these calls only.** -/
theorem readLoop_congr {b b' : PersistentRingBuffer} {writePos : UInt64} {fuel : Nat} :
    ∀ {currentPos : UInt64} (acc : List Record),
      (∀ p ∈ b.readAtCalls writePos fuel currentPos, b'.readAt p = b.readAt p) →
        b'.readLoop writePos fuel currentPos acc = b.readLoop writePos fuel currentPos acc := by
  induction fuel with
  | zero => exact fun _ _ => rfl
  | succ fuel ih =>
    intro currentPos acc hsame
    rw [readAtCalls] at hsame
    rw [readLoop, readLoop]
    by_cases hlt : currentPos < writePos
    · rw [if_pos hlt] at hsame
      obtain ⟨hhead, hrest⟩ := List.forall_mem_cons.mp hsame
      rw [if_pos hlt, if_pos hlt, hhead]
      rcases hread : b.readAt currentPos with _ | _ | _ | ⟨r, n⟩
      · rfl
      · rfl
      · rw [hread] at hrest
        exact ih acc hrest
      · rw [hread] at hrest
        exact ih _ hrest
    · rw [if_neg hlt, if_neg hlt]

/-- **And it makes them**: when one of them panics, so does the loop. -/
theorem readLoop_eq_none_of_mem {b : PersistentRingBuffer} {writePos p : UInt64} {fuel : Nat}
    (hp : b.readAt p = none) :
    ∀ {currentPos : UInt64} (acc : List Record), p ∈ b.readAtCalls writePos fuel currentPos →
      b.readLoop writePos fuel currentPos acc = none := by
  induction fuel with
  | zero => exact fun _ _ => rfl
  | succ fuel ih =>
    intro currentPos acc hmem
    rw [readAtCalls] at hmem
    by_cases hlt : currentPos < writePos
    · rw [if_pos hlt] at hmem
      rw [readLoop, if_pos hlt]
      rcases hread : b.readAt currentPos with _ | _ | _ | ⟨r, n⟩
      · rfl
      all_goals
        rw [hread] at hmem
        rcases List.mem_cons.mp hmem with rfl | hmem
        · rw [hp] at hread
          cases hread
      · cases hmem
      · exact ih acc hmem
      · exact ih _ hmem
    · rw [if_neg hlt] at hmem
      cases hmem

variable {b : PersistentRingBuffer} {writePos : UInt64} {p q : Nat}
  {steps : List (Nat × Option (Record × Nat))}

omit [Hasher] in
theorem ofNat_lt_iff {p : Nat} (hp : p < 2 ^ 64) {writePos : UInt64} :
    UInt64.ofNat p < writePos ↔ p < writePos.toNat := by
  rw [UInt64.lt_iff_toNat_lt, UInt64.toNat_ofNat', Nat.mod_eq_of_lt hp]

theorem readAt_ofNat (hb : b.Sound) (hp : p < 2 ^ 64) :
    b.readAt (UInt64.ofNat p) = some (decodeAt b.area p) := by
  rw [readAt_eq hb, UInt64.toNat_ofNat', Nat.mod_eq_of_lt hp]

/-- A scan from inside the area does not go further than a header beyond it. -/
theorem scan_le (hb : b.Sound) (hw : writePos.toNat ≤ b.size)
    (h : Scan (decodeAt b.area) Header.SIZE writePos.toNat p steps q)
    (hp : p ≤ b.size + Header.SIZE) : q ≤ b.size + Header.SIZE := by
  have hlen := hb.length_area
  induction h with
  | nil => exact hp
  | @cons p q found steps hstop hlook _ ih =>
    refine ih ?_
    rcases found with _ | ⟨r, n⟩
    · show p + Header.SIZE ≤ _
      omega
    · have hle := (decodeAt_some hlook).2
      show p + n ≤ _
      omega

/-- **The loop of `read_all` follows the scan**, round by step. -/
theorem readLoop_of_scan (hb : b.Sound) (hw : writePos.toNat ≤ b.size)
    (h : Scan (decodeAt b.area) Header.SIZE writePos.toNat p steps q) (hp : p < 2 ^ 64) :
    q < 2 ^ 64 ∧ ∀ fuel acc,
      b.readLoop writePos (steps.length + fuel) (UInt64.ofNat p) acc =
        b.readLoop writePos fuel (UInt64.ofNat q) (acc ++ (items steps).map fun i => i.2.1) := by
  have hlen := hb.length_area
  have hlt := hb.size_lt
  induction h with
  | nil p => exact ⟨hp, fun fuel acc => by simp⟩
  | @cons p q found steps hstop hlook _ ih =>
    obtain ⟨hq, hloop⟩ := ih (advance_lt (by omega) (by omega) hlook)
    refine ⟨hq, fun fuel acc => ?_⟩
    rw [List.length_cons, Nat.add_right_comm, readLoop, if_pos ((ofNat_lt_iff hp).mpr hstop),
      readAt_ofNat hb hp, hlook]
    rcases found with _ | ⟨r, n⟩
    · simp only [← UInt64.ofNat_add]
      exact hloop fuel acc
    · simp only [← UInt64.ofNat_add]
      have key := hloop fuel (acc ++ [r])
      rw [List.append_assoc] at key
      exact key

/-- Where the scan is done the loop stops, with what it has collected or with an error. -/
theorem readLoop_of_done (hb : b.Sound) (hq : q < 2 ^ 64)
    (hdone : Done (decodeAt b.area) writePos.toNat q) (fuel : Nat) (acc : List Record) :
    b.readLoop writePos (fuel + 1) (UInt64.ofNat q) acc =
      some (if q < writePos.toNat then .error .invalidRecord else .ok (UInt64.ofNat q, acc)) := by
  by_cases hlt : q < writePos.toNat
  · obtain ⟨e, herror⟩ := hdone hlt
    obtain rfl := decodeAt_error herror
    rw [readLoop, if_pos ((ofNat_lt_iff hq).mpr hlt), readAt_ofNat hb hq, herror, if_pos hlt]
  · rw [readLoop, if_neg (mt (ofNat_lt_iff hq).mp hlt), if_neg hlt]

/-- A scan of the area is shorter than the fuel of the loops. -/
theorem length_lt_scanFuel (h : Scan (decodeAt b.area) Header.SIZE writePos.toNat p steps q) :
    ∃ fuel, scanFuel = steps.length + (fuel + 1) := by
  have hlooks := h.looks_le (covers_decodeAt _) (by decide)
  have hlt := writePos.toNat_lt
  refine ⟨2 ^ 64 - steps.length, ?_⟩
  simp only [Header.SIZE, scanFuel] at hlooks ⊢
  omega

/-- **The whole scan of `read_all`**, from any read position over any bytes, and the rounds that
its loop takes: one for each step, and a last one. -/
theorem readLoop_eq (hb : b.Sound) (hw : writePos.toNat ≤ b.size) (currentPos : UInt64) :
    ∃ steps q, Scan (decodeAt b.area) Header.SIZE writePos.toNat currentPos.toNat steps q ∧
      Done (decodeAt b.area) writePos.toNat q ∧ q < 2 ^ 64 ∧
      b.readLoop writePos scanFuel currentPos [] =
        some (if q < writePos.toNat then .error .invalidRecord
          else .ok (UInt64.ofNat q, (items steps).map fun i => i.2.1)) ∧
      ∀ fuel, steps.length < fuel →
        b.readLoop writePos fuel currentPos [] = b.readLoop writePos scanFuel currentPos [] := by
  obtain ⟨steps, q, hscan, hdone⟩ : ∃ steps q,
      Scan (decodeAt b.area) Header.SIZE writePos.toNat currentPos.toNat steps q ∧
        Done (decodeAt b.area) writePos.toNat q :=
    Scan.exists_done (covers_decodeAt b.area) (by decide) currentPos.toNat
  obtain ⟨more, hmore⟩ := length_lt_scanFuel hscan
  obtain ⟨hq, hloop⟩ := readLoop_of_scan hb hw hscan currentPos.toNat_lt
  have hread : ∀ fuel, b.readLoop writePos (steps.length + (fuel + 1)) currentPos [] =
      some (if q < writePos.toNat then .error .invalidRecord
        else .ok (UInt64.ofNat q, (items steps).map fun i => i.2.1)) := by
    intro fuel
    have hround := hloop (fuel + 1) []
    rwa [UInt64.ofNat_toNat, List.nil_append, readLoop_of_done hb hq hdone] at hround
  refine ⟨steps, q, hscan, hdone, hq, hmore ▸ hread more, fun fuel hfuel => ?_⟩
  obtain ⟨k, rfl⟩ : ∃ k, fuel = steps.length + (k + 1) := ⟨fuel - steps.length - 1, by omega⟩
  rw [hmore, hread k, hread more]

/-- The end of `read_all`: sealing another read position never fails on a mapping of the
right length. -/
theorem storeControl_of_sound (hb : b.Sound) (control : ControlBlock) {sys : Sys}
    (hflush : sys.flush = true) :
    ∃ b', b.storeControl control sys = some (.ok (), b') ∧ b'.control = control.updateCrc := by
  have hfits : 0 + (control.updateCrc.toBytes sys.pad).length ≤ b.mmap.length := by
    rw [hb.length_mmap, ControlBlock.length_toBytes]
    omega
  refine ⟨{ b with mmap := overwrite b.mmap 0 (control.updateCrc.toBytes sys.pad),
                   control := control.updateCrc }, ?_, rfl⟩
  rw [storeControl, copyInto_eq_some hfits, flushed, hflush]
  rfl

/-- **Scanning arbitrary bytes is safe.**  Whatever the data area holds, with the write
position inside it and any read position: `read_all` comes back.  Its loop calls `read_at` once
in every round but the last one of a loop that comes to its end, and is through after
`write_pos / Header::SIZE + 1` such calls.  The records it returns come from
places of the area that lie apart, in order, between the read and the write position, and
each is borne there; the read position is then not below the write position.  Any error is
a checksum that does not match, and leaves the buffer as it was. -/
theorem readAll_of_anyBytes (b : PersistentRingBuffer) (hb : b.Sound)
    (hw : b.control.writePos.toNat ≤ b.size) (sys : Sys) (hflush : sys.flush = true) :
    let loop := fun rounds => b.readLoop b.control.writePos rounds b.control.readPos []
    let calls := b.control.writePos.toNat / Header.SIZE + 1
    (loop (calls + 1) = loop scanFuel ∧
        ∀ e, loop scanFuel = some (.error e) → loop calls = some (.error e)) ∧
      ∃ res b', b.readAll sys = some (res, b') ∧
        (∀ found, res = .ok found →
          (∃ spots : List (Nat × Record), found = spots.map Prod.snd ∧
            (∀ s ∈ spots, Bears b.area s.1 s.2 ∧ b.control.readPos.toNat ≤ s.1 ∧
              s.1 < b.control.writePos.toNat) ∧
            spots.Pairwise fun s t => s.1 + Header.SIZE + s.2.header.size.toNat ≤ t.1) ∧
          b'.control.writePos = b.control.writePos ∧
          b'.control.writePos ≤ b'.control.readPos) ∧
        ∀ e, res = .error e → e = .invalidRecord ∧ b' = b := by
  intro loop calls
  obtain ⟨steps, q, hscan, -, hq, hloop, hrounds⟩ := readLoop_eq hb hw b.control.readPos
  have hlooks : steps.length + (if q < b.control.writePos.toNat then 1 else 0) ≤ calls :=
    hscan.looks_le (covers_decodeAt _) (by decide)
  have hfuel : ∀ e, loop scanFuel = some (.error e) → loop calls = some (.error e) := by
    intro e herror
    refine (hrounds calls ?_).trans herror
    by_cases hlt : q < b.control.writePos.toNat
    · rw [if_pos hlt] at hlooks
      omega
    · have hok := hloop.symm.trans herror
      rw [if_neg hlt] at hok
      cases hok
  refine ⟨⟨hrounds _ (by omega), hfuel⟩, ?_⟩
  by_cases heq : b.control.readPos = b.control.writePos
  · refine ⟨.ok [], b, if_pos heq, ?_, by simp⟩
    rintro found ⟨⟩
    exact ⟨⟨[], rfl, by simp, List.Pairwise.nil⟩, rfl, by rw [heq]; exact UInt64.le_refl _⟩
  · by_cases hlt : q < b.control.writePos.toNat
    · rw [if_pos hlt] at hloop
      refine ⟨.error .invalidRecord, b, by rw [readAll, if_neg heq, hloop], by simp, ?_⟩
      rintro e ⟨⟩
      exact ⟨rfl, rfl⟩
    · rw [if_neg hlt] at hloop
      obtain ⟨b', hstore, hcontrol⟩ :=
        storeControl_of_sound hb { b.control with readPos := UInt64.ofNat q } hflush
      refine ⟨.ok ((items steps).map fun i => i.2.1), b', ?_, ?_, by simp⟩
      · rw [readAll, if_neg heq, hloop]
        simp only [hstore]
        rfl
      rintro found ⟨⟩
      refine ⟨⟨(items steps).map fun i => (i.1, i.2.1), by simp, ?_, ?_⟩, ?_, ?_⟩
      · rintro s hs
        obtain ⟨⟨p, r, n⟩, hmem, rfl⟩ := List.mem_map.mp hs
        obtain ⟨hle, hstop, hlook⟩ := hscan.mem_range _ (mem_items.mp hmem)
        exact ⟨(bears_of_decodeAt hlook).1, hle, hstop⟩
      · rw [List.pairwise_map]
        refine hscan.pairwise_items.imp_of_mem ?_
        rintro ⟨p, r, n⟩ y hx - hle
        have hlook := (hscan.mem_range _ (mem_items.mp hx)).2.2
        have hn := (bears_of_decodeAt hlook).2
        simp only at hle hn ⊢
        omega
      · rw [hcontrol]
        rfl
      · rw [hcontrol]
        show b.control.writePos ≤ UInt64.ofNat q
        rw [UInt64.le_iff_toNat_le, UInt64.toNat_ofNat', Nat.mod_eq_of_lt hq]
        exact not_lt.mp hlt

end PersistentRingBuffer

end

section Ieee

attribute [local instance] Hasher.ieee

/-- Two records and a stretch of other bytes between them: the scan skips it, in the second of
three calls of `read_at`, and returns both records. -/
theorem PersistentRingBuffer.readAll_of_gap :
    let record := fun tag => Record.new [7] tag 0
    let area := (record 1).diskImage ++ List.replicate 24 0x55 ++ (record 2).diskImage
    let control := { ControlBlock.blank 74 with writePos := 74 }
    let b : PersistentRingBuffer := ⟨control.toBytes 0 ++ area, control, 74⟩
    b.readLoop 74 5 0 [] = b.readLoop 74 scanFuel 0 [] ∧
      ∃ b', b.readAll Sys.ok = some (.ok [(record 1).stored, (record 2).stored], b') ∧
        ∃ spots : List (Nat × Record),
          [(record 1).stored, (record 2).stored] = spots.map Prod.snd ∧
            spots.Pairwise fun s t => s.1 + Header.SIZE + s.2.header.size.toNat ≤ t.1 := by
  intro record area control b
  have hb : b.Sound := ⟨by decide +kernel, by decide⟩
  have hfound : (b.readAll Sys.ok).map Prod.fst =
      some (.ok [(record 1).stored, (record 2).stored]) := by decide +kernel
  obtain ⟨⟨hrounds, -⟩, res, b', hread, hok, -⟩ :=
    readAll_of_anyBytes b hb (by decide) Sys.ok rfl
  have hfive : b.control.writePos.toNat / Header.SIZE + 1 + 1 = 5 := by decide
  simp only [hfive] at hrounds
  rw [hread, Option.map_some, Option.some.injEq] at hfound
  obtain rfl : res = _ := hfound
  obtain ⟨⟨spots, hspots, -, hapart⟩, -⟩ := hok _ rfl
  exact ⟨hrounds, b', hread, spots, hspots, hapart⟩

end Ieee

end Sherlog
