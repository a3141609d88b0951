import Sherlog.Disk.Agreement
import Sherlog.Disk.Damage
import Sherlog.Disk.ReadAll

/-!
# Reading on behind a damaged header

Where there is no marker a scan goes on by the length of a header.

* `Header.isValid_ofBytes_iff` — the two bytes of a header that hold its marker.
* `Scarred` — a data area in which records lie end to end, nothing is found at any place of
  one of them, and all is blank behind the last.
* `data_ne_of_behind` — a record with nothing but blanks behind it is not found again further
  on.
* `Scarred.finds_others_iff` — so a scan that has stepped past the beginning of a record behind
  the damage does not make up for it: it finds all the others exactly when it comes to that
  beginning, or there is no such record.
* `Live.recovers_iff` — for `read_all` and for a cursor, over every run without a wrap.
-/

namespace Sherlog

open LapLog LittleEndian PersistentRingBuffer Scanning Window

/-! ## The bytes of the marker -/

namespace Header

/-- A header is valid exactly when its bytes 20 and 21 are those of the marker. -/
theorem isValid_ofBytes_iff {bytes : List UInt8} (h : bytes.length = SIZE) :
    (ofBytes bytes).isValid = true ↔ window bytes 20 2 = leBytes 2 MARKER.toNat := by
  have hlen : (window bytes 20 2).length = 2 := length_window (by rw [h]; decide)
  have hfield : (ofBytes bytes).marker = UInt16.ofNat (ofLe (window bytes 20 2)) := by
    simp [ofBytes, unpackFields, window]
  have hword : leBytes 2 (ofLe (window bytes 20 2)) = window bytes 20 2 := by
    have := leBytes_ofLe (window bytes 20 2)
    rwa [hlen] at this
  rw [isValid, beq_iff_eq, hfield]
  constructor
  · intro heq
    have hmod : ofLe (window bytes 20 2) % 256 ^ 2 = ofLe (window bytes 20 2) := by
      rw [← ofLe_leBytes, hword]
    have hvalue : ofLe (window bytes 20 2) % 256 ^ 2 = MARKER.toNat := by
      rw [← heq, UInt16.toNat_ofNat']
      norm_num
    rw [← hvalue, hmod, hword]
  · intro heq
    rw [heq, ofLe_leBytes_of_lt (by decide), UInt16.ofNat_toNat]

/-- The last four bytes of a header. -/
theorem window_toBytes (h : Header) :
    window h.toBytes 20 4 = leBytes 2 h.marker.toNat ++ leBytes 2 h.reserved.toNat := by
  have hsplit : h.toBytes = packFields (h.fields.take 4) ++
      (leBytes 2 h.marker.toNat ++ leBytes 2 h.reserved.toNat) := by
    simp [toBytes, fields, packFields_cons]
  have hlen : (packFields (h.fields.take 4)).length = 20 := by
    rw [length_packFields]
    rfl
  have key := window_append_right (packFields (h.fields.take 4))
    (leBytes 2 h.marker.toNat ++ leBytes 2 h.reserved.toNat) 0 4
  rw [hlen, ← hsplit] at key
  rw [key]
  simp [window]

end Header

section

variable [Hasher]

/-! ## Places at which nothing is found -/

theorem decodeAt_of_not_isValid {area : List UInt8} {p : Nat}
    (h : p + Header.SIZE ≤ area.length →
      (Header.ofBytes (window area p Header.SIZE)).isValid = false) :
    decodeAt area p = .ok none := by
  rw [decodeAt]
  by_cases hfit : area.length < p + Header.SIZE
  · rw [if_pos hfit]
  · rw [if_neg hfit]
    simp only [h (not_lt.mp hfit), if_true]

/-- Where the marker would be there are two other bytes. -/
theorem decodeAt_of_marker {area : List UInt8} {p : Nat}
    (h : window area (p + 20) 2 ≠ leBytes 2 Header.MARKER.toNat) :
    decodeAt area p = .ok none := by
  refine decodeAt_of_not_isValid fun hfit => Bool.eq_false_iff.mpr fun hvalid => h ?_
  have hmarker := (Header.isValid_ofBytes_iff (length_window hfit)).mp hvalid
  rwa [window_window _ (by decide)] at hmarker

theorem decodeAt_of_blank {area : List UInt8} {p : Nat} (h : area.getD (p + 20) 0 = 0) :
    decodeAt area p = .ok none := by
  refine decodeAt_of_marker fun hmarker => ?_
  have hcell := getElem?_window (m := area) (p := p + 20) (n := 2) (i := 0) (by omega)
  rw [hmarker, Nat.add_zero] at hcell
  rw [List.getD_eq_getElem?_getD, ← hcell] at h
  exact absurd h (by decide)

/-! ## The last record -/

/-- The bytes of a record from its marker on. -/
theorem getElem?_of_diskImage {area : List UInt8} {p i : Nat} {r : Record}
    (hwin : window area p r.footprint = r.diskImage) (hi : i < 4 + r.data.length) :
    area[p + (20 + i)]? = ([0x55, 0xAA, 0, 0] ++ r.data)[i]? := by
  have hlen : 20 + i < r.footprint := by
    rw [Record.footprint, Header.SIZE]
    omega
  rw [← getElem?_window hlen, hwin, Record.diskImage]
  have hmarker := Header.window_toBytes r.diskHeader
  have hbytes : leBytes 2 r.diskHeader.marker.toNat ++ leBytes 2 r.diskHeader.reserved.toNat =
      [0x55, 0xAA, 0, 0] := by
    show leBytes 2 Header.MARKER.toNat ++ leBytes 2 (0 : UInt16).toNat = _
    decide
  rw [hbytes] at hmarker
  have hhead : r.diskHeader.toBytes.length = 20 + 4 := Header.length_toBytes _
  by_cases hlow : i < 4
  · rw [List.getElem?_append_left (by omega), List.getElem?_append_left (by simpa using hlow),
      ← hmarker, getElem?_window hlow]
  · rw [List.getElem?_append_right (by omega), List.getElem?_append_right (by simpa using hlow),
      hhead]
    congr 1
    simp only [List.length_cons, List.length_nil]
    omega

/-- **A record with nothing but blanks behind it is not found further on.** -/
theorem data_ne_of_behind {area : List UInt8} {p q n : Nat} {r found : Record}
    (hwin : window area p r.footprint = r.diskImage)
    (hblank : ∀ i, p + r.footprint ≤ i → area.getD i 0 = 0) (hpq : p < q)
    (hlook : decodeAt area q = .ok (some (found, n))) : found.data ≠ r.data := by
  intro hdata
  obtain ⟨hbears, -⟩ := bears_of_decodeAt hlook
  have hfit := hbears.fits
  rw [Record.footprint] at hblank
  simp only [Header.SIZE] at hfit hblank
  -- the marker and the data at the later place
  have hmark' : area.getD (q + 21) 0 = 0xAA := by
    have hhead : (window area q Header.SIZE).length = Header.SIZE :=
      length_window (by simp only [Header.SIZE]; omega)
    have hvalid := (Header.isValid_ofBytes_iff hhead).mp hbears.isValid
    rw [window_window _ (by decide)] at hvalid
    rw [List.getD_eq_getElem?_getD, show q + 21 = q + 20 + 1 by omega,
      ← getElem?_window (n := 2) (by omega), hvalid]
    decide
  have hdata' : ∀ i < r.data.length, area.getD (q + 24 + i) 0 = r.data.getD i 0 := fun i hi => by
    have heq : r.data = window area (q + 24) found.header.size.toNat := hdata ▸ hbears.data_eq
    have hlen := congrArg List.length heq
    rw [length_window hfit] at hlen
    rw [List.getD_eq_getElem?_getD, ← getElem?_window (hlen ▸ hi), ← heq,
      ← List.getD_eq_getElem?_getD]
  have hcell : ∀ {i}, i < 4 + r.data.length →
      area.getD (p + (20 + i)) 0 = ([0x55, 0xAA, 0, 0] ++ r.data).getD i 0 := fun hi => by
    rw [List.getD_eq_getElem?_getD, List.getD_eq_getElem?_getD, getElem?_of_diskImage hwin hi]
  have hmark : area.getD (p + 21) 0 = 0xAA := hcell (i := 1) (by omega)
  -- the run from the second byte of the marker to the end of the data is not blank
  obtain ⟨i, hi, hne, hdiff⟩ := exists_not_repeated (m := area) (p := p + 21) (q := q + 21)
    (n := 3 + r.data.length) (by omega) ⟨0, by omega, by rw [Nat.add_zero, hmark]; decide⟩
    (fun i hle => hblank i (by omega))
  have hrun := hcell (i := 1 + i) (by omega)
  rw [← Nat.add_assoc, ← Nat.add_assoc, Nat.add_assoc p] at hrun
  rcases i with _ | _ | _ | i
  · rw [Nat.add_zero, Nat.add_zero, hmark, hmark'] at hdiff
    exact hdiff rfl
  · exact hne hrun
  · exact hne hrun
  · refine hdiff ?_
    rw [hrun, show q + 21 + (i + 1 + 1 + 1) = q + 24 + i by omega, hdata' i (by omega),
      show 1 + (i + 1 + 1 + 1) = i + 4 by omega]
    rfl

/-! ## The scan -/

/-- **Over records whose bytes lie end to end** the scan goes from one to the next. -/
theorem scan_of_window {area : List UInt8} {stop : Nat} {records : List Record} :
    ∀ {p : Nat}, window area p (extent Record.diskImage records) =
        lapCells Record.diskImage records →
      p + extent Record.diskImage records ≤ area.length →
        p + extent Record.diskImage records ≤ stop → (∀ r ∈ records, r.data.length < 2 ^ 32) →
          ∃ steps, (items steps).map (fun i => i.2.1) = records.map Record.stored ∧
            Scan (decodeAt area) Header.SIZE stop p steps
              (p + extent Record.diskImage records) := by
  induction records with
  | nil => exact fun _ _ _ _ => ⟨[], rfl, .nil _⟩
  | cons r records ih =>
    intro p hwin hfit hstop hshort
    obtain ⟨hfirst, hothers⟩ := window_lapCells_cons _ hwin
    rw [Record.length_diskImage] at hfirst hothers
    rw [extent_cons, Record.length_diskImage] at hfit hstop ⊢
    obtain ⟨steps, hitems, hscan⟩ := ih hothers (by omega) (by omega)
      fun s hs => hshort s (List.mem_cons_of_mem _ hs)
    have hpos := r.footprint_pos
    have hlook := decodeAt_of_window (by omega) (hshort r List.mem_cons_self) hfirst
    refine ⟨(p, some (r.stored, r.footprint)) :: steps, ?_, ?_⟩
    · rw [items_cons_some, List.map_cons, List.map_cons, hitems]
    · rw [← Nat.add_assoc]
      exact .cons (by omega) hlook hscan

theorem content_of_items {steps : List (Nat × Option (Record × Nat))} {records : List Record}
    (h : (items steps).map (fun i => i.2.1) = records.map Record.stored) :
    (items steps).map (fun i => i.2.1.content) = records.map Record.content := by
  have hcontent := congrArg (List.map Record.content) h
  simpa [List.map_map, Function.comp_def] using hcontent

/-- **The last of given records is found no earlier than its place behind the others.** -/
theorem last_le_of_content {area : List UInt8} {stop p q : Nat}
    {steps : List (Nat × Option (Record × Nat))} {init : List Record} {t : Record}
    (hscan : Scan (decodeAt area) Header.SIZE stop p steps q)
    (hcontent : (items steps).map (fun i => i.2.1.content) =
      (init ++ [t]).map Record.content) :
    ∃ b found n, p + extent Record.diskImage init ≤ b ∧
      decodeAt area b = .ok (some (found, n)) ∧ found.data = t.data := by
  rw [List.map_append, List.map_singleton] at hcontent
  obtain ⟨before, last, hitems, hbefore, hlast⟩ := List.map_eq_append_iff.mp hcontent
  obtain ⟨⟨b, found, n⟩, rfl, hfound⟩ := List.map_eq_singleton_iff.mp hlast
  have hlook : ∀ i ∈ items steps, decodeAt area i.1 = .ok (some i.2) := by
    rintro ⟨x, r, k⟩ hi
    exact (hscan.mem_range _ (mem_items.mp hi)).2.2
  refine ⟨b, found, n, ?_, hlook (b, found, n) (by simp [hitems]), congrArg Prod.fst hfound⟩
  -- the records found before it are as long as those given
  have hlengths : before.map (fun i => i.2.2) = init.map Record.footprint := by
    have hsize : ∀ i ∈ before, i.2.2 = Header.SIZE + i.2.1.content.1.length := fun i hi =>
      (decodeAt_some (hlook i (hitems ▸ List.mem_append_left _ hi))).1
    calc before.map (fun i => i.2.2)
        = before.map (fun i => Header.SIZE + i.2.1.content.1.length) := List.map_congr_left hsize
      _ = (before.map fun i => i.2.1.content).map (fun c => Header.SIZE + c.1.length) := by
          rw [List.map_map]
          rfl
      _ = init.map Record.footprint := by
          rw [hbefore, List.map_map]
          rfl
  have hle := hscan.add_sum_le hitems
  rwa [hlengths, ← extent_diskImage] at hle

/-- Records lie end to end from the front of the area on, and at no place of one of them,
`r`, is anything found.  Behind the last record all is blank. -/
structure Scarred (area : List UInt8) (front : List Record) (r : Record) (rest : List Record) :
    Prop where
  front_eq : window area 0 (extent Record.diskImage front) = lapCells Record.diskImage front
  rest_eq : window area (extent Record.diskImage front + r.footprint)
    (extent Record.diskImage rest) = lapCells Record.diskImage rest
  nothing : ∀ x, extent Record.diskImage front ≤ x →
    x < extent Record.diskImage front + r.footprint → decodeAt area x = .ok none
  blank : ∀ i, extent Record.diskImage (front ++ r :: rest) ≤ i → area.getD i 0 = 0
  fits : extent Record.diskImage (front ++ r :: rest) ≤ area.length

namespace Scarred

variable {area : List UInt8} {front rest : List Record} {r : Record} {q : Nat}
  {steps : List (Nat × Option (Record × Nat))}

theorem extent_eq (front rest : List Record) (r : Record) :
    extent Record.diskImage (front ++ r :: rest) =
      extent Record.diskImage front + r.footprint + extent Record.diskImage rest := by
  rw [extent_append, extent_cons, Record.length_diskImage, Nat.add_assoc]

/-- The scan finds the records in front of the damage and steps over it. -/
theorem scan_front (h : Scarred area front r rest) (hshort : ∀ s ∈ front, s.data.length < 2 ^ 32) :
    ∃ steps n, (items steps).map (fun i => i.2.1) = front.map Record.stored ∧
      r.footprint ≤ Header.SIZE * n ∧ Header.SIZE * n < r.footprint + Header.SIZE ∧
        Scan (decodeAt area) Header.SIZE (extent Record.diskImage (front ++ r :: rest)) 0 steps
          (extent Record.diskImage front + Header.SIZE * n) := by
  have hfits := h.fits
  rw [extent_eq] at hfits ⊢
  obtain ⟨steps, hitems, hscan⟩ := @scan_of_window _ area
    (extent Record.diskImage front + r.footprint + extent Record.diskImage rest) front 0
    h.front_eq (by omega) (by omega) hshort
  rw [Nat.zero_add] at hscan
  have hnothing : ∀ k < (r.footprint + Header.SIZE - 1) / Header.SIZE,
      extent Record.diskImage front + Header.SIZE * k <
          extent Record.diskImage front + r.footprint + extent Record.diskImage rest ∧
        decodeAt area (extent Record.diskImage front + Header.SIZE * k) = .ok none := by
    intro k hk
    have hbelow : Header.SIZE * k < r.footprint := by
      simp only [Header.SIZE] at hk ⊢
      omega
    exact ⟨by omega, h.nothing _ (by omega) (by omega)⟩
  obtain ⟨skips, hnone, hskip⟩ := Scan.over_nothing hnothing
  refine ⟨steps ++ skips, _, ?_, ?_, ?_, hscan.append hskip⟩
  · rw [items_append, hnone, List.append_nil, hitems]
  · simp only [Header.SIZE]
    omega
  · simp only [Header.SIZE]
    omega

/-- The bytes of the last record. -/
theorem window_last {init : List Record} {t : Record} (h : Scarred area front r (init ++ [t])) :
    window area (extent Record.diskImage front + r.footprint + extent Record.diskImage init)
      t.footprint = t.diskImage := by
  have hlast := (window_lapCells_append _ h.rest_eq).2
  simpa [lapCells] using hlast

/-- What is found has a length that fits the size field. -/
theorem short_of_found (hscan : Scan (decodeAt area) Header.SIZE
      (extent Record.diskImage (front ++ r :: rest)) 0 steps q)
    (hcontent : (items steps).map (fun i => i.2.1.content) =
      (front ++ rest).map Record.content) : ∀ s ∈ front ++ rest, s.data.length < 2 ^ 32 := by
  intro s hs
  have hmem := List.mem_map_of_mem (f := Record.content) hs
  rw [← hcontent] at hmem
  obtain ⟨⟨x, found, n⟩, hi, hfound⟩ := List.mem_map.mp hmem
  have hlook := (hscan.mem_range _ (mem_items.mp hi)).2.2
  obtain ⟨hbears, hn⟩ := bears_of_decodeAt hlook
  have hlen := (decodeAt_some hlook).1
  have hdata : found.data = s.data := congrArg Prod.fst hfound
  have hlt := found.header.size.toNat_lt
  rw [← hdata]
  omega

/-- **The scan finds every other record exactly when each of them fits the size field and the
damaged one takes a whole number of header lengths, or is the last.** -/
theorem finds_others_iff (h : Scarred area front r rest)
    (hscan : Scan (decodeAt area) Header.SIZE (extent Record.diskImage (front ++ r :: rest)) 0
      steps q)
    (hdone : Done (decodeAt area) (extent Record.diskImage (front ++ r :: rest)) q) :
    (¬ q < extent Record.diskImage (front ++ r :: rest) ∧
        (items steps).map (fun i => i.2.1.content) = (front ++ rest).map Record.content) ↔
      (∀ s ∈ front ++ rest, s.data.length < 2 ^ 32) ∧
        (Header.SIZE ∣ r.data.length ∨ rest = []) := by
  have hstop := extent_eq front rest r
  have hfits := h.fits
  constructor
  · rintro ⟨-, hcontent⟩
    have hshort := short_of_found hscan hcontent
    refine ⟨hshort, ?_⟩
    obtain ⟨before, n, hbefore, hle, hlt, hover⟩ :=
      h.scan_front fun s hs => hshort s (List.mem_append_left _ hs)
    obtain ⟨after, rfl, hafter⟩ := hscan.extend hdone hover
    rw [items_append, List.map_append, List.map_append] at hcontent
    rw [content_of_items hbefore] at hcontent
    have hrest := List.append_cancel_left hcontent
    rcases List.eq_nil_or_concat' rest with rfl | ⟨init, t, rfl⟩
    · exact Or.inr rfl
    refine Or.inl ?_
    by_contra hnot
    -- the scan has gone past the beginning of the first record behind the damage
    have hpast : r.footprint < Header.SIZE * n := by
      refine lt_of_le_of_ne hle fun heq => hnot ?_
      rw [Record.footprint] at heq
      exact (Nat.dvd_add_right (dvd_refl _)).mp (Dvd.intro n heq.symm)
    obtain ⟨b, found, k, hb, hlook, hdata⟩ := last_le_of_content hafter hrest
    have hend : extent Record.diskImage (front ++ r :: (init ++ [t])) =
        extent Record.diskImage front + r.footprint + extent Record.diskImage init +
          t.footprint := by
      rw [hstop, extent_append, extent_cons, extent_nil, Record.length_diskImage, Nat.add_zero,
        Nat.add_assoc (extent Record.diskImage front + r.footprint)]
    refine data_ne_of_behind h.window_last (fun i hi => h.blank i ?_) ?_ hlook hdata
    · rwa [hend]
    · omega
  · rintro ⟨hshort, hcond⟩
    obtain ⟨before, n, hbefore, hle, hlt, hover⟩ :=
      h.scan_front fun s hs => hshort s (List.mem_append_left _ hs)
    obtain ⟨after, rfl, hafter⟩ := hscan.extend hdone hover
    rw [items_append, List.map_append, List.map_append, content_of_items hbefore]
    by_cases hnil : rest = []
    · -- the damaged record is the last: the scan is at the stop or beyond it
      subst hnil
      rw [extent_nil, Nat.add_zero] at hstop
      obtain ⟨rfl, rfl⟩ := hafter.eq_of_stop_le (by omega)
      exact ⟨by omega, rfl⟩
    · -- the scan has come to the first record behind the damage
      have hexact : Header.SIZE * n = r.footprint := by
        obtain ⟨k, hk⟩ := hcond.resolve_right hnil
        rw [Record.footprint, hk] at hle hlt ⊢
        simp only [Header.SIZE] at hle hlt ⊢
        omega
      rw [hexact] at hafter
      obtain ⟨steps, hitems, hothers⟩ := scan_of_window h.rest_eq (by omega) hstop.ge
        fun s hs => hshort s (List.mem_append_right _ hs)
      rw [← hstop] at hothers
      obtain ⟨more, rfl, hmore⟩ := hafter.extend hdone hothers
      obtain ⟨rfl, rfl⟩ := hmore.eq_of_stop_le le_rfl
      rw [List.append_nil, content_of_items hitems]
      exact ⟨lt_irrefl _, rfl⟩

end Scarred

/-! ## The buffer with the damage -/

namespace PersistentRingBuffer

/-- The buffer after the marker of the header at `p` was overwritten. -/
def withMarker (b : PersistentRingBuffer) (p : Nat) (marker : UInt16) : PersistentRingBuffer :=
  b.damaged (p + 20) (leBytes 2 marker.toNat)

/-- In its first lap a log has left the area blank behind its records. -/
theorem Represents.blank_of_firstLap {b : PersistentRingBuffer} {records : List Record}
    (hb : b.Represents ⟨[], records⟩) {i : Nat} (hi : extent Record.diskImage records ≤ i) :
    b.area.getD i 0 = 0 := by
  have harea : b.area = lapCells Record.diskImage records ++
      List.replicate (b.size - extent Record.diskImage records) 0 := by
    rw [hb.area_eq, Log.cells, image, overlay, image, List.drop_replicate]
    rfl
  rw [List.getD_eq_getElem?_getD, harea, List.getElem?_append_right hi, List.getElem?_replicate]
  split <;> rfl

/-- **Overwriting a marker leaves a scar**, if no header shows up inside the record. -/
theorem Represents.scarred {b : PersistentRingBuffer} {front rest : List Record} {r : Record}
    (hb : b.Represents ⟨[], front ++ r :: rest⟩) {marker : UInt16}
    (hmarker : marker ≠ Header.MARKER)
    (hclean : ∀ x, extent Record.diskImage front < x →
      x < extent Record.diskImage front + r.footprint → x + Header.SIZE ≤ b.size →
        (Header.ofBytes (window (b.withMarker (extent Record.diskImage front) marker).area x
          Header.SIZE)).isValid = false) :
    Scarred (b.withMarker (extent Record.diskImage front) marker).area front r rest := by
  have hfits : extent Record.diskImage (front ++ r :: rest) ≤ b.size :=
    hb.fits _ (List.mem_cons_self ..)
  have hstop := Scarred.extent_eq front rest r
  have hlen := hb.sound.length_area
  have hcells : window b.area 0 (extent Record.diskImage (front ++ r :: rest)) =
      lapCells Record.diskImage (front ++ r :: rest) := by
    rw [hb.area_eq]
    exact Log.window_cells_lap ⟨[], front ++ r :: rest⟩ _
  obtain ⟨hfront, hbehind⟩ := window_lapCells_append _ hcells
  have hrest := (window_lapCells_cons _ hbehind).2
  rw [Nat.zero_add, Record.length_diskImage] at hrest
  have hdamaged : (b.withMarker (extent Record.diskImage front) marker).area =
      overwrite b.area (extent Record.diskImage front + 20) (leBytes 2 marker.toNat) :=
    hb.sound.area_damaged
  have hfoot : 24 ≤ r.footprint := Nat.le_add_right 24 _
  have hroom : extent Record.diskImage front + 20 + (leBytes 2 marker.toNat).length ≤
      b.area.length := by
    rw [length_leBytes]
    omega
  have hsame : ∀ {q n}, q + n ≤ extent Record.diskImage front + 20 ∨
      extent Record.diskImage front + 22 ≤ q →
        window (overwrite b.area (extent Record.diskImage front + 20) (leBytes 2 marker.toNat))
          q n = window b.area q n := fun hapart =>
    window_overwrite_of_disjoint hroom (by rwa [length_leBytes])
  rw [hdamaged] at hclean ⊢
  constructor
  · rw [hsame (Or.inl (by omega)), hfront]
  · rw [hsame (Or.inr (by omega)), hrest]
  · intro x hle hlt
    rcases Nat.eq_or_lt_of_le hle with rfl | hinside
    · -- the header itself
      refine decodeAt_of_marker ?_
      have hself := window_overwrite_self hroom
      rw [length_leBytes] at hself
      rw [hself]
      exact fun heq => hmarker (UInt16.toNat_inj.mp
        (leBytes_injective_of_lt marker.toNat_lt Header.MARKER.toNat_lt heq))
    · refine decodeAt_of_not_isValid fun hfit => hclean x hinside hlt ?_
      rwa [length_overwrite hroom, hlen] at hfit
  · intro i hi
    rw [List.getD_eq_getElem?_getD, getElem?_overwrite_of_behind hroom
      (by rw [length_leBytes]; omega), ← List.getD_eq_getElem?_getD]
    exact hb.blank_of_firstLap hi
  · rwa [length_overwrite hroom, hlen]

end PersistentRingBuffer

/-! ## Runs without a wrap -/

namespace Live

/-- A call that starts no lap leaves the laps started to the rest of the run. -/
theorem lapsStarted_cons (b : Live) {op : Op} {ops : List Op} (h : b.lapsStarted (op :: ops) = 0) :
    b.startsLap op = false ∧ (b.step op).lapsStarted ops = 0 := by
  rw [lapsStarted, lapEnds] at h
  by_cases hstarts : b.startsLap op = true
  · obtain ⟨e, ends, hends, -⟩ := (b.step op).writePos_le_lapEnds ops
    rw [if_pos hstarts, hends] at h
    cases h
  · rw [if_neg hstarts] at h
    exact ⟨Bool.eq_false_iff.mpr hstarts, h⟩

/-- One write that starts no lap: the record is appended if it is accepted. -/
theorem step_write_of_not_startsLap (b : Live) {r : Record} {sys : Sys}
    (h : b.startsLap (.write r sys) = false) :
    (b.step (.write r sys)).log =
        { b.log with lap := b.log.lap ++ Op.accepted b.buf.size [.write r sys] } ∧
      (b.step (.write r sys)).readPos = b.readPos := by
  by_cases hr : r.footprint ≤ b.buf.size
  · rw [b.startsLap_write hr, decide_eq_false_iff_not, not_not] at h
    refine ⟨?_, b.readPos_step_write hr sys⟩
    rw [b.log_step_write hr, Log.push_of_hasRoom h]
    simp [Op.accepted, hr]
  · have hlog : (b.step (.write r sys)).log = b.log := if_neg hr
    have hcontrol := b.control_step (.write r sys)
    rw [unsealed, if_pos (by omega), Option.map_none, Option.getD_none] at hcontrol
    refine ⟨?_, by rw [readPos, hcontrol, readPos]⟩
    rw [hlog]
    simp [Op.accepted, hr]

/-- **A run of writes without a wrap** appends the records that are accepted, and leaves the
read position alone. -/
theorem after_writes_of_lapsStarted {writes : List (Record × Sys)} : ∀ {b : Live},
    b.lapsStarted (writes.map fun w => .write w.1 w.2) = 0 →
      (b.after (writes.map fun w => .write w.1 w.2)).log = { b.log with
          lap := b.log.lap ++ Op.accepted b.buf.size (writes.map fun w => .write w.1 w.2) } ∧
        (b.after (writes.map fun w => .write w.1 w.2)).readPos = b.readPos := by
  induction writes with
  | nil =>
    intro b _
    exact ⟨by simp [Op.accepted], rfl⟩
  | cons w writes ih =>
    intro b hlaps
    obtain ⟨hstarts, hrest⟩ := b.lapsStarted_cons hlaps
    obtain ⟨hlog, hread⟩ := b.step_write_of_not_startsLap hstarts
    obtain ⟨hlog', hread'⟩ := ih hrest
    rw [List.map_cons, after_cons]
    refine ⟨?_, hread'.trans hread⟩
    rw [hlog', hlog, size_step, List.append_assoc]
    simp only [Op.accepted, ← List.filterMap_append, List.singleton_append]

end Live

/-! ## `read_all` and the cursor -/

namespace PersistentRingBuffer

variable {b : PersistentRingBuffer} {q : Nat} {steps : List (Nat × Option (Record × Nat))}

/-- `read_all` returns no records when its flush fails. -/
theorem readAll_of_not_flush {sys : Sys} (hflush : sys.flush = false)
    (hne : b.control.readPos ≠ b.control.writePos) {found : List Record}
    {b' : PersistentRingBuffer} : b.readAll sys ≠ some (.ok found, b') := by
  intro hread
  rw [readAll, if_neg hne] at hread
  split at hread
  · cases hread
  · cases hread
  · obtain ⟨⟨res, b''⟩, hstore, hres⟩ := Option.map_eq_some_iff.mp hread
    obtain ⟨mmap, -, hpair⟩ := Option.map_eq_some_iff.mp hstore
    obtain ⟨rfl, -⟩ := Prod.mk.inj hpair
    rw [flushed, hflush] at hres
    cases (Prod.mk.inj hres).1

/-- **A cursor yields what the scan of `read_all` finds** when all is blank behind the write
position. -/
theorem yields_of_blank (hb : b.Sound) (hw : b.control.writePos.toNat ≤ b.size)
    (hblank : ∀ i, b.control.writePos.toNat ≤ i → b.area.getD i 0 = 0)
    (hscan : Scan (decodeAt b.area) Header.SIZE b.control.writePos.toNat 0 steps q)
    (hdone : Done (decodeAt b.area) b.control.writePos.toNat q)
    (hpos : 0 < b.control.writePos.toNat) {c : Cursor} (hc : c.On b 0) (found : List Record) :
    Cursor.Yields b c found ↔
      ¬ q < b.control.writePos.toNat ∧ found = (items steps).map fun i => i.2.1 := by
  have hlt := hb.size_lt
  have hmax := scan_le hb hw hscan (Nat.zero_le _)
  simp only [ControlBlock.SIZE, Header.SIZE] at hlt hmax
  have hbeyond : ∀ rest, Cursor.Beyond b steps q rest ↔
      ¬ q < b.control.writePos.toNat ∧ rest = [] := by
    intro rest
    rw [Cursor.Beyond]
    by_cases hbelow : q < b.control.writePos.toNat
    · simp [hbelow]
    · rw [if_neg hbelow]
      split
      · simp [hbelow]
      · have hon : (⟨⟨UInt64.ofNat q, b.control.wrapCount⟩, false⟩ : Cursor).On b q :=
          ⟨rfl, rfl, rfl⟩
        rw [hon.yields_end hb (by simp only [Header.SIZE]; omega)
          (decodeAt_of_blank (hblank _ (by omega))) (by omega)]
        simp [hbelow]
  rw [Cursor.yields_of_scan hb hw hscan hdone (by decide) hpos.ne hc]
  simp only [hbeyond]
  constructor
  · rintro ⟨rest, rfl, hq, rfl⟩
    exact ⟨hq, List.append_nil _⟩
  · rintro ⟨hq, rfl⟩
    exact ⟨[], (List.append_nil _).symm, hq, rfl⟩

/-- **The other records are returned** under the condition of the scan. -/
theorem recovers_of_scarred (hb : b.Sound) {front rest : List Record} {r : Record}
    (hscar : Scarred b.area front r rest)
    (hwrite : b.control.writePos.toNat = extent Record.diskImage (front ++ r :: rest))
    (hread : b.control.readPos = 0) (hwrap : b.control.wrapCount = 0) (last : Sys) :
    ((∃ found b', b.readAll last = some (.ok found, b') ∧
        found.map Record.content = (front ++ rest).map Record.content) ↔
      last.flush = true ∧ (∀ s ∈ front ++ rest, s.data.length < 2 ^ 32) ∧
        (Header.SIZE ∣ r.data.length ∨ rest = [])) ∧
    ((∃ found c, Cursor.Drains b (Cursor.new b (some ⟨0, 0⟩)) found c ∧
        found.map Record.content = (front ++ rest).map Record.content) ↔
      (∀ s ∈ front ++ rest, s.data.length < 2 ^ 32) ∧
        (Header.SIZE ∣ r.data.length ∨ rest = [])) := by
  have hw : b.control.writePos.toNat ≤ b.size := by
    rw [hwrite, ← hb.length_area]
    exact hscar.fits
  have hpos : 0 < b.control.writePos.toNat := by
    rw [hwrite, Scarred.extent_eq, Record.footprint, Header.SIZE]
    omega
  have hne : (0 : UInt64) ≠ b.control.writePos := fun heq => by
    rw [← heq] at hpos
    exact absurd hpos (by decide)
  obtain ⟨steps, q, hscan, hdone, hq, hloop, -⟩ := readLoop_eq hb hw b.control.readPos
  have hzero : b.control.readPos.toNat = 0 := by
    rw [hread]
    rfl
  have hcore := hscar.finds_others_iff (hwrite ▸ hzero ▸ hscan) (hwrite ▸ hdone)
  rw [← hwrite] at hcore
  constructor
  · rw [← hcore]
    constructor
    · rintro ⟨found, b', hall, hcontent⟩
      have hflush : last.flush = true := by
        by_contra hno
        exact readAll_of_not_flush (by simpa using hno) (by rwa [hread]) hall
      obtain ⟨hend, rfl⟩ := (readAll_ok_iff hb hflush hscan hloop found).mp ⟨b', hall⟩
      exact ⟨hflush, hend, by rwa [List.map_map] at hcontent⟩
    · rintro ⟨hflush, hend, hcontent⟩
      obtain ⟨b', hall⟩ := (readAll_ok_iff hb hflush hscan hloop _).mpr ⟨hend, rfl⟩
      exact ⟨_, b', hall, by rwa [List.map_map]⟩
  · have hon : (Cursor.new b (some ⟨0, 0⟩)).On b 0 :=
      ⟨rfl, hwrap.symm, by simp [Cursor.new, hne]⟩
    have hyields := yields_of_blank hb hw (fun i hi => hscar.blank i (hwrite ▸ hi))
      (hzero ▸ hscan) hdone hpos hon
    rw [← hcore]
    constructor
    · rintro ⟨found, c, hdrains, hcontent⟩
      obtain ⟨hend, rfl⟩ := (hyields found).mp ⟨c, hdrains⟩
      exact ⟨hend, by rwa [List.map_map] at hcontent⟩
    · rintro ⟨hend, hcontent⟩
      obtain ⟨c, hdrains⟩ := (hyields _).mpr ⟨hend, rfl⟩
      exact ⟨_, c, hdrains, by rwa [List.map_map]⟩

end PersistentRingBuffer

namespace Live

/-- **Reading on behind a damaged header.**  In every run of writes without a wrap on a fresh
buffer, let the marker of any record be overwritten with another value, so that no header
shows up inside that record.  Then `read_all` returns all the other records, in order, exactly
when its flush succeeds, each of them is shorter than 4 GiB, and the data of the damaged one
takes a whole number of header lengths, or nothing follows it; and, but for the flush, so does
a cursor drained from offset 0. -/
theorem recovers_iff (size : Nat) (h : ControlBlock.SIZE + size < 2 ^ 63) (sys : Sys)
    (writes : List (Record × Sys)) (front rest : List Record) (r : Record) (marker : UInt16)
    (last : Sys) :
    let ops := writes.map fun w => Op.write w.1 w.2
    let p := (front.map Record.footprint).sum
    let b := ((fresh size h sys).after ops).buf.withMarker p marker
    (fresh size h sys).lapsStarted ops = 0 → Op.accepted size ops = front ++ r :: rest →
      marker ≠ Header.MARKER →
      (∀ x, p < x → x < p + r.footprint → x + Header.SIZE ≤ size →
        (Header.ofBytes (window b.area x Header.SIZE)).isValid = false) →
      ((∃ found b', b.readAll last = some (.ok found, b') ∧
          found.map Record.content = (front ++ rest).map Record.content) ↔
        last.flush = true ∧ (∀ s ∈ front ++ rest, s.data.length < 2 ^ 32) ∧
          (Header.SIZE ∣ r.data.length ∨ rest = [])) ∧
      ((∃ found c, Cursor.Drains b (Cursor.new b (some ⟨0, 0⟩)) found c ∧
          found.map Record.content = (front ++ rest).map Record.content) ↔
        (∀ s ∈ front ++ rest, s.data.length < 2 ^ 32) ∧
          (Header.SIZE ∣ r.data.length ∨ rest = [])) := by
  intro ops p b hlaps hrun hmarker hclean
  have hp : p = extent Record.diskImage front := (extent_diskImage front).symm
  obtain ⟨hlog, hread⟩ := after_writes_of_lapsStarted hlaps
  have hrep := ((fresh size h sys).after ops).represents
  have hlap : ((fresh size h sys).after ops).log = ⟨[], front ++ r :: rest⟩ := by
    rw [hlog]
    show (⟨[], [] ++ Op.accepted size ops⟩ : Log Record) = _
    rw [hrun, List.nil_append]
  rw [hlap] at hrep
  have hsize : ((fresh size h sys).after ops).buf.size = size := size_after ..
  have hfits : extent Record.diskImage (front ++ r :: rest) ≤ size :=
    hsize ▸ hrep.fits _ (List.mem_cons_self ..)
  rw [Scarred.extent_eq, Record.footprint, Header.SIZE] at hfits
  refine recovers_of_scarred (hrep.sound.damaged ?_) ?_ hrep.writePos_eq
    (UInt64.toNat_inj.mp hread) hrep.wrapCount_eq last
  · rw [hsize, hp, length_leBytes]
    omega
  · simp only [b, hp] at hclean ⊢
    exact hrep.scarred hmarker (by rwa [hsize])

end Live

end

namespace Live

section Ieee

attribute [local instance] Hasher.ieee

/-- A damaged record with 24 bytes of data, and another behind it. -/
theorem recovers_of_aligned :
    let record := Record.new (List.replicate 24 1) 7 0
    let other := Record.new [2] 8 0
    let b := ((fresh 100 (by decide) Sys.ok).after (Op.writes [record, other])).buf.withMarker 0 0
    (∃ found b', b.readAll Sys.ok = some (.ok found, b') ∧
      found.map Record.content = [other.content]) ∧
    ∃ found c, Cursor.Drains b (Cursor.new b (some ⟨0, 0⟩)) found c ∧
      found.map Record.content = [other.content] := by
  intro record other b
  have hclean : ∀ x < 48, 0 < x →
      (Header.ofBytes (window b.area x Header.SIZE)).isValid = false := by
    decide +kernel
  have key := recovers_iff 100 (by decide) Sys.ok [(record, Sys.ok), (other, Sys.ok)] [] [other]
    record 0 Sys.ok (by decide +kernel) (by decide +kernel) (by decide)
    (fun x hpos hlt _ => hclean x hlt hpos)
  have hcond : (∀ s ∈ [other], s.data.length < 2 ^ 32) ∧
      (Header.SIZE ∣ record.data.length ∨ [other] = []) := by
    decide
  exact ⟨key.1.mpr ⟨rfl, hcond⟩, key.2.mpr hcond⟩

/-- A damaged record with one byte of data, and another behind it: `read_all` and the cursor
step past the beginning of the other, and return nothing. -/
theorem not_recovers_of_misaligned :
    let record := Record.new [1] 7 0
    let other := Record.new [2] 8 0
    let ops := Op.writes [record, other]
    let b := ((fresh 100 (by decide) Sys.ok).after ops).buf.withMarker 0 0
    ((fresh 100 (by decide) Sys.ok).lapsStarted ops = 0 ∧
      Op.accepted 100 ops = [record, other] ∧
      ∀ x < 25, 0 < x → (Header.ofBytes (window b.area x Header.SIZE)).isValid = false) ∧
    (¬ ∃ found b', b.readAll Sys.ok = some (.ok found, b') ∧
      found.map Record.content = [other.content]) ∧
    (∃ b', b.readAll Sys.ok = some (.ok [], b')) ∧
      ∃ c, Cursor.Drains b (Cursor.new b (some ⟨0, 0⟩)) [] c := by
  intro record other ops b
  have hread : (b.readAll Sys.ok).map Prod.fst = some (.ok []) := by
    decide +kernel
  refine ⟨⟨by decide +kernel, by decide +kernel, by decide +kernel⟩, ?_, ?_, ?_⟩
  · rintro ⟨found, b', hall, hcontent⟩
    rw [hall] at hread
    obtain rfl : found = [] := Except.ok.inj (Option.some.inj hread)
    cases hcontent
  · obtain ⟨⟨res, b'⟩, hall, rfl⟩ := Option.map_eq_some_iff.mp hread
    exact ⟨b', hall⟩
  · have hnext : ((Cursor.new b (some ⟨0, 0⟩)).next b).map Prod.fst = some (.ok none) := by
      decide +kernel
    obtain ⟨⟨res, c⟩, hcall, rfl⟩ := Option.map_eq_some_iff.mp hnext
    exact ⟨c, _, .nil _, hcall⟩

end Ieee

end Live

end Sherlog
