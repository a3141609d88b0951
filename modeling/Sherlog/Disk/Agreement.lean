import Sherlog.Disk.Next
import Sherlog.Disk.Scan
import Sherlog.Lib.Machine

/-!
# Do `read_all` and a new cursor agree?

Both go from record to record, from the read position on.  `read_all` stops at the first
position that is not below the write position; the cursor, having returned a record, stops
only at the write position itself.

* `PersistentRingBuffer.Agree` — draining a new cursor yields what `read_all` returns.
* `Overshoots` — a position beyond the write position is come to from a record, or is the
  read position itself, and there is something to read there.
* `Cursor.yields_of_scan` — the cursor follows the scan of `read_all` as long as that goes
  on, and may go further.
* `Live.agree_iff` — the two agree exactly when nothing overshoots.
-/

namespace Sherlog

open Scanning PersistentRingBuffer

section

variable [Hasher]

namespace PersistentRingBuffer

/-- Draining a new cursor yields exactly the records that `read_all` would return. -/
def Agree (b : PersistentRingBuffer) (sys : Sys) : Prop :=
  ∀ found, (∃ last, Cursor.Drains b (Cursor.new b none) found last) ↔
    ∃ b', b.readAll sys = some (.ok found, b')

/-- Going from the read position below the write position from record to record, or over a
header's length where there is none, as long as that stays below: the positions come to. -/
inductive Reaches (b : PersistentRingBuffer) : UInt64 → Prop
  | start : Reaches b b.control.readPos
  | record {p : UInt64} {r : Record} {n : Nat} : Reaches b p → p < b.control.writePos →
      b.readAt p = some (.ok (some (r, n))) → Reaches b (p + UInt64.ofNat n)
  | skip {p : UInt64} : Reaches b p → p < b.control.writePos → b.readAt p = some (.ok none) →
      p + UInt64.ofNat Header.SIZE < b.control.writePos →
        Reaches b (p + UInt64.ofNat Header.SIZE)

/-- A position beyond the write position is come to, and there is something to read. -/
def Overshoots (b : PersistentRingBuffer) : Prop :=
  ∃ p, b.Reaches p ∧ b.control.writePos < p ∧ b.readAt p ≠ some (.ok none)

end PersistentRingBuffer

namespace Cursor

variable {b : PersistentRingBuffer} {c c' : Cursor}

/-- The records that draining a cursor yields. -/
def Yields (b : PersistentRingBuffer) (c : Cursor) (found : List Record) : Prop :=
  ∃ last, Drains b c found last

/-- The cursor stands at an offset of the current lap, and is not at the end. -/
structure On (c : Cursor) (b : PersistentRingBuffer) (p : Nat) : Prop where
  offset_eq : c.position.offset = UInt64.ofNat p
  wrapCount_eq : c.position.wrapCount = b.control.wrapCount
  atEnd_eq : c.atEnd = false

/-! ## One call of `next` -/

theorem yields_of_atEnd (h : c.atEnd = true) (found : List Record) :
    Yields b c found ↔ found = [] := by
  constructor
  · rintro ⟨last, hdrains⟩
    exact (drains_nil_of_atEnd h hdrains).1
  · rintro rfl
    exact ⟨c, drains_of_atEnd h⟩

theorem yields_of_error {e : PersistentError} (hnext : c.next b = some (.error e, c'))
    (found : List Record) : ¬ Yields b c found := by
  rintro ⟨last, d, hreads, hend⟩
  cases hreads with
  | nil =>
    rw [hnext] at hend
    cases hend
  | cons hfirst _ =>
    rw [hnext] at hfirst
    cases hfirst

theorem yields_of_none (hnext : c.next b = some (.ok none, c')) (found : List Record) :
    Yields b c found ↔ found = [] := by
  constructor
  · rintro ⟨last, d, hreads, -⟩
    cases hreads with
    | nil => rfl
    | cons hfirst _ =>
      rw [hnext] at hfirst
      cases hfirst
  · rintro rfl
    exact ⟨c', c, .nil c, hnext⟩

theorem yields_of_record {r : Record} (hnext : c.next b = some (.ok (some r), c'))
    (found : List Record) : Yields b c found ↔ ∃ rest, found = r :: rest ∧ Yields b c' rest := by
  constructor
  · rintro ⟨last, d, hreads, hend⟩
    cases hreads with
    | nil =>
      rw [hnext] at hend
      cases hend
    | cons hfirst hreads =>
      rw [hnext] at hfirst
      obtain ⟨hr, rfl⟩ := Prod.mk.inj (Option.some.inj hfirst)
      obtain rfl : r = _ := by simpa using hr
      exact ⟨_, rfl, last, d, hreads, hend⟩
  · rintro ⟨rest, rfl, last, d, hreads, hend⟩
    exact ⟨last, d, .cons hnext hreads, hend⟩

/-- What a cursor yields depends on its calls of `next` alone. -/
theorem yields_congr (h : c.next b = c'.next b) (found : List Record) :
    Yields b c found ↔ Yields b c' found := by
  rcases hnext : c'.next b with _ | ⟨e | _ | r, d⟩
  · constructor <;>
    · rintro ⟨last, d, hreads, hend⟩
      cases hreads <;> simp_all
  · simp only [yields_of_error hnext, yields_of_error (h.trans hnext)]
  · rw [yields_of_none hnext, yields_of_none (h.trans hnext)]
  · rw [yields_of_record hnext, yields_of_record (h.trans hnext)]

/-! ## Along the scan -/

section

variable {p q : Nat} {steps : List (Nat × Option (Record × Nat))}

theorem On.readAt (hc : c.On b p) (hb : b.Sound) (hp : p < 2 ^ 64) :
    b.readAt c.position.offset = some (decodeAt b.area p) := by
  rw [hc.offset_eq, readAt_ofNat hb hp]

omit [Hasher] in
/-- Over nothing a cursor of the current lap steps on, until it is not below the write
position. -/
theorem On.skip_eq (hc : c.On b p) (hp : p + Header.SIZE < 2 ^ 64) :
    skip b c = ⟨⟨UInt64.ofNat (p + Header.SIZE), b.control.wrapCount⟩,
      decide (b.control.writePos.toNat ≤ p + Header.SIZE)⟩ := by
  have hreach : (b.control.writePos ≤ UInt64.ofNat (p + Header.SIZE)) ↔
      b.control.writePos.toNat ≤ p + Header.SIZE := by
    rw [UInt64.le_iff_toNat_le, UInt64.toNat_ofNat', Nat.mod_eq_of_lt hp]
  rw [skip, settle_of_lap (by rw [hc.wrapCount_eq]; exact UInt64.le_refl _)]
  simp only [hc.offset_eq, hc.wrapCount_eq, ← UInt64.ofNat_add, hreach]

theorem On.yields_error (hc : c.On b p) (hb : b.Sound) (hp : p < 2 ^ 64) {e : PersistentError}
    (hlook : decodeAt b.area p = .error e) (found : List Record) : ¬ Yields b c found := by
  have hread := hc.readAt hb hp
  rw [hlook] at hread
  exact yields_of_error (next_of_error hc.atEnd_eq hread) found

/-- At the end of the lap a step over nothing ends the drain. -/
theorem On.yields_end (hc : c.On b p) (hb : b.Sound) (hp : p + Header.SIZE < 2 ^ 64)
    (hlook : decodeAt b.area p = .ok none) (hend : b.control.writePos.toNat ≤ p + Header.SIZE)
    (found : List Record) : Yields b c found ↔ found = [] := by
  have hread := hc.readAt hb (by omega)
  rw [hlook] at hread
  have hskip : (skip b c).atEnd = true := by
    rw [hc.skip_eq hp]
    exact decide_eq_true hend
  exact yields_of_none ((next_of_nothing hc.atEnd_eq hread).trans (next_of_atEnd hskip)) found

/-- Before it, the cursor does what it would do from the next position. -/
theorem On.yields_skip (hc : c.On b p) (hb : b.Sound)
    (hlook : decodeAt b.area p = .ok none) (hlt : p + Header.SIZE < b.control.writePos.toNat) :
    ∃ d : Cursor, d.On b (p + Header.SIZE) ∧ ∀ found, Yields b c found ↔ Yields b d found := by
  have hp := b.control.writePos.toNat_lt
  have hread := hc.readAt hb (by omega)
  rw [hlook] at hread
  refine ⟨skip b c, ?_, yields_congr (next_of_nothing hc.atEnd_eq hread)⟩
  rw [hc.skip_eq (by omega), decide_eq_false (not_le.mpr hlt)]
  exact ⟨rfl, rfl, rfl⟩

/-- A record is returned, and the cursor stands behind it, at the end if that is the write
position. -/
theorem On.yields_record (hc : c.On b p) (hb : b.Sound) (hp : p < 2 ^ 64) {r : Record} {n : Nat}
    (hlook : decodeAt b.area p = .ok (some (r, n))) (hn : p + n < 2 ^ 64) :
    ∃ d : Cursor, (if p + n = b.control.writePos.toNat then d.atEnd = true else d.On b (p + n)) ∧
      ∀ found, Yields b c found ↔ ∃ rest, found = r :: rest ∧ Yields b d rest := by
  have hread := hc.readAt hb hp
  rw [hlook] at hread
  refine ⟨_, ?_, yields_of_record (next_of_record hc.atEnd_eq hread)⟩
  have hreach : UInt64.ofNat p + UInt64.ofNat n = b.control.writePos ↔
      p + n = b.control.writePos.toNat := by
    rw [← UInt64.ofNat_add, ← UInt64.toNat_inj, UInt64.toNat_ofNat', Nat.mod_eq_of_lt hn]
  split
  · next heq => simp [settle, hc.offset_eq, hc.wrapCount_eq, hreach.mpr heq]
  · next hne =>
    refine ⟨by simp [settle, hc.offset_eq], hc.wrapCount_eq, ?_⟩
    simp [settle, hc.offset_eq, hc.wrapCount_eq, mt hreach.mp hne]

omit [Hasher] in
theorem On.eq (hc : c.On b p) : c = ⟨⟨UInt64.ofNat p, b.control.wrapCount⟩, false⟩ := by
  obtain ⟨⟨offset, wrapCount⟩, atEnd⟩ := c
  obtain ⟨rfl, rfl, rfl⟩ := hc
  rfl

/-- What a cursor yields when the scan it has followed is done: nothing more, unless the scan
has gone past the write position over a record. -/
def Beyond (b : PersistentRingBuffer) (steps : List (Nat × Option (Record × Nat))) (q : Nat)
    (rest : List Record) : Prop :=
  if q < b.control.writePos.toNat then False
  else if q = b.control.writePos.toNat ∨ endsOnNothing steps = true then rest = []
  else Yields b ⟨⟨UInt64.ofNat q, b.control.wrapCount⟩, false⟩ rest

/-- **The cursor follows the scan of `read_all`**, record by record. -/
theorem yields_of_scan (hb : b.Sound) (hw : b.control.writePos.toNat ≤ b.size)
    (hscan : Scan (decodeAt b.area) Header.SIZE b.control.writePos.toNat p steps q) :
    Done (decodeAt b.area) b.control.writePos.toNat q → p + Header.SIZE < 2 ^ 64 →
      p ≠ b.control.writePos.toNat → ∀ {c : Cursor}, c.On b p → ∀ found,
        Yields b c found ↔
          ∃ rest, found = (items steps).map (fun i => i.2.1) ++ rest ∧ Beyond b steps q rest := by
  have hlen := hb.length_area
  have hlt := hb.size_lt
  simp only [ControlBlock.SIZE] at hlt
  induction hscan with
  | nil p =>
    intro hdone hp hne c hc found
    by_cases hbelow : p < b.control.writePos.toNat
    · obtain ⟨e, herror⟩ := hdone hbelow
      simp [hc.yields_error hb (by omega) herror, Beyond, hbelow]
    · simp [Beyond, hbelow, hne, endsOnNothing, hc.eq]
  | @cons p q found₀ steps hstop hlook hrest ih =>
    intro hdone hp hne c hc found
    rcases found₀ with _ | ⟨r, n⟩
    · -- nothing here: the drain ends, or goes on from the next position
      have hgo : p + advance Header.SIZE (none : Option (Record × Nat)) = p + Header.SIZE := rfl
      rw [hgo] at hrest ih
      by_cases hend : b.control.writePos.toNat ≤ p + Header.SIZE
      · obtain ⟨rfl, rfl⟩ := hrest.eq_of_stop_le hend
        rw [hc.yields_end hb hp hlook hend]
        simp [Beyond, hend, endsOnNothing]
      · obtain ⟨d, hd, hsame⟩ := hc.yields_skip hb hlook (not_le.mp hend)
        have key := ih hdone (by simp only [Header.SIZE] at hend ⊢; omega) (by omega) hd found
        have hsteps : steps ≠ [] ∨ q < b.control.writePos.toNat := by
          rcases steps with _ | ⟨s, steps⟩
          · cases hrest
            exact Or.inr (by omega)
          · exact Or.inl (List.cons_ne_nil _ _)
        rw [hsame, key, items_cons_none]
        rcases hsteps with hsteps | hq
        · simp only [Beyond, endsOnNothing_cons_of_ne_nil _ hsteps]
        · simp only [Beyond, hq, if_true]
    · -- a record: it is returned, and the cursor stands behind it
      have hle := (decodeAt_some hlook).2
      have hgo : p + advance Header.SIZE (some (r, n)) = p + n := rfl
      rw [hgo] at hrest ih
      obtain ⟨d, hd, hsame⟩ := hc.yields_record hb (by omega) hlook (by omega)
      rw [hsame, items_cons_some]
      simp only [List.map_cons, List.cons_append, Beyond, endsOnNothing_cons_some]
      by_cases hend : p + n = b.control.writePos.toNat
      · rw [if_pos hend] at hd
        obtain ⟨rfl, rfl⟩ := hrest.eq_of_stop_le hend.ge
        simp [yields_of_atEnd hd, hend]
      · rw [if_neg hend] at hd
        have key := ih hdone (by simp only [Header.SIZE] at *; omega) hend hd
        constructor
        · rintro ⟨rest, rfl, hyields⟩
          obtain ⟨rest', rfl, hbeyond⟩ := (key rest).mp hyields
          exact ⟨rest', rfl, hbeyond⟩
        · rintro ⟨rest', rfl, hbeyond⟩
          exact ⟨_, rfl, (key _).mpr ⟨rest', rfl, hbeyond⟩⟩

end

end Cursor

/-! ## Where the two part -/

namespace PersistentRingBuffer

variable {b : PersistentRingBuffer} {p q : Nat} {steps : List (Nat × Option (Record × Nat))}

/-- The positions come to are those of the scan, but for one it has stepped to over nothing
and at which it stops. -/
theorem Reaches.scan (hb : b.Sound) (hw : b.control.writePos.toNat ≤ b.size) {pos : UInt64}
    (h : b.Reaches pos) :
    ∃ steps, Scan (decodeAt b.area) Header.SIZE b.control.writePos.toNat b.control.readPos.toNat
        steps pos.toNat ∧ (endsOnNothing steps = false ∨ pos < b.control.writePos) := by
  have hlen := hb.length_area
  have hlt := hb.size_lt
  simp only [ControlBlock.SIZE] at hlt
  induction h with
  | start => exact ⟨[], .nil _, Or.inl rfl⟩
  | @record pos r n _ hbelow hread ih =>
    obtain ⟨steps, hscan, -⟩ := ih
    rw [readAt_eq hb, Option.some.injEq] at hread
    have hbelow' := UInt64.lt_iff_toNat_lt.mp hbelow
    have hle := (decodeAt_some hread).2
    have hnext : (pos + UInt64.ofNat n).toNat = pos.toNat + n := by
      rw [UInt64.toNat_add, UInt64.toNat_ofNat']
      omega
    refine ⟨_, ?_, Or.inl (endsOnNothing_append_singleton steps pos.toNat (some (r, n)))⟩
    rw [hnext]
    exact hscan.snoc hbelow' hread
  | @skip pos _ hbelow hread hrest ih =>
    obtain ⟨steps, hscan, -⟩ := ih
    rw [readAt_eq hb, Option.some.injEq] at hread
    have hbelow' := UInt64.lt_iff_toNat_lt.mp hbelow
    have hnext : (pos + UInt64.ofNat Header.SIZE).toNat = pos.toNat + Header.SIZE := by
      rw [UInt64.toNat_add, UInt64.toNat_ofNat']
      simp only [Header.SIZE]
      omega
    refine ⟨steps ++ [(pos.toNat, none)], ?_, Or.inr hrest⟩
    rw [hnext]
    exact hscan.snoc hbelow' hread

/-- And the other way round. -/
theorem reaches_of_scan (hb : b.Sound) (hw : b.control.writePos.toNat ≤ b.size)
    (hscan : Scan (decodeAt b.area) Header.SIZE b.control.writePos.toNat p steps q) :
    b.Reaches (UInt64.ofNat p) → p < 2 ^ 64 →
      endsOnNothing steps = false ∨ q < b.control.writePos.toNat → b.Reaches (UInt64.ofNat q) := by
  have hlen := hb.length_area
  have hlt := hb.size_lt
  simp only [ControlBlock.SIZE] at hlt
  induction hscan with
  | nil p => exact fun h _ _ => h
  | @cons p q found steps hstop hlook hrest ih =>
    intro hreach hp hends
    have hbelow : UInt64.ofNat p < b.control.writePos := (ofNat_lt_iff hp).mpr hstop
    have hread := readAt_ofNat hb hp
    rw [hlook] at hread
    have hgo := advance_lt (by omega) (by omega) hlook
    rcases found with _ | ⟨r, n⟩
    · have hmore : p + Header.SIZE < b.control.writePos.toNat := by
        cases hrest with
        | nil => exact hends.resolve_left (by simp [endsOnNothing])
        | cons hlt _ _ => exact hlt
      have hskip : b.Reaches (UInt64.ofNat (p + Header.SIZE)) := by
        rw [UInt64.ofNat_add]
        refine .skip hreach hbelow hread ?_
        rw [← UInt64.ofNat_add]
        exact (ofNat_lt_iff hgo).mpr hmore
      refine ih hskip hgo ?_
      rcases steps with _ | ⟨s, steps⟩
      · exact Or.inl rfl
      · rwa [endsOnNothing_cons_of_ne_nil _ (List.cons_ne_nil _ _)] at hends
    · have hrecord : b.Reaches (UInt64.ofNat (p + n)) := by
        rw [UInt64.ofNat_add]
        exact .record hreach hbelow hread
      rw [endsOnNothing_cons_some] at hends
      exact ih hrecord hgo hends

/-- What overshoots is the end of the scan. -/
theorem overshoots_iff (hb : b.Sound) (hw : b.control.writePos.toNat ≤ b.size) (hq : q < 2 ^ 64)
    (hscan : Scan (decodeAt b.area) Header.SIZE b.control.writePos.toNat
      b.control.readPos.toNat steps q)
    (hdone : Done (decodeAt b.area) b.control.writePos.toNat q) :
    b.Overshoots ↔ b.control.writePos.toNat < q ∧ endsOnNothing steps = false ∧
      decodeAt b.area q ≠ .ok none := by
  constructor
  · rintro ⟨pos, hreach, hbeyond, hfound⟩
    obtain ⟨steps', hscan', hends⟩ := hreach.scan hb hw
    have hbeyond' := UInt64.lt_iff_toNat_lt.mp hbeyond
    have hends' : endsOnNothing steps' = false :=
      hends.resolve_right fun hlt => by
        rw [UInt64.lt_iff_toNat_lt] at hlt
        omega
    obtain ⟨rest, rfl, hrest⟩ := hscan.extend hdone hscan'
    obtain ⟨rfl, rfl⟩ := hrest.eq_of_stop_le hbeyond'.le
    rw [List.append_nil]
    refine ⟨hbeyond', hends', fun hnone => hfound ?_⟩
    rw [readAt_eq hb, hnone]
  · rintro ⟨hbeyond, hends, hfound⟩
    have hstart : b.Reaches (UInt64.ofNat b.control.readPos.toNat) := by
      rw [UInt64.ofNat_toNat]
      exact .start
    refine ⟨UInt64.ofNat q,
      reaches_of_scan hb hw hscan hstart b.control.readPos.toNat_lt (Or.inl hends), ?_, ?_⟩
    · rwa [UInt64.lt_iff_toNat_lt, UInt64.toNat_ofNat', Nat.mod_eq_of_lt hq]
    · rw [readAt_ofNat hb hq]
      exact fun hnone => hfound (Option.some.inj hnone)

/-- What `read_all` returns, in terms of its scan. -/
theorem readAll_ok_iff (hb : b.Sound) {sys : Sys} (hflush : sys.flush = true)
    (hscan : Scan (decodeAt b.area) Header.SIZE b.control.writePos.toNat
      b.control.readPos.toNat steps q)
    (hloop : b.readLoop b.control.writePos scanFuel b.control.readPos [] =
      some (if q < b.control.writePos.toNat then .error .invalidRecord
        else .ok (UInt64.ofNat q, (items steps).map fun i => i.2.1)))
    (found : List Record) :
    (∃ b', b.readAll sys = some (.ok found, b')) ↔
      ¬ q < b.control.writePos.toNat ∧ found = (items steps).map fun i => i.2.1 := by
  by_cases heq : b.control.readPos = b.control.writePos
  · obtain ⟨rfl, rfl⟩ := hscan.eq_of_stop_le (by rw [heq])
    simp [readAll, heq, eq_comm]
  · by_cases hlt : q < b.control.writePos.toNat
    · rw [if_pos hlt] at hloop
      simp [readAll, heq, hloop, hlt]
    · rw [if_neg hlt] at hloop
      obtain ⟨b', hstore, -⟩ :=
        storeControl_of_sound hb { b.control with readPos := UInt64.ofNat q } hflush
      rw [readAll_of_readLoop heq hloop, hstore]
      simp [hlt, Except.map, eq_comm]

/-- A read position that is not below the write position is all that is come to. -/
theorem Reaches.eq_readPos (h : ¬ b.control.readPos < b.control.writePos) {pos : UInt64}
    (hreach : b.Reaches pos) : pos = b.control.readPos := by
  induction hreach with
  | start => rfl
  | record _ hbelow _ ih => exact absurd (ih ▸ hbelow) h
  | skip _ hbelow _ _ ih => exact absurd (ih ▸ hbelow) h

/-- If `read_all` has nothing to return and a new cursor has, they do not agree. -/
theorem not_agree_of_next {sys : Sys} {b' : PersistentRingBuffer} {r : Record} {c : Cursor}
    (hread : b.readAll sys = some (.ok [], b'))
    (hnext : (Cursor.new b none).next b = some (.ok (some r), c)) : ¬ b.Agree sys := by
  intro hagree
  obtain ⟨rest, hcons, -⟩ :=
    (Cursor.yields_of_record hnext []).mp ((hagree []).mpr ⟨b', hread⟩)
  cases hcons

/-- **The two agree exactly when nothing overshoots.** -/
theorem agree_iff_not_overshoots (hb : b.Sound) (hw : b.control.writePos.toNat ≤ b.size)
    (hr : b.control.readPos.toNat ≤ b.size + Header.SIZE) {sys : Sys} (hflush : sys.flush = true) :
    b.Agree sys ↔ ¬ b.Overshoots := by
  have hlen := hb.length_area
  have hlt := hb.size_lt
  have hr' := hr
  simp only [ControlBlock.SIZE, Header.SIZE] at hlt hr'
  obtain ⟨steps, q, hscan, hdone, hq, hloop, -⟩ := readLoop_eq hb hw b.control.readPos
  have hall := readAll_ok_iff hb hflush hscan hloop
  rw [overshoots_iff hb hw hq hscan hdone]
  have hnew : (Cursor.new b none).position = ⟨b.control.readPos, b.control.wrapCount⟩ := rfl
  by_cases heq : b.control.readPos = b.control.writePos
  · -- the cursor is at the end, and `read_all` does not scan
    have hend : (Cursor.new b none).atEnd = true := by simp [Cursor.new, heq]
    obtain ⟨rfl, rfl⟩ := hscan.eq_of_stop_le (by rw [heq])
    have hnot : ¬ b.control.writePos.toNat < b.control.readPos.toNat := by
      rw [heq]
      exact lt_irrefl _
    refine ⟨fun _ h => hnot h.1, fun _ found => ?_⟩
    rw [hall found]
    have hsame := Cursor.yields_of_atEnd (b := b) hend found
    simpa [heq, Cursor.Yields] using hsame
  · have hon : (Cursor.new b none).On b b.control.readPos.toNat :=
      ⟨by rw [hnew, UInt64.ofNat_toNat], rfl, by simp [Cursor.new, heq]⟩
    have hyields := Cursor.yields_of_scan hb hw hscan hdone (by simp only [Header.SIZE]; omega)
      (fun h => heq (UInt64.toNat_inj.mp h)) hon
    have hagree : b.Agree sys ↔ ∀ found,
        (∃ rest, found = (items steps).map (fun i => i.2.1) ++ rest ∧
          Cursor.Beyond b steps q rest) ↔
          ¬ q < b.control.writePos.toNat ∧ found = (items steps).map fun i => i.2.1 :=
      forall_congr' fun found => by rw [← hyields found, ← hall found]; rfl
    rw [hagree]
    rcases lt_trichotomy q b.control.writePos.toNat with hbelow | hat | hbeyond
    · simp [Cursor.Beyond, hbelow, not_lt.mpr hbelow.le]
    · simp [Cursor.Beyond, hat]
    · have hnot : ¬ q < b.control.writePos.toNat := not_lt.mpr hbeyond.le
      have hne : q ≠ b.control.writePos.toNat := hbeyond.ne'
      cases hends : endsOnNothing steps with
      | true => simp [Cursor.Beyond, hnot, hends]
      | false =>
        simp only [Cursor.Beyond, hnot, hne, hends, if_false, Bool.false_eq_true, or_self,
          not_false_eq_true, true_and, hbeyond]
        have hlast : (⟨⟨UInt64.ofNat q, b.control.wrapCount⟩, false⟩ : Cursor).On b q :=
          ⟨rfl, rfl, rfl⟩
        have hmax := scan_le hb hw hscan hr
        simp only [Header.SIZE] at hmax
        by_cases hnone : decodeAt b.area q = .ok none
        · have hend := hlast.yields_end hb (by simp only [Header.SIZE]; omega) hnone (by omega)
          simp [hend, hnone]
        · -- the cursor has more to say: another record, or an error
          refine iff_of_false (fun h => ?_) (by simp [hnone])
          obtain ⟨rest, heq, hmore⟩ := (h _).mpr rfl
          obtain rfl : rest = [] := by simpa using heq
          rcases hlook : decodeAt b.area q with e | _ | ⟨r, n⟩
          · exact hlast.yields_error hb hq hlook [] hmore
          · exact hnone hlook
          · have hle := (decodeAt_some hlook).2
            obtain ⟨d, -, hrecord⟩ := hlast.yields_record hb hq hlook (by omega)
            obtain ⟨rest, hcons, -⟩ := (hrecord []).mp hmore
            cases hcons

end PersistentRingBuffer

namespace Live

/-- The read position never goes further than a header beyond the area. -/
theorem readPos_le_step (b : Live) (op : Op) (h : b.readPos ≤ b.buf.size + Header.SIZE) :
    (b.step op).readPos ≤ b.buf.size + Header.SIZE := by
  have hw := b.writePos_le
  have hcontrol := b.control_step op
  have hreset : b.buf.control.writePos.toNat ≤ b.buf.size + Header.SIZE :=
    Nat.le_add_right_of_le hw
  cases op with
  | write r sys =>
    by_cases hr : r.footprint ≤ b.buf.size
    · rwa [b.readPos_step_write hr]
    · rw [unsealed, if_pos (by omega)] at hcontrol
      rwa [readPos, hcontrol]
  | readAll sys =>
    rw [unsealed] at hcontrol
    split at hcontrol
    · rwa [readPos, hcontrol]
    · obtain ⟨steps, q, hscan, -, hq, hloop, -⟩ :=
        readLoop_eq b.represents.sound b.represents.writePos_le b.buf.control.readPos
      rw [hloop] at hcontrol
      split at hcontrol
      · next heq =>
        obtain ⟨hpos, -⟩ : UInt64.ofNat q = _ ∧ _ := by
          split at heq
          · cases heq
          · exact Prod.mk.inj (Except.ok.inj (Option.some.inj heq))
        have hle := scan_le b.represents.sound b.represents.writePos_le hscan h
        rw [readPos, hcontrol, ← hpos]
        show (UInt64.ofNat q).toNat ≤ _
        rwa [UInt64.toNat_ofNat', Nat.mod_eq_of_lt hq]
      · rwa [readPos, hcontrol]
  | resetReadPosition sys =>
    rw [readPos, hcontrol]
    exact hreset
  | commit c sys =>
    rw [unsealed] at hcontrol
    split at hcontrol
    · rw [readPos, hcontrol]
      exact hreset
    · rwa [readPos, hcontrol]

theorem readPos_le_after (b : Live) (ops : List Op) (h : b.readPos ≤ b.buf.size + Header.SIZE) :
    (b.after ops).readPos ≤ b.buf.size + Header.SIZE := by
  have key := Machine.foldl_preserves
    (I := fun s : Live => s.buf.size = b.buf.size ∧ s.readPos ≤ b.buf.size + Header.SIZE)
    (fun s op hs => ⟨(s.size_step op).trans hs.1, hs.1 ▸ s.readPos_le_step op (hs.1 ▸ hs.2)⟩)
    ⟨rfl, h⟩ ops
  exact key.2

/-- **When the two reading paths agree.**  In every reachable state draining a new cursor
yields what `read_all` would return exactly when no position beyond the write position at
which there is something to read is come to from the read position. -/
theorem agree_iff (size : Nat) (h : ControlBlock.SIZE + size < 2 ^ 63) (sys : Sys)
    (ops : List Op) (last : Sys) (hflush : last.flush = true) :
    let b := (fresh size h sys).after ops
    b.buf.Agree last ↔ ¬ b.buf.Overshoots := by
  intro b
  refine PersistentRingBuffer.agree_iff_not_overshoots b.represents.sound
    b.represents.writePos_le ?_ hflush
  have hle := (fresh size h sys).readPos_le_after ops (Nat.zero_le _)
  rwa [← size_after (fresh size h sys) ops] at hle

end Live

end

section Ieee

attribute [local instance] Hasher.ieee

/-- The second of three records lies behind the first and is what the reader has not read
when the third starts a new lap: `read_all` has nothing to return, and the cursor returns
it. -/
theorem Live.paths_part :
    let record := fun n tag => Record.new (List.replicate n tag.toUInt8) tag 0
    let b := (fresh 100 (by decide) Sys.ok).after [.write (record 24 1) Sys.ok, .readAll Sys.ok,
      .write (record 16 2) Sys.ok, .write (record 16 3) Sys.ok]
    ¬ b.buf.Agree Sys.ok := by
  intro record b
  have hread : b.buf.readAll Sys.ok = some (.ok [], (b.step (.readAll Sys.ok)).buf) := by
    decide +kernel
  have hnext : (Cursor.new b.buf none).next b.buf =
      some (.ok (some (record 16 2).stored), ⟨⟨88, 1⟩, false⟩) := by
    decide +kernel
  exact not_agree_of_next hread hnext

/-- Where a lap ends short of the read position and nothing was written there, they agree. -/
theorem Live.paths_agree :
    let record := fun n tag => Record.new (List.replicate n tag.toUInt8) tag 0
    let b := (fresh 64 (by decide) Sys.ok).after [.write (record 16 1) Sys.ok, .readAll Sys.ok,
      .write (record 8 2) Sys.ok]
    b.buf.Agree Sys.ok := by
  intro record b
  refine (Live.agree_iff 64 (by decide) Sys.ok _ Sys.ok rfl).mpr ?_
  rintro ⟨pos, hreach, -, hfound⟩
  refine hfound ?_
  rw [hreach.eq_readPos (by decide +kernel)]
  decide +kernel

end Ieee

end Sherlog
