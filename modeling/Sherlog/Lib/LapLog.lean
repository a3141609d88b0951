import Sherlog.Lib.Window

/-!
# A log kept in laps over a bounded area

Records of any length are appended to an area of fixed size.  A record that no
longer fits behind the last one starts a new **lap** at the front of the area
and overwrites what an earlier lap left there.  Records are of any type `ρ`, and
`enc` says what cells a record occupies.

* `Log` — the laps a log has been through; `Log.push` — the rule for appending.
* `image`, `Log.cells` — the cells of the area as a function of the laps alone: each
  lap overlays the ones before it.  `Log.cells_push` says that pushing a record is one
  `overwrite` of the area, at the position `Log.pushPos`.
* `CurrentAt`, `OldAt` — a record of the current lap, and a record of an earlier
  lap that no later lap has reached.  `Log.CurrentAt.window_cells` and
  `Log.OldAt.window_cells` say that both are still in the area, cell for cell.
* `Holds` — a record of any lap; `Log.Holds.of_push` says that `push` adds one.
* `Fits` — every lap stays inside the area; preserved by `push` (`Log.Fits.push`).
* `Kept` — a record that has not been overwritten yet, for want of cells appended since;
  preserved by `push` while they are few enough (`Log.Kept.push`).
-/

namespace LapLog

open Window

variable {ρ α : Type*}

/-- The laps of a log: the finished ones, latest first, and the current one, its
records in the order they were appended. -/
structure Log (ρ : Type*) where
  /-- The finished laps, latest first. -/
  past : List (List ρ)
  /-- The current lap. -/
  lap : List ρ

/-- A log nothing has been appended to. -/
def Log.empty : Log ρ := ⟨[], []⟩

variable (enc : ρ → List α)

/-- The cells the records of a lap occupy. -/
def lapCells (lap : List ρ) : List α := lap.flatMap enc

/-- How far a lap reaches into the area. -/
def extent (lap : List ρ) : Nat := (lapCells enc lap).length

/-- Cells laid over others, from the front. -/
def overlay (top under : List α) : List α := top ++ under.drop top.length

/-- The area after the given laps, latest first, starting from `blank`. -/
def image (blank : List α) : List (List ρ) → List α
  | [] => blank
  | lap :: older => overlay (lapCells enc lap) (image blank older)

namespace Log

/-- Does the record still fit behind the last one of the current lap? -/
def HasRoom (cap : Nat) (l : Log ρ) (r : ρ) : Prop := extent enc l.lap + (enc r).length ≤ cap

instance (cap : Nat) (l : Log ρ) (r : ρ) : Decidable (HasRoom enc cap l r) :=
  inferInstanceAs (Decidable (_ ≤ _))

/-- Append a record: behind the last one when it fits there, else as the first
record of a new lap. -/
def push (cap : Nat) (l : Log ρ) (r : ρ) : Log ρ :=
  if HasRoom enc cap l r then { l with lap := l.lap ++ [r] } else ⟨l.lap :: l.past, [r]⟩

/-- The position at which `push` puts the record. -/
def pushPos (cap : Nat) (l : Log ρ) (r : ρ) : Nat :=
  if HasRoom enc cap l r then extent enc l.lap else 0

/-- The cells of the area. -/
def cells (blank : List α) (l : Log ρ) : List α := image enc blank (l.lap :: l.past)

/-- No lap leaves an area of `cap` cells. -/
def Fits (cap : Nat) (l : Log ρ) : Prop := ∀ lap ∈ l.lap :: l.past, extent enc lap ≤ cap

/-- `r` is a record of some lap. -/
def Holds (l : Log ρ) (r : ρ) : Prop := ∃ lap ∈ l.lap :: l.past, r ∈ lap

/-- `r` is a record of the current lap, at position `a`. -/
def CurrentAt (l : Log ρ) (r : ρ) (a : Nat) : Prop :=
  ∃ before after, l.lap = before ++ r :: after ∧ a = extent enc before

/-- `r` is a record of a finished lap, at position `a`, and neither the current lap
nor any lap in between reaches beyond `a`. -/
def OldAt (l : Log ρ) (r : ρ) (a : Nat) : Prop :=
  extent enc l.lap ≤ a ∧ ∃ newer before after older,
    l.past = newer ++ (before ++ r :: after) :: older ∧ a = extent enc before ∧
      ∀ lap ∈ newer, extent enc lap ≤ a

end Log

/-! ## Extents -/

@[simp] theorem extent_nil : extent enc [] = 0 := rfl

@[simp] theorem extent_cons (r : ρ) (rs : List ρ) :
    extent enc (r :: rs) = (enc r).length + extent enc rs := by
  simp [extent, lapCells]

@[simp] theorem extent_append (as bs : List ρ) :
    extent enc (as ++ bs) = extent enc as + extent enc bs := by
  simp [extent, lapCells]

theorem extent_eq_sum (lap : List ρ) : extent enc lap = (lap.map fun r => (enc r).length).sum := by
  induction lap with
  | nil => rfl
  | cons r rs ih => simp [ih]

/-- **Where the cells of some records lie, the cells of their parts lie end to end.** -/
theorem window_lapCells_append {m : List α} {p : Nat} {as bs : List ρ}
    (h : window m p (extent enc (as ++ bs)) = lapCells enc (as ++ bs)) :
    window m p (extent enc as) = lapCells enc as ∧
      window m (p + extent enc as) (extent enc bs) = lapCells enc bs := by
  have hcells : lapCells enc (as ++ bs) = lapCells enc as ++ lapCells enc bs :=
    List.flatMap_append
  have hfront := window_window m (p := p) (n := extent enc (as ++ bs)) (q := 0)
    (k := extent enc as) (by simp)
  have hback := window_window m (p := p) (n := extent enc (as ++ bs)) (q := extent enc as)
    (k := extent enc bs) (by simp)
  rw [h, hcells] at hfront hback
  refine ⟨hfront.symm.trans (window_front _ _), hback.symm.trans ?_⟩
  have key := window_append_right (lapCells enc as) (lapCells enc bs) 0 (lapCells enc bs).length
  rw [Nat.add_zero, window_zero_length] at key
  exact key

theorem window_lapCells_cons {m : List α} {p : Nat} {r : ρ} {rs : List ρ}
    (h : window m p (extent enc (r :: rs)) = lapCells enc (r :: rs)) :
    window m p (enc r).length = enc r ∧
      window m (p + (enc r).length) (extent enc rs) = lapCells enc rs := by
  have hsplit : window m p (extent enc ([r] ++ rs)) = lapCells enc ([r] ++ rs) := h
  simpa [lapCells] using window_lapCells_append enc hsplit

/-! ## What the area holds -/

/-- Cells below the part laid over them are as they were. -/
theorem window_overlay_of_le {top under : List α} {a n : Nat} (h : top.length ≤ a) :
    window (overlay top under) a n = window under a n := by
  obtain ⟨d, rfl⟩ := Nat.exists_eq_add_of_le h
  rw [overlay, window_append_right, window, window, List.drop_drop]

theorem length_image {blank : List α} {laps : List (List ρ)}
    (h : ∀ lap ∈ laps, extent enc lap ≤ blank.length) :
    (image enc blank laps).length = blank.length := by
  induction laps with
  | nil => rfl
  | cons lap older ih =>
    have hlap : (lapCells enc lap).length ≤ blank.length := h lap (List.mem_cons_self ..)
    rw [image, overlay, List.length_append, List.length_drop,
      ih fun l hl => h l (List.mem_cons_of_mem _ hl)]
    omega

/-- The record of a lap laid on top is found at its place in the lap. -/
theorem window_image_cons (blank : List α) (before after : List ρ) (r : ρ)
    (older : List (List ρ)) :
    window (image enc blank ((before ++ r :: after) :: older)) (extent enc before) (enc r).length
      = enc r := by
  have hcells : lapCells enc (before ++ r :: after) =
      lapCells enc before ++ enc r ++ lapCells enc after := by simp [lapCells]
  rw [image, overlay, hcells, List.append_assoc, extent]
  rw [window_append_left (by simp)]
  exact List.append_nil (lapCells enc before ++ enc r) ▸
    window_middle (lapCells enc before) (enc r) []

/-- A record below every later lap is found at its place in its own lap. -/
theorem window_image_append (blank : List α) {newer : List (List ρ)} (laps : List (List ρ))
    {a n : Nat} (h : ∀ lap ∈ newer, extent enc lap ≤ a) :
    window (image enc blank (newer ++ laps)) a n = window (image enc blank laps) a n := by
  induction newer with
  | nil => rfl
  | cons lap newer ih =>
    have hlap : (lapCells enc lap).length ≤ a := h lap (List.mem_cons_self ..)
    rw [List.cons_append, image, window_overlay_of_le hlap,
      ih fun l hl => h l (List.mem_cons_of_mem _ hl)]

variable {enc}

/-- **A record of the current lap is in the area.** -/
theorem Log.CurrentAt.window_cells {l : Log ρ} {r : ρ} {a : Nat} (h : l.CurrentAt enc r a)
    (blank : List α) : window (l.cells enc blank) a (enc r).length = enc r := by
  obtain ⟨before, after, hlap, rfl⟩ := h
  rw [Log.cells, hlap]
  exact window_image_cons enc blank before after r l.past

/-- **A record no later lap has reached is in the area.** -/
theorem Log.OldAt.window_cells {l : Log ρ} {r : ρ} {a : Nat} (h : l.OldAt enc r a)
    (blank : List α) : window (l.cells enc blank) a (enc r).length = enc r := by
  obtain ⟨hcur, newer, before, after, older, hpast, ha, hnewer⟩ := h
  have hall : ∀ lap ∈ l.lap :: newer, extent enc lap ≤ a := by
    intro lap hlap
    rcases List.mem_cons.1 hlap with rfl | hlap
    · exact hcur
    · exact hnewer lap hlap
  rw [Log.cells, hpast, ← List.cons_append, window_image_append enc blank _ hall, ha]
  exact window_image_cons enc blank before after r older

/-- The current lap is the front of the area. -/
theorem Log.window_cells_lap (l : Log ρ) (blank : List α) :
    window (l.cells enc blank) 0 (extent enc l.lap) = lapCells enc l.lap := by
  rw [Log.cells, image, overlay]
  exact window_front _ _

/-! ## Appending -/

variable {cap : Nat} {l : Log ρ} {r : ρ}

theorem Log.push_of_hasRoom (h : l.HasRoom enc cap r) :
    l.push enc cap r = { l with lap := l.lap ++ [r] } := if_pos h

theorem Log.push_of_not_hasRoom (h : ¬ l.HasRoom enc cap r) :
    l.push enc cap r = ⟨l.lap :: l.past, [r]⟩ := if_neg h

theorem Log.pushPos_of_hasRoom (h : l.HasRoom enc cap r) :
    l.pushPos enc cap r = extent enc l.lap := if_pos h

theorem Log.pushPos_of_not_hasRoom (h : ¬ l.HasRoom enc cap r) : l.pushPos enc cap r = 0 :=
  if_neg h

/-- **Pushing is one copy into the area.** -/
theorem Log.cells_push (l : Log ρ) (r : ρ) (blank : List α) :
    (l.push enc cap r).cells enc blank =
      overwrite (l.cells enc blank) (l.pushPos enc cap r) (enc r) := by
  by_cases h : l.HasRoom enc cap r
  · rw [push_of_hasRoom h, pushPos_of_hasRoom h, Log.cells, Log.cells, image, image, overlay,
      overlay, extent, overwrite_append_length]
    simp [lapCells]
  · rw [push_of_not_hasRoom h, pushPos_of_not_hasRoom h, Log.cells, Log.cells]
    simp [image, overlay, overwrite, lapCells]

/-- The current lap ends behind the record just pushed. -/
theorem Log.extent_push (l : Log ρ) (r : ρ) :
    extent enc (l.push enc cap r).lap = l.pushPos enc cap r + (enc r).length := by
  by_cases h : l.HasRoom enc cap r
  · simp [push_of_hasRoom h, pushPos_of_hasRoom h]
  · simp [push_of_not_hasRoom h, pushPos_of_not_hasRoom h]

theorem Log.pushPos_add_le (hr : (enc r).length ≤ cap) :
    l.pushPos enc cap r + (enc r).length ≤ cap := by
  by_cases h : l.HasRoom enc cap r
  · rw [pushPos_of_hasRoom h]
    exact h
  · rw [pushPos_of_not_hasRoom h]
    omega

theorem Log.fits_empty : (Log.empty : Log ρ).Fits enc cap := by
  intro lap hlap
  have : lap = [] := by simpa [Log.empty] using hlap
  simp [this]

/-- Appending a record the area can hold keeps every lap inside it. -/
theorem Log.Fits.push (h : l.Fits enc cap) (hr : (enc r).length ≤ cap) :
    (l.push enc cap r).Fits enc cap := by
  intro lap hlap
  have hnew : extent enc (l.push enc cap r).lap ≤ cap := by
    rw [extent_push]
    exact pushPos_add_le hr
  rcases List.mem_cons.1 hlap with rfl | hpast
  · exact hnew
  · refine h lap ?_
    by_cases hroom : l.HasRoom enc cap r
    · rw [push_of_hasRoom hroom] at hpast
      exact List.mem_cons_of_mem _ hpast
    · rwa [push_of_not_hasRoom hroom] at hpast

theorem Log.Fits.length_cells {blank : List α} (h : l.Fits enc blank.length) :
    (l.cells enc blank).length = blank.length := length_image enc h

/-! ## Records in place -/

/-- The record just pushed is a record of the current lap. -/
theorem Log.currentAt_push (l : Log ρ) (r : ρ) :
    (l.push enc cap r).CurrentAt enc r (l.pushPos enc cap r) := by
  by_cases h : l.HasRoom enc cap r
  · rw [push_of_hasRoom h, pushPos_of_hasRoom h]
    exact ⟨l.lap, [], rfl, rfl⟩
  · rw [push_of_not_hasRoom h, pushPos_of_not_hasRoom h]
    exact ⟨[], [], rfl, rfl⟩

variable {s : ρ} {a : Nat}

theorem Log.not_holds_empty : ¬ (Log.empty : Log ρ).Holds s := by
  rintro ⟨lap, hlap, hs⟩
  obtain rfl := List.mem_singleton.mp hlap
  cases hs

/-- Appending adds one record to those a log holds. -/
theorem Log.Holds.of_push (h : (l.push enc cap r).Holds s) : l.Holds s ∨ s = r := by
  obtain ⟨lap, hlap, hs⟩ := h
  by_cases hroom : l.HasRoom enc cap r
  · rw [push_of_hasRoom hroom] at hlap
    rcases List.mem_cons.mp hlap with rfl | hpast
    · rcases List.mem_append.mp hs with hold | hnew
      · exact Or.inl ⟨l.lap, List.mem_cons_self .., hold⟩
      · exact Or.inr (List.mem_singleton.mp hnew)
    · exact Or.inl ⟨lap, List.mem_cons_of_mem _ hpast, hs⟩
  · rw [push_of_not_hasRoom hroom] at hlap
    rcases List.mem_cons.mp hlap with rfl | hpast
    · exact Or.inr (List.mem_singleton.mp hs)
    · exact Or.inl ⟨lap, hpast, hs⟩

theorem Log.CurrentAt.holds (h : l.CurrentAt enc s a) : l.Holds s := by
  obtain ⟨before, after, hlap, -⟩ := h
  exact ⟨l.lap, List.mem_cons_self .., by simp [hlap]⟩

theorem Log.OldAt.holds (h : l.OldAt enc s a) : l.Holds s := by
  obtain ⟨-, newer, before, after, older, hpast, -⟩ := h
  exact ⟨before ++ s :: after, List.mem_cons_of_mem _ (by simp [hpast]), by simp⟩

theorem Log.CurrentAt.push_of_hasRoom (h : l.CurrentAt enc s a) (hroom : l.HasRoom enc cap r) :
    (l.push enc cap r).CurrentAt enc s a := by
  obtain ⟨before, after, hlap, ha⟩ := h
  exact ⟨before, after ++ [r], by simp [Log.push_of_hasRoom hroom, hlap], ha⟩

/-- When a new lap begins that does not go beyond `a`, the record at `a` stays. -/
theorem Log.CurrentAt.oldAt_push (h : l.CurrentAt enc s a) (hroom : ¬ l.HasRoom enc cap r)
    (hle : extent enc (l.push enc cap r).lap ≤ a) : (l.push enc cap r).OldAt enc s a := by
  obtain ⟨before, after, hlap, ha⟩ := h
  refine ⟨hle, [], before, after, l.past, ?_, ha, by simp⟩
  simp [Log.push_of_not_hasRoom hroom, hlap]

/-- While the laps that follow do not go beyond `a`, the record at `a` stays. -/
theorem Log.OldAt.push (h : l.OldAt enc s a) (hle : extent enc (l.push enc cap r).lap ≤ a) :
    (l.push enc cap r).OldAt enc s a := by
  obtain ⟨hcur, newer, before, after, older, hpast, ha, hnewer⟩ := h
  refine ⟨hle, ?_⟩
  by_cases hroom : l.HasRoom enc cap r
  · exact ⟨newer, before, after, older, by simp [Log.push_of_hasRoom hroom, hpast], ha, hnewer⟩
  · refine ⟨l.lap :: newer, before, after, older, ?_, ha, ?_⟩
    · simp [Log.push_of_not_hasRoom hroom, hpast]
    · intro lap hlap
      rcases List.mem_cons.1 hlap with rfl | hlap
      · exact hcur
      · exact hnewer lap hlap

/-! ## How long a record stays -/

/-- The record `s` was put at position `a`, and since then `total` cells have been appended, in
records no longer than `widest`: it is still in the current lap, or the lap after it is as far
behind `a` as the cells say. -/
def Log.Kept (enc : ρ → List α) (cap widest : Nat) (l : Log ρ) (s : ρ) (a total : Nat) : Prop :=
  a + (enc s).length ≤ cap ∧
    (l.CurrentAt enc s a ∧ extent enc l.lap = a + (enc s).length + total ∨
      l.OldAt enc s a ∧ extent enc l.lap + cap < a + (enc s).length + total + widest)

theorem Log.kept_push (l : Log ρ) (hs : (enc s).length ≤ cap) (widest : Nat) :
    (l.push enc cap s).Kept enc cap widest s (l.pushPos enc cap s) 0 :=
  ⟨pushPos_add_le hs, .inl ⟨currentAt_push l s, extent_push l s⟩⟩

/-- **A record stays while there is room for it, for what has come since, and for one record
more.**  A lap ends less than one record before the end of the area. -/
theorem Log.Kept.push {widest total : Nat} (h : l.Kept enc cap widest s a total)
    (hr : (enc r).length ≤ widest)
    (htotal : (enc s).length + (total + (enc r).length) + widest ≤ cap) :
    (l.push enc cap r).Kept enc cap widest s a (total + (enc r).length) := by
  obtain ⟨hfits, ⟨hat, hextent⟩ | ⟨hat, hextent⟩⟩ := h
  · refine ⟨hfits, ?_⟩
    by_cases hroom : l.HasRoom enc cap r
    · refine .inl ⟨hat.push_of_hasRoom hroom, ?_⟩
      rw [extent_push, pushPos_of_hasRoom hroom]
      omega
    · have hfull : ¬ extent enc l.lap + (enc r).length ≤ cap := hroom
      have hnew : extent enc (l.push enc cap r).lap = (enc r).length := by
        rw [extent_push, pushPos_of_not_hasRoom hroom, Nat.zero_add]
      exact .inr ⟨hat.oldAt_push hroom (by omega), by omega⟩
  · -- the lap after it never comes to its end
    have hroom : l.HasRoom enc cap r := by
      show extent enc l.lap + (enc r).length ≤ cap
      omega
    have hnew : extent enc (l.push enc cap r).lap = extent enc l.lap + (enc r).length := by
      rw [extent_push, pushPos_of_hasRoom hroom]
    exact ⟨hfits, .inr ⟨hat.push (by omega), by omega⟩⟩

end LapLog
