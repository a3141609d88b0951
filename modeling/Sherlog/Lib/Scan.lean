import Mathlib

/-!
# Scans

A scanner looks at a position and finds an item of some length, nothing, or an error.
Below a stop it goes on behind the item, or a fixed stride further where there was
nothing; an error, or a position at the stop or behind it, ends the scan.

* `Scan` — the steps of a scan from one position to another; `Scan.exists_done` — every
  scan comes to an end; `Scan.extend` — and there is only one way there.
* `Scan.looks_le` — it takes at most `stop / stride + 1` looks.
* `Scan.pairwise_items` — the items found lie apart, in order; `Scan.add_sum_le` — none is
  found earlier than the items before it allow.
* `Scan.append`, `Scan.over_nothing` — scans put together, and the scan over a stretch with
  nothing in it.
-/

namespace Scanning

variable {α ε : Type*}

/-- What a scanner finds at each position. -/
abbrev Look (α ε : Type*) := Nat → Except ε (Option (α × Nat))

/-- How far a scan goes on over what it has found. -/
def advance (stride : Nat) (found : Option (α × Nat)) : Nat := (found.map Prod.snd).getD stride

/-- A scan from one position to another, and what it found at each position on the way. -/
inductive Scan (look : Look α ε) (stride stop : Nat) :
    Nat → List (Nat × Option (α × Nat)) → Nat → Prop
  | nil (p : Nat) : Scan look stride stop p [] p
  | cons {p q : Nat} {found : Option (α × Nat)} {steps : List (Nat × Option (α × Nat))} :
      p < stop → look p = .ok found → Scan look stride stop (p + advance stride found) steps q →
        Scan look stride stop p ((p, found) :: steps) q

/-- The items found, each with its position. -/
def items (steps : List (Nat × Option (α × Nat))) : List (Nat × α × Nat) :=
  steps.filterMap fun s => s.2.map fun item => (s.1, item)

/-- Did the last look of a scan find nothing? -/
def endsOnNothing : List (Nat × Option (α × Nat)) → Bool
  | [] => false
  | [(_, found)] => found.isNone
  | _ :: step :: steps => endsOnNothing (step :: steps)

/-- Every item is at least as long as the stride. -/
def Covers (look : Look α ε) (stride : Nat) : Prop :=
  ∀ p x n, look p = .ok (some (x, n)) → stride ≤ n

/-- Here a scan does not go on. -/
def Done (look : Look α ε) (stop q : Nat) : Prop := q < stop → ∃ e, look q = .error e

variable {look : Look α ε} {stride stop p q : Nat} {steps : List (Nat × Option (α × Nat))}

@[simp] theorem items_nil : items ([] : List (Nat × Option (α × Nat))) = [] := rfl

@[simp] theorem items_cons_none (p : Nat) (steps : List (Nat × Option (α × Nat))) :
    items ((p, none) :: steps) = items steps := rfl

@[simp] theorem items_cons_some (p : Nat) (item : α × Nat)
    (steps : List (Nat × Option (α × Nat))) :
    items ((p, some item) :: steps) = (p, item) :: items steps := rfl

@[simp] theorem items_append (steps steps' : List (Nat × Option (α × Nat))) :
    items (steps ++ steps') = items steps ++ items steps' := List.filterMap_append ..

theorem mem_items {p n : Nat} {x : α} :
    (p, x, n) ∈ items steps ↔ (p, some (x, n)) ∈ steps := by
  simp only [items, List.mem_filterMap, Option.map_eq_some_iff, Prod.exists, Prod.mk.injEq]
  constructor
  · rintro ⟨p', found, hmem, x', n', rfl, rfl, rfl, rfl⟩
    exact hmem
  · intro hmem
    exact ⟨p, some (x, n), hmem, x, n, rfl, rfl, rfl, rfl⟩

@[simp] theorem endsOnNothing_cons_some (p : Nat) (item : α × Nat)
    (steps : List (Nat × Option (α × Nat))) :
    endsOnNothing ((p, some item) :: steps) = endsOnNothing steps := by
  cases steps <;> rfl

theorem endsOnNothing_cons_of_ne_nil (s : Nat × Option (α × Nat))
    {steps : List (Nat × Option (α × Nat))} (h : steps ≠ []) :
    endsOnNothing (s :: steps) = endsOnNothing steps := by
  cases steps with
  | nil => exact absurd rfl h
  | cons => rfl

theorem endsOnNothing_append_singleton (steps : List (Nat × Option (α × Nat))) (p : Nat)
    (found : Option (α × Nat)) : endsOnNothing (steps ++ [(p, found)]) = found.isNone := by
  induction steps with
  | nil => rfl
  | cons s steps ih =>
    rw [List.cons_append, endsOnNothing_cons_of_ne_nil s (by simp), ih]

theorem Covers.le_advance (hc : Covers look stride) {found : Option (α × Nat)}
    (h : look p = .ok found) : stride ≤ advance stride found := by
  rcases found with _ | ⟨x, n⟩
  · exact le_rfl
  · exact hc p x n h

namespace Scan

/-- A scan goes forward by at least a stride a step. -/
theorem add_mul_length_le (h : Scan look stride stop p steps q) (hc : Covers look stride) :
    p + stride * steps.length ≤ q := by
  induction h with
  | nil p => exact le_rfl
  | cons _ hlook _ ih =>
    have hadvance := hc.le_advance hlook
    rw [List.length_cons, Nat.mul_succ]
    omega

/-- A scan looks below the stop, and not before its start. -/
theorem mem_range (h : Scan look stride stop p steps q) :
    ∀ s ∈ steps, p ≤ s.1 ∧ s.1 < stop ∧ look s.1 = .ok s.2 := by
  induction h with
  | nil => simp
  | cons hlt hlook _ ih =>
    intro s hs
    rcases List.mem_cons.mp hs with rfl | hs
    · exact ⟨le_rfl, hlt, hlook⟩
    · obtain ⟨hle, hrest⟩ := ih s hs
      exact ⟨by omega, hrest⟩

/-- Even its last look was below the stop. -/
theorem add_mul_pred_length_lt (h : Scan look stride stop p steps q) (hc : Covers look stride) :
    steps ≠ [] → p + stride * (steps.length - 1) < stop := by
  induction h with
  | nil => exact fun hne => absurd rfl hne
  | @cons p q found steps hlt hlook _ ih =>
    intro _
    have hadvance := hc.le_advance hlook
    rcases steps with _ | ⟨s, steps⟩
    · exact hlt
    · have hrest := ih (List.cons_ne_nil _ _)
      simp only [List.length_cons, Nat.add_sub_cancel, Nat.mul_succ] at hrest ⊢
      omega

/-- **A scan takes at most `stop / stride + 1` looks**, counting the one that met an
error. -/
theorem looks_le (h : Scan look stride stop p steps q) (hc : Covers look stride)
    (hpos : 0 < stride) : steps.length + (if q < stop then 1 else 0) ≤ stop / stride + 1 := by
  by_cases hq : q < stop
  · have hgo := h.add_mul_length_le hc
    have hle : steps.length ≤ stop / stride :=
      (Nat.le_div_iff_mul_le hpos).mpr (by rw [Nat.mul_comm]; omega)
    rw [if_pos hq]
    omega
  · rw [if_neg hq]
    by_cases hne : steps = []
    · simp [hne]
    · have hlt := h.add_mul_pred_length_lt hc hne
      have hle : steps.length - 1 ≤ stop / stride :=
        (Nat.le_div_iff_mul_le hpos).mpr (by rw [Nat.mul_comm]; omega)
      omega

/-- **The items of a scan lie apart**, each behind the one before it. -/
theorem pairwise_items (h : Scan look stride stop p steps q) :
    (items steps).Pairwise fun a b => a.1 + a.2.2 ≤ b.1 := by
  induction h with
  | nil => exact List.Pairwise.nil
  | @cons p q found steps _ _ hrest ih =>
    rcases found with _ | ⟨x, n⟩
    · exact ih
    · refine List.pairwise_cons.mpr ⟨?_, ih⟩
      rintro ⟨p', x', n'⟩ hmem
      exact (hrest.mem_range _ (mem_items.mp hmem)).1

/-- **Every scan comes to an end.** -/
theorem exists_done (hc : Covers look stride) (hpos : 0 < stride) (p : Nat) :
    ∃ steps q, Scan look stride stop p steps q ∧ Done look stop q := by
  induction hn : stop - p using Nat.strong_induction_on generalizing p with
  | h n ih =>
    by_cases hlt : p < stop
    · rcases hlook : look p with e | found
      · exact ⟨[], p, .nil p, fun _ => ⟨e, hlook⟩⟩
      · have hadvance := hc.le_advance hlook
        obtain ⟨steps, q, hscan, hdone⟩ :=
          ih (stop - (p + advance stride found)) (by omega) (p + advance stride found) rfl
        exact ⟨_, q, .cons hlt hlook hscan, hdone⟩
    · exact ⟨[], p, .nil p, fun h => absurd h hlt⟩

/-- **A scan that has ended is the only way to go on**: whatever another scan from the same
start has seen is the beginning of it. -/
theorem extend (h : Scan look stride stop p steps q) (hdone : Done look stop q)
    {steps' : List (Nat × Option (α × Nat))} {q' : Nat} (h' : Scan look stride stop p steps' q') :
    ∃ rest, steps = steps' ++ rest ∧ Scan look stride stop q' rest q := by
  induction h' generalizing steps with
  | nil p => exact ⟨steps, rfl, h⟩
  | cons hlt hlook _ ih =>
    cases h with
    | nil =>
      obtain ⟨e, herror⟩ := hdone hlt
      rw [hlook] at herror
      cases herror
    | cons _ hlook₂ hrest =>
      rw [hlook] at hlook₂
      cases hlook₂
      obtain ⟨rest, rfl, hscan⟩ := ih hrest
      exact ⟨rest, rfl, hscan⟩

/-- One more look. -/
theorem snoc (h : Scan look stride stop p steps q) (hlt : q < stop) {found : Option (α × Nat)}
    (hlook : look q = .ok found) :
    Scan look stride stop p (steps ++ [(q, found)]) (q + advance stride found) := by
  induction h with
  | nil p => exact .cons hlt hlook (.nil _)
  | cons hlt' hlook' _ ih => exact .cons hlt' hlook' (ih hlt hlook)

/-- From the stop on there is nothing to scan. -/
theorem eq_of_stop_le (h : Scan look stride stop p steps q) (hp : stop ≤ p) :
    steps = [] ∧ q = p := by
  cases h with
  | nil => exact ⟨rfl, rfl⟩
  | cons hlt _ _ => omega

/-- A scan that goes on where another has come to. -/
theorem append (h : Scan look stride stop p steps q) {steps' : List (Nat × Option (α × Nat))}
    {q' : Nat} (h' : Scan look stride stop q steps' q') :
    Scan look stride stop p (steps ++ steps') q' := by
  induction h with
  | nil p => exact h'
  | cons hlt hlook _ ih => exact .cons hlt hlook (ih h')

/-- Over a stretch with nothing in it a scan goes on by strides. -/
theorem over_nothing {n : Nat} (h : ∀ k < n, p + stride * k < stop ∧
    look (p + stride * k) = .ok none) :
    ∃ steps : List (Nat × Option (α × Nat)), items steps = [] ∧
      Scan look stride stop p steps (p + stride * n) := by
  induction n with
  | zero => exact ⟨[], rfl, .nil p⟩
  | succ n ih =>
    obtain ⟨steps, hitems, hscan⟩ := ih fun k hk => h k (Nat.lt_succ_of_lt hk)
    obtain ⟨hlt, hlook⟩ := h n (Nat.lt_succ_self n)
    refine ⟨steps ++ [(p + stride * n, none)], ?_, ?_⟩
    · rw [items_append, hitems]
      rfl
    · rw [Nat.mul_succ, ← Nat.add_assoc]
      exact hscan.snoc hlt hlook

/-- **An item is found no earlier than the items before it allow.** -/
theorem add_sum_le (h : Scan look stride stop p steps q) {before after : List (Nat × α × Nat)}
    {item : Nat × α × Nat} (hitems : items steps = before ++ item :: after) :
    p + (before.map fun i => i.2.2).sum ≤ item.1 := by
  induction h generalizing before with
  | nil p => simp at hitems
  | @cons p q found steps hlt hlook hrest ih =>
    rcases found with _ | ⟨x, n⟩
    · exact le_trans (by simp [advance]) (ih hitems)
    · rw [items_cons_some] at hitems
      rcases before with _ | ⟨first, before⟩
      · obtain ⟨rfl, -⟩ := List.cons.inj hitems
        simp
      · obtain ⟨rfl, hlater⟩ := List.cons.inj hitems
        have hle := ih hlater
        rw [List.map_cons, List.sum_cons, ← Nat.add_assoc]
        exact hle

end Scan

end Scanning
