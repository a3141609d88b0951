import Mathlib

/-!
# Windows of a flat memory

A mapped file or an allocated buffer is a list of cells.  The two things a
program does with it are to look at a run of cells and to copy a run of cells
over the ones already there.

* `window m p n` — the `n` cells from position `p` on (fewer at the end).
* `slice m p q` — the same with the bounds check of a slice index, `none` where
  it panics.
* `overwrite m p s` — the memory with `s` copied over the cells from `p` on;
  `length_overwrite` says a copy that fits keeps the length.
* `copyInto` — the copy with its bounds check: `none` when the destination
  leaves the memory, which is where a checked slice index panics.
* `copyAll` — a list of copies performed one after the other; a crash leaves what
  a shorter list makes.  `copyAll_isSome_iff` says when all of them go through.

* `exists_not_repeated` — the last run of cells that are not all blank has no copy
  further on.

The frame facts are `window_overwrite_self` (what was written is there),
`window_overwrite_of_disjoint` (nothing else changed) and
`overwrite_window` (writing back what is there changes nothing).
-/

namespace Window

variable {α : Type*}

/-- The `n` cells from position `p` on. -/
def window (m : List α) (p n : Nat) : List α := (m.drop p).take n

/-- The memory after `s` has been copied over the cells from `p` on. -/
def overwrite (m : List α) (p : Nat) (s : List α) : List α :=
  m.take p ++ s ++ m.drop (p + s.length)

/-- The cells from position `p` up to `q`; `none` when that is not a range of the
memory. -/
def slice (m : List α) (p q : Nat) : Option (List α) :=
  if p ≤ q ∧ q ≤ m.length then some (window m p (q - p)) else none

/-- A bounds-checked copy; `none` when the destination range leaves the memory. -/
def copyInto (m : List α) (p : Nat) (s : List α) : Option (List α) :=
  if p + s.length ≤ m.length then some (overwrite m p s) else none

/-- Bounds-checked copies, one after the other, each given as a position and the
cells to store there. -/
def copyAll (m : List α) (stores : List (Nat × List α)) : Option (List α) :=
  stores.foldlM (fun m st => copyInto m st.1 st.2) m

/-! ## Windows -/

theorem slice_eq_some {m : List α} {p n : Nat} (h : p + n ≤ m.length) :
    slice m p (p + n) = some (window m p n) := by
  rw [slice, if_pos ⟨by omega, h⟩, Nat.add_sub_cancel_left]

theorem length_window {m : List α} {p n : Nat} (h : p + n ≤ m.length) :
    (window m p n).length = n := by
  simp [window]
  omega

theorem window_append_left {a b : List α} {p n : Nat} (h : p + n ≤ a.length) :
    window (a ++ b) p n = window a p n := by
  rw [window, window, List.drop_append_of_le_length (by omega),
    List.take_append_of_le_length (by simp; omega)]

theorem window_append_right (a b : List α) (p n : Nat) :
    window (a ++ b) (a.length + p) n = window b p n := by
  rw [window, window, List.drop_append, List.drop_of_length_le (by omega)]
  simp

@[simp] theorem window_zero_length (a : List α) : window a 0 a.length = a := by
  simp [window]

theorem window_front (a b : List α) : window (a ++ b) 0 a.length = a := by
  rw [window_append_left (by omega), window_zero_length]

/-- A window inside a window. -/
theorem window_window (m : List α) {p n q k : Nat} (h : q + k ≤ n) :
    window (window m p n) q k = window m (p + q) k := by
  rw [window, window, window, List.drop_take, List.drop_drop, List.take_take,
    min_eq_left (by omega)]

/-- Reading the middle piece of three. -/
theorem window_middle (a b c : List α) : window (a ++ b ++ c) a.length b.length = b := by
  rw [List.append_assoc]
  simpa [window_front] using window_append_right a (b ++ c) 0 b.length

/-- A cell of a window. -/
theorem getElem?_window {m : List α} {p n i : Nat} (h : i < n) :
    (window m p n)[i]? = m[p + i]? := by
  rw [window, List.getElem?_take_of_lt h, List.getElem?_drop]

/-- **A run of cells with nothing but blanks behind it has no copy further on**, unless it is
blank itself: some cell of it that is not blank is not found there again. -/
theorem exists_not_repeated {m : List α} {blank : α} {p q n : Nat} (hpq : p < q)
    (hrun : ∃ i < n, m.getD (p + i) blank ≠ blank)
    (hblank : ∀ i, p + n ≤ i → m.getD i blank = blank) :
    ∃ i < n, m.getD (p + i) blank ≠ blank ∧ m.getD (q + i) blank ≠ m.getD (p + i) blank := by
  classical
  -- the last cell of the run that is not blank
  obtain ⟨i, hi, hne⟩ := hrun
  let P := fun i => i < n ∧ m.getD (p + i) blank ≠ blank
  have hlast : P (Nat.findGreatest P n) := Nat.findGreatest_spec hi.le ⟨hi, hne⟩
  refine ⟨Nat.findGreatest P n, hlast.1, hlast.2, ?_⟩
  suffices hzero : m.getD (q + Nat.findGreatest P n) blank = blank by
    rw [hzero]
    exact hlast.2.symm
  by_cases hbeyond : p + n ≤ q + Nat.findGreatest P n
  · exact hblank _ hbeyond
  · by_contra hsome
    obtain ⟨k, rfl⟩ := Nat.exists_eq_add_of_lt hpq
    refine Nat.findGreatest_is_greatest (P := P) (k := k + 1 + Nat.findGreatest P n) (n := n)
      (by omega) (by omega) ⟨by omega, ?_⟩
    rwa [show p + (k + 1 + Nat.findGreatest P n) = p + k + 1 + Nat.findGreatest P n by omega]

/-! ## Copies -/

@[simp] theorem length_overwrite {m s : List α} {p : Nat} (h : p + s.length ≤ m.length) :
    (overwrite m p s).length = m.length := by
  simp [overwrite]
  omega

theorem copyInto_eq_some {m s : List α} {p : Nat} (h : p + s.length ≤ m.length) :
    copyInto m p s = some (overwrite m p s) := if_pos h

/-- What has just been written is what is found there. -/
theorem window_overwrite_self {m s : List α} {p : Nat} (h : p + s.length ≤ m.length) :
    window (overwrite m p s) p s.length = s := by
  have hp : (m.take p).length = p := by simp; omega
  have key := window_middle (m.take p) s (m.drop (p + s.length))
  rwa [hp] at key

/-- A copy leaves every window it does not meet as it was. -/
theorem window_overwrite_of_disjoint {m s : List α} {p q n : Nat}
    (hfit : p + s.length ≤ m.length) (h : q + n ≤ p ∨ p + s.length ≤ q) :
    window (overwrite m p s) q n = window m q n := by
  have hp : (m.take p).length = p := by simp; omega
  rcases h with h | h
  · rw [overwrite, List.append_assoc, window_append_left (by omega)]
    conv_rhs => rw [← List.take_append_drop p m]
    rw [window_append_left (by omega)]
  · have hps : (m.take p ++ s).length = p + s.length := by simp [hp]
    obtain ⟨d, rfl⟩ : ∃ d, q = (p + s.length) + d := ⟨q - (p + s.length), by omega⟩
    have key := window_append_right (m.take p ++ s) (m.drop (p + s.length)) d n
    rw [hps] at key
    rw [overwrite, key, window, window, List.drop_drop]

/-- A cell behind the copy is as it was. -/
theorem getElem?_overwrite_of_behind {m s : List α} {p i : Nat} (hfit : p + s.length ≤ m.length)
    (h : p + s.length ≤ i) : (overwrite m p s)[i]? = m[i]? := by
  have hcell := congrArg (fun cells => cells[0]?)
    (window_overwrite_of_disjoint (n := 1) hfit (Or.inr h))
  simpa only [getElem?_window Nat.one_pos, Nat.add_zero] using hcell

/-- Writing back what is already there changes nothing. -/
theorem overwrite_window (m : List α) {p n : Nat} (h : p + n ≤ m.length) :
    overwrite m p (window m p n) = m := by
  rw [overwrite, length_window h, window, ← List.drop_drop, List.append_assoc,
    List.take_append_drop, List.take_append_drop]

/-- A copy into the second part of a memory. -/
theorem overwrite_append_right (a b s : List α) (p : Nat) :
    overwrite (a ++ b) (a.length + p) s = a ++ overwrite b p s := by
  rw [overwrite, overwrite, List.take_append, List.drop_append,
    List.take_of_length_le (by omega), List.drop_of_length_le (by omega)]
  simp [Nat.add_assoc]

/-- A copy into the first part of a memory. -/
theorem overwrite_append_left {a s : List α} (b : List α) {p : Nat}
    (h : p + s.length ≤ a.length) : overwrite (a ++ b) p s = overwrite a p s ++ b := by
  rw [overwrite, overwrite, List.take_append_of_le_length (by omega),
    List.drop_append_of_le_length h, ← List.append_assoc]

/-- A copy inside a window is a copy into the window. -/
theorem window_overwrite_inside {m s : List α} {p n k : Nat} (hfit : p + n ≤ m.length)
    (h : k + s.length ≤ n) :
    window (overwrite m (p + k) s) p n = overwrite (window m p n) k s := by
  have hp : (m.take p).length = p := by simp; omega
  have hwin := length_window hfit
  have hm : m = m.take p ++ (window m p n ++ m.drop (p + n)) := by
    rw [window, ← List.drop_drop, List.take_append_drop, List.take_append_drop]
  have hcopy := overwrite_append_right (m.take p) (window m p n ++ m.drop (p + n)) s k
  rw [← hm, hp, overwrite_append_left _ (by omega), ← List.append_assoc] at hcopy
  have hmid := window_middle (m.take p) (overwrite (window m p n) k s) (m.drop (p + n))
  rwa [hp, length_overwrite (by omega), hwin, ← hcopy] at hmid

/-- A copy over the whole first part of a memory. -/
theorem overwrite_front {a s : List α} (b : List α) (h : s.length = a.length) :
    overwrite (a ++ b) 0 s = s ++ b := by
  simp [overwrite, h]

/-- A copy that starts where the first part ends keeps the first part. -/
theorem overwrite_append_length (a b s : List α) :
    overwrite (a ++ b) a.length s = a ++ (s ++ b.drop s.length) := by
  simp [overwrite]

/-- Two copies, the second behind the first, are one. -/
theorem overwrite_overwrite_behind {m s t : List α} {p : Nat} (h : p + s.length ≤ m.length) :
    overwrite (overwrite m p s) (p + s.length) t = overwrite m p (s ++ t) := by
  have hfront : (m.take p ++ s).length = p + s.length := by simp; omega
  have key := overwrite_append_length (m.take p ++ s) (m.drop (p + s.length)) t
  rw [hfront] at key
  rw [show overwrite m p s = m.take p ++ s ++ m.drop (p + s.length) from rfl, key, overwrite,
    List.length_append, List.drop_drop]
  simp [Nat.add_assoc]

/-! ## Several copies -/

@[simp] theorem copyAll_nil (m : List α) : copyAll m [] = some m := rfl

theorem copyAll_cons (m : List α) (st : Nat × List α) (stores : List (Nat × List α)) :
    copyAll m (st :: stores) = (copyInto m st.1 st.2).bind (fun m' => copyAll m' stores) := rfl

/-- One fitting copy, peeled off the front of a list of copies. -/
theorem copyAll_cons_of_fits {m s : List α} {p : Nat} (stores : List (Nat × List α))
    (h : p + s.length ≤ m.length) :
    copyAll m ((p, s) :: stores) = copyAll (overwrite m p s) stores := by
  rw [copyAll_cons, copyInto_eq_some h]
  rfl

theorem length_of_copyInto {m m' s : List α} {p : Nat} (h : copyInto m p s = some m') :
    m'.length = m.length := by
  unfold copyInto at h
  split at h
  · next hfits =>
    rw [← Option.some.inj h, length_overwrite hfits]
  · cases h

theorem length_of_copyAll {stores : List (Nat × List α)} {m m' : List α}
    (h : copyAll m stores = some m') : m'.length = m.length := by
  induction stores generalizing m with
  | nil => rw [← Option.some.inj h]
  | cons st stores ih =>
    rw [copyAll_cons] at h
    obtain ⟨m₁, hfirst, hrest⟩ := Option.bind_eq_some_iff.mp h
    rw [ih hrest, length_of_copyInto hfirst]

/-- **Copies go through exactly when each of them stays inside the memory.** -/
theorem copyAll_isSome_iff {stores : List (Nat × List α)} {m : List α} :
    (copyAll m stores).isSome = true ↔ ∀ st ∈ stores, st.1 + st.2.length ≤ m.length := by
  induction stores generalizing m with
  | nil => simp
  | cons st stores ih =>
    rw [copyAll_cons, List.forall_mem_cons]
    by_cases hfits : st.1 + st.2.length ≤ m.length
    · rw [copyInto_eq_some hfits, Option.bind_some, ih, length_overwrite hfits]
      simp [hfits]
    · simp [copyInto, hfits]

end Window
