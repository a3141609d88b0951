import Mathlib.Data.Finset.Basic
import Mathlib.Data.Fintype.Basic

/-!
# Locks held by threads

A lock may be held in several modes, some of which exclude one another: by one thread alone,
say, or by any number of threads that only read.  A mode is free when nobody holds one that
excludes it.

* `Table` — who holds what; `Table.Free`, `acquire`, `release`.
* `Exclusive` — what excludes one another is held by one thread at most; taking a mode that
  is free, or giving one back, keeps it so.
* `exists_unblocked` — the modes are ranked, and no thread waits for one that does not rank
  above all that it holds: then some thread waits for nothing that any thread holds, so the
  threads can never all wait for one another.
-/

namespace Locks

variable {ι μ : Type*}

/-- The threads that hold each mode. -/
abbrev Table (ι μ : Type*) := μ → Finset ι

/-- Nobody holds a mode that excludes this one. -/
def Table.Free (rivals : μ → List μ) (t : Table ι μ) (m : μ) : Prop := ∀ m' ∈ rivals m, t m' = ∅

/-- Modes that exclude one another are held by one thread at most. -/
def Table.Exclusive (rivals : μ → List μ) (t : Table ι μ) : Prop :=
  ∀ m, ∀ m' ∈ rivals m, ∀ i ∈ t m, ∀ j ∈ t m', i = j

variable [DecidableEq ι] [DecidableEq μ]

instance (rivals : μ → List μ) (t : Table ι μ) (m : μ) : Decidable (t.Free rivals m) :=
  inferInstanceAs (Decidable (∀ m' ∈ rivals m, t m' = ∅))

/-- A mode taken. -/
def Table.acquire (t : Table ι μ) (i : ι) (m : μ) : Table ι μ :=
  Function.update t m (insert i (t m))

/-- A mode given back. -/
def Table.release (t : Table ι μ) (i : ι) (m : μ) : Table ι μ :=
  Function.update t m ((t m).erase i)

variable {rivals : μ → List μ} {t : Table ι μ} {i j : ι} {m m' : μ}

@[simp] theorem mem_acquire :
    j ∈ t.acquire i m m' ↔ (j = i ∧ m' = m) ∨ j ∈ t m' := by
  by_cases h : m' = m
  · subst h
    simp [Table.acquire]
  · simp [Table.acquire, h]

@[simp] theorem mem_release :
    j ∈ t.release i m m' ↔ j ∈ t m' ∧ ¬ (j = i ∧ m' = m) := by
  by_cases h : m' = m
  · subst h
    simp [Table.release, and_comm]
  · simp [Table.release, h]

/-- **Taking a mode that is free excludes nobody twice.** -/
theorem Table.Exclusive.acquire (h : t.Exclusive rivals)
    (hsymm : ∀ m m', m' ∈ rivals m → m ∈ rivals m') (hfree : t.Free rivals m) :
    (t.acquire i m).Exclusive rivals := by
  intro m₁ m₂ hrival j₁ hj₁ j₂ hj₂
  rw [mem_acquire] at hj₁ hj₂
  rcases hj₁ with ⟨rfl, rfl⟩ | hj₁
  · rcases hj₂ with ⟨rfl, -⟩ | hj₂
    · rfl
    · rw [hfree m₂ hrival] at hj₂
      exact absurd hj₂ (Finset.notMem_empty _)
  · rcases hj₂ with ⟨rfl, rfl⟩ | hj₂
    · rw [hfree m₁ (hsymm _ _ hrival)] at hj₁
      exact absurd hj₁ (Finset.notMem_empty _)
    · exact h m₁ m₂ hrival j₁ hj₁ j₂ hj₂

theorem Table.Exclusive.release (h : t.Exclusive rivals) : (t.release i m).Exclusive rivals := by
  intro m₁ m₂ hrival j₁ hj₁ j₂ hj₂
  exact h m₁ m₂ hrival j₁ (mem_release.mp hj₁).1 j₂ (mem_release.mp hj₂).1

omit [DecidableEq ι] [DecidableEq μ] in
/-- **Ranked locks do not deadlock.**  `wants` is what a thread waits for, and `active` are the
threads that have something left to do; whoever holds a lock has. -/
theorem exists_unblocked {active : ι → Prop} {wants : ι → Option μ} {rank : μ → Nat} {bound : Nat}
    (hbound : ∀ m, rank m ≤ bound) (hactive : ∀ m, ∀ i ∈ t m, active i)
    (hrank : ∀ i m, wants i = some m → ∀ m', i ∈ t m' → rank m' < rank m) (h : ∃ i, active i) :
    ∃ i, active i ∧ ∀ m, wants i = some m → ∀ m', rank m' = rank m → t m' = ∅ := by
  by_contra hblocked
  push Not at hblocked
  -- some thread waits, for a rank as high as one likes
  have hhigher : ∀ n, ∃ i m, active i ∧ wants i = some m ∧ n ≤ rank m := by
    intro n
    induction n with
    | zero =>
      obtain ⟨i, hi⟩ := h
      obtain ⟨m, hwants, -⟩ := hblocked i hi
      exact ⟨i, m, hi, hwants, Nat.zero_le _⟩
    | succ n ih =>
      obtain ⟨i, m, hi, hwants, hn⟩ := ih
      obtain ⟨m₀, hwants₀, m', hsame, hheld⟩ := hblocked i hi
      obtain rfl : m = m₀ := Option.some.inj (hwants.symm.trans hwants₀)
      obtain ⟨j, hj⟩ := hheld
      -- whoever holds it waits for something that ranks higher
      obtain ⟨m'', hwants', -⟩ := hblocked j (hactive m' j hj)
      exact ⟨j, m'', hactive m' j hj, hwants', by have := hrank j m'' hwants' m' hj; omega⟩
  obtain ⟨i, m, -, -, hhigh⟩ := hhigher (bound + 1)
  have := hbound m
  omega

end Locks
