import Mathlib.Logic.Function.Iterate
import Mathlib.Order.Basic

/-!
# Loops with fuel

A loop whose round either returns or goes on to another state, cut off after so many
rounds.

* `loop` — the loop; `next` of the rules below is a map that gives the state a round goes
  on to, whenever it does.
* `loop_eq_none_iff` — the fuel runs out exactly when every round goes on.
* `loop_mono` — once the loop returns, more fuel changes nothing.
* `loop_of_repeats` — a loop that comes back to a state never returns, so as much fuel as
  there are rounds up to the repetition does for any number of rounds.
-/

namespace Loop

variable {σ ρ : Type*}

/-- At most so many rounds. -/
def loop (round : σ → ρ ⊕ σ) : Nat → σ → Option ρ
  | 0, _ => none
  | n + 1, s =>
    match round s with
    | .inl r => some r
    | .inr s' => loop round n s'

variable {round : σ → ρ ⊕ σ} {next : σ → σ} {s : σ} {n m : Nat}

theorem loop_succ_inl {r : ρ} (h : round s = .inl r) (n : Nat) :
    loop round (n + 1) s = some r := by
  rw [loop, h]

theorem loop_succ_inr {s' : σ} (h : round s = .inr s') (n : Nat) :
    loop round (n + 1) s = loop round n s' := by
  rw [loop, h]

/-- Once the loop returns, more fuel changes nothing. -/
theorem loop_mono {r : ρ} (h : loop round n s = some r) (k : Nat) :
    loop round (n + k) s = some r := by
  induction n generalizing s with
  | zero => cases h
  | succ n ih =>
    rw [Nat.add_right_comm]
    rcases hround : round s with r' | s'
    · rwa [loop_succ_inl hround] at h ⊢
    · rw [loop_succ_inr hround] at h ⊢
      exact ih h

/-- **The fuel runs out exactly when every round goes on.** -/
theorem loop_eq_none_iff (hnext : ∀ s s', round s = .inr s' → s' = next s) :
    loop round n s = none ↔ ∀ k < n, round (next^[k] s) = .inr (next^[k + 1] s) := by
  induction n generalizing s with
  | zero => simp [loop]
  | succ n ih =>
    rcases hround : round s with r | s'
    · rw [loop_succ_inl hround]
      refine ⟨fun h => (Option.some_ne_none r h).elim, fun h => ?_⟩
      have := h 0 (Nat.succ_pos n)
      rw [Function.iterate_zero_apply, hround] at this
      cases this
    · obtain rfl := hnext s s' hround
      rw [loop_succ_inr hround, ih]
      constructor
      · rintro h (_ | k) hk
        · exact hround
        · exact h k (Nat.lt_of_succ_lt_succ hk)
      · intro h k hk
        exact h (k + 1) (Nat.succ_lt_succ hk)

/-- A loop that has come back to a state goes through the same states again. -/
theorem exists_iterate_of_repeats {i j : Nat} (hij : i < j) (h : next^[j] s = next^[i] s)
    (k : Nat) :
    ∃ k' < j, next^[k] s = next^[k'] s := by
  induction k using Nat.strongRecOn with
  | ind k ih =>
    by_cases hk : k < j
    · exact ⟨k, hk, rfl⟩
    · obtain ⟨d, rfl⟩ := Nat.exists_eq_add_of_le (Nat.le_of_not_lt hk)
      obtain ⟨k', hk', heq⟩ := ih (d + i) (by omega)
      refine ⟨k', hk', ?_⟩
      rw [Nat.add_comm, Function.iterate_add_apply, h, ← Function.iterate_add_apply, heq]

/-- **A loop that comes back to a state never returns.** -/
theorem loop_of_repeats (hnext : ∀ s s', round s = .inr s' → s' = next s) {i j : Nat} (hij : i < j)
    (h : next^[j] s = next^[i] s) (hn : j ≤ n) : loop round n s = loop round j s := by
  obtain ⟨k, rfl⟩ := Nat.exists_eq_add_of_le hn
  rcases hj : loop round j s with _ | r
  · rw [loop_eq_none_iff hnext] at hj ⊢
    intro k _
    obtain ⟨k', hk', heq⟩ := exists_iterate_of_repeats hij h k
    rw [Function.iterate_succ_apply', heq, hj k' hk', Function.iterate_succ_apply']
  · exact loop_mono hj k

end Loop
