import Mathlib.Data.Nat.ModEq

/-!
# Counting round a ring

A counter that only goes up, and a ring of slots it goes round.  The counter is a machine
word: it counts modulo `M`, and the number of slots divides `M`.

* `and_mask` — masking a number with one less than a power of two is the remainder.
* `slot_wrap` — the counter may wrap: the slot is the one it would be without.
* `slot_injective` — as many counts as there are slots come to as many slots.
* `slot_turns` — whole turns change nothing.
-/

namespace Ring

variable {M cap : Nat}

/-- Masking with one less than a power of two. -/
theorem and_mask {mask n : Nat} (h : mask + 1 = 2 ^ n) (x : Nat) : x &&& mask = x % (mask + 1) := by
  obtain rfl : mask = 2 ^ n - 1 := by omega
  rw [h, Nat.and_two_pow_sub_one_eq_mod]

/-- Wrapping the counter does not change the slot. -/
theorem slot_wrap (h : cap ∣ M) (s : Nat) : s % M % cap = s % cap :=
  Nat.mod_mod_of_dvd s h

/-- **Counts less than a turn apart come to different slots.** -/
theorem slot_injective {s i j : Nat} (hi : i < cap) (hj : j < cap)
    (h : (s + i) % cap = (s + j) % cap) : i = j := by
  have hmod : i ≡ j [MOD cap] := Nat.ModEq.add_left_cancel' s h
  rwa [Nat.ModEq, Nat.mod_eq_of_lt hi, Nat.mod_eq_of_lt hj] at hmod

/-- Whole turns lead back to the same slot. -/
theorem slot_turns (s k : Nat) : (s + k * cap) % cap = s % cap :=
  Nat.add_mul_mod_self_right s k cap

end Ring
