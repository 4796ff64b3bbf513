import Mathlib.Algebra.Order.Ring.Int

/-!
# Counters of the Type int

An `int` of 32 bits that is incremented past its maximum wraps around to its minimum. (The
language leaves the overflow of a signed integer undefined; this is what the hardware does.)
A counter that starts at zero tells how often it has been incremented up to `2 ^ 31 - 1` times
(`countedTo_of_lt`), and never says more than that (`countedTo_le`).

## Main results

* `increment_countedTo`: one more increment.
* `countedTo_of_lt`, `countedTo_le`: what the counter says of the number of increments.
-/

/-- `i++` of an `int`. -/
def increment (i : ℤ) : ℤ :=
  (i + 1).bmod (2 ^ 32)

/-- An `int` that has been zero and has been incremented `n` times. -/
def countedTo (n : ℕ) : ℤ :=
  (n : ℤ).bmod (2 ^ 32)

@[simp] theorem countedTo_zero : countedTo 0 = 0 := rfl

/-- One more increment. -/
theorem increment_countedTo (n : ℕ) : increment (countedTo n) = countedTo (n + 1) := by
  have hwrap : ((n : ℤ).bmod (2 ^ 32) + 1).bmod (2 ^ 32) = ((n : ℤ) + 1).bmod (2 ^ 32) :=
    Int.bmod_add_bmod
  have hcast : ((n + 1 : ℕ) : ℤ) = n + 1 := Nat.cast_succ n
  unfold increment countedTo
  rw [hcast]
  exact hwrap

/-- Below `2 ^ 31` the counter is exact. -/
theorem countedTo_of_lt {n : ℕ} (hn : n < 2 ^ 31) : countedTo n = n :=
  Int.bmod_eq_of_le (by omega) (by omega)

/-- The counter is never ahead. -/
theorem countedTo_le (n : ℕ) : countedTo n ≤ n := by
  rcases Nat.lt_or_ge n (2 ^ 31) with hn | hn
  · exact (countedTo_of_lt hn).le
  · have hmax : countedTo n < (2 ^ 32 + 1) / 2 := Int.bmod_lt (by omega)
    omega

/-- The increment that overflows. -/
theorem increment_max : increment (2 ^ 31 - 1) = -2 ^ 31 := rfl
