/-
The two ways a fraction goes to the nearest whole number: a tie to the even one, or away from zero.
They differ at a tie with an even number below it, and nowhere else. Nothing here names a program.
-/
import Mathlib.Algebra.Order.Round
import Mathlib.Algebra.Ring.Int.Parity
import Mathlib.Data.Rat.Floor
import Mathlib.Tactic.Linarith
import Mathlib.Tactic.NormNum

set_option autoImplicit false

namespace Wiry.Rounding

/-- To the nearest, a tie to the even one. -/
def half_even (q : ℚ) : ℤ :=
  if q - ⌊q⌋ < 1 / 2 then ⌊q⌋
  else if 1 / 2 < q - ⌊q⌋ then ⌊q⌋ + 1
  else if ⌊q⌋ % 2 = 0 then ⌊q⌋ else ⌊q⌋ + 1

/-- To the nearest, a tie away from zero. -/
def half_away (q : ℚ) : ℤ := if 0 ≤ q then ⌊q + 1 / 2⌋ else ⌈q - 1 / 2⌉

/-- A tie that goes down to the even number. -/
def EvenTie (q : ℚ) : Prop := q - ⌊q⌋ = 1 / 2 ∧ ⌊q⌋ % 2 = 0

instance (q : ℚ) : Decidable (EvenTie q) := inferInstanceAs (Decidable (_ ∧ _))

variable {q : ℚ}

theorem half_even_intCast (n : ℤ) : half_even n = n := by
  unfold half_even
  rw [Int.floor_intCast, sub_self, if_pos (by norm_num)]

theorem half_even_le (q : ℚ) : half_even q ≤ ⌊q⌋ + 1 := by
  unfold half_even
  split
  · omega
  · split
    · exact le_rfl
    · split
      · omega
      · exact le_rfl

theorem floor_le_half_even (q : ℚ) : ⌊q⌋ ≤ half_even q := by
  unfold half_even
  split
  · exact le_rfl
  · split
    · omega
    · split
      · exact le_rfl
      · omega

/-- What `half_away` goes to, by the side of the tie. -/
theorem half_away_eq (h : 0 ≤ q) : half_away q = if q - ⌊q⌋ < 1 / 2 then ⌊q⌋ else ⌊q⌋ + 1 := by
  have hlo := Int.floor_le q
  have hhi := Int.lt_floor_add_one q
  unfold half_away
  rw [if_pos h]
  split
  · rw [Int.floor_eq_iff]
    constructor
    · linarith
    · linarith
  · rw [Int.floor_eq_iff]
    push_cast
    constructor
    · linarith
    · linarith

theorem half_away_natCast (n : ℕ) : half_away n = n := by
  rw [half_away_eq (Nat.cast_nonneg n), Int.floor_natCast, Int.cast_natCast, sub_self,
    if_pos (by norm_num)]

/-- The two roundings differ on the ties whose lower neighbour is even, and nowhere else. -/
theorem half_even_eq_half_away_iff (h : 0 ≤ q) : half_even q = half_away q ↔ ¬ EvenTie q := by
  rw [half_away_eq h]
  unfold half_even EvenTie
  by_cases hlt : q - ⌊q⌋ < 1 / 2
  · rw [if_pos hlt, if_pos hlt]
    simp only [true_iff]
    rintro ⟨heq, -⟩
    exact absurd heq (ne_of_lt hlt)
  · rw [if_neg hlt, if_neg hlt]
    by_cases hgt : 1 / 2 < q - ⌊q⌋
    · rw [if_pos hgt]
      simp only [true_iff]
      rintro ⟨heq, -⟩
      exact absurd heq.symm (ne_of_lt hgt)
    · -- at the tie one goes up and the other by the parity
      have htie : q - ⌊q⌋ = 1 / 2 := le_antisymm (not_lt.1 hgt) (not_lt.1 hlt)
      rw [if_neg hgt]
      by_cases heven : ⌊q⌋ % 2 = 0
      · rw [if_pos heven]
        constructor
        · intro heq
          omega
        · intro hnot
          exact absurd ⟨htie, heven⟩ hnot
      · rw [if_neg heven]
        simp only [true_iff]
        rintro ⟨-, h⟩
        exact heven h

/-- Half a step below a whole number is where `half_away` starts to reach it. -/
theorem half_away_lt_iff (h : 0 ≤ q) (n : ℤ) : half_away q < n ↔ q < n - 1 / 2 := by
  unfold half_away
  rw [if_pos h, Int.floor_lt]
  constructor
  · intro hlt
    linarith
  · intro hlt
    linarith

theorem half_away_nonneg (h : 0 ≤ q) : 0 ≤ half_away q := by
  unfold half_away
  rw [if_pos h]
  exact Int.floor_nonneg.2 (by linarith)

end Wiry.Rounding
