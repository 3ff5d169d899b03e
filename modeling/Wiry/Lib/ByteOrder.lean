/-
One's complement sums taken in the other byte order.

Words read low octet first add up to another number, but the folded sum is the
same with its octets exchanged, so a checksum comes out alike in either order.
-/
import Wiry.Lib.OnesComplement

set_option autoImplicit false

namespace OnesComplement

/-- The words of a string of octets added up, the low octet of each first. -/
def low_words : List UInt8 → ℕ
  | a :: b :: rest => b.toNat * 2 ^ 8 + a.toNat + low_words rest
  | [a] => a.toNat
  | [] => 0

/-- A word with its two octets exchanged. -/
def swap16 (n : ℕ) : ℕ := n % 2 ^ 8 * 2 ^ 8 + n / 2 ^ 8

/-- What the sums of the two orders have in common. -/
theorem words_mod_low (bs : List UInt8) :
    words bs % 65535 = low_words bs * 2 ^ 8 % 65535 ∧ (words bs = 0 ↔ low_words bs = 0) ∧
      low_words bs ≤ words bs * 2 ^ 8 := by
  induction bs using words.induct with
  | case1 a b rest ih =>
    obtain ⟨hmod, hzero, hle⟩ := ih
    rw [words, low_words]
    refine ⟨?_, ?_, ?_⟩
    · omega
    · omega
    · omega
  | case2 a =>
    rw [words, low_words]
    refine ⟨rfl, ?_, ?_⟩
    · omega
    · omega
  | case3 => exact ⟨rfl, Iff.rfl, Nat.zero_le _⟩

/-- **Either byte order folds to the same word**, its octets exchanged. -/
theorem folded_low_words (bs : List UInt8) :
    folded (words bs) = swap16 (folded (low_words bs)) := by
  obtain ⟨hmod, hzero, -⟩ := words_mod_low bs
  have hhigh := folded_mod (words bs)
  have hlow := folded_mod (low_words bs)
  have hhigh_le := folded_le (words bs)
  have hlow_le := folded_le (low_words bs)
  have hhigh_zero := folded_eq_zero_iff (words bs)
  have hlow_zero := folded_eq_zero_iff (low_words bs)
  unfold swap16
  omega

theorem swap16_swap16 {n : ℕ} (h : n ≤ 65535) : swap16 (swap16 n) = n := by
  unfold swap16
  omega

theorem swap16_complement {n : ℕ} (h : n ≤ 65535) : swap16 (65535 - n) = 65535 - swap16 n := by
  unfold swap16
  omega

/-- Sums add up over an even cut. -/
theorem low_words_append {bs : List UInt8} (h : bs.length % 2 = 0) (cs : List UInt8) :
    low_words (bs ++ cs) = low_words bs + low_words cs := by
  induction bs using words.induct with
  | case1 a b rest ih =>
    rw [List.length_cons, List.length_cons] at h
    rw [List.cons_append, List.cons_append, low_words, low_words, ih (by omega)]
    omega
  | case2 a => exact absurd h Nat.one_ne_zero
  | case3 => rw [List.nil_append, low_words, Nat.zero_add]

end OnesComplement
