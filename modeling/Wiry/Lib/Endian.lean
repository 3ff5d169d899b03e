/-
Numbers of a fixed count of octets, least significant first.

`digits` and `value` are inverse to each other on numbers that fit and on strings
of the right length; the other byte order is the same with the octets reversed.
-/
import Mathlib.Data.List.Basic
import Mathlib.Data.UInt
import Mathlib.Tactic.Common

set_option autoImplicit false

namespace Endian

/-- The `n` low octets of a number, least significant first. -/
def digits : ℕ → ℕ → List UInt8
  | 0, _ => []
  | n + 1, v => UInt8.ofNat v :: digits n (v / 2 ^ 8)

/-- The number whose octets these are, least significant first. -/
def value : List UInt8 → ℕ
  | [] => 0
  | o :: rest => o.toNat + 2 ^ 8 * value rest

@[simp] theorem length_digits (n v : ℕ) : (digits n v).length = n := by
  induction n generalizing v with
  | zero => rfl
  | succ n ih => rw [digits, List.length_cons, ih]

/-- A number of so many octets. -/
theorem value_lt (bs : List UInt8) : value bs < 2 ^ (8 * bs.length) := by
  induction bs with
  | nil => exact Nat.one_pos
  | cons o rest ih =>
    have ho := o.toNat_lt
    have hpow : 2 ^ (8 * (o :: rest).length) = 2 ^ 8 * 2 ^ (8 * rest.length) := by
      rw [List.length_cons, Nat.mul_succ, Nat.pow_add, Nat.mul_comm]
    rw [value, hpow]
    omega

/-- What a number reads as again: its low octets. -/
theorem value_digits (n v : ℕ) : value (digits n v) = v % 2 ^ (8 * n) := by
  induction n generalizing v with
  | zero => exact (Nat.mod_one v).symm
  | succ n ih =>
    have hpow : 2 ^ (8 * (n + 1)) = 2 ^ 8 * 2 ^ (8 * n) := by
      rw [Nat.mul_succ, Nat.pow_add, Nat.mul_comm]
    rw [digits, value, ih, UInt8.toNat_ofNat', hpow, Nat.mod_mul]

theorem value_digits_of_lt {n v : ℕ} (h : v < 2 ^ (8 * n)) : value (digits n v) = v := by
  rw [value_digits, Nat.mod_eq_of_lt h]

/-- Octets are those of the number they read as. -/
theorem digits_value (bs : List UInt8) : digits bs.length (value bs) = bs := by
  induction bs with
  | nil => rfl
  | cons o rest ih =>
    have ho := o.toNat_lt
    have hlow : UInt8.ofNat (o.toNat + 2 ^ 8 * value rest) = o := by
      apply UInt8.toNat_inj.1
      rw [UInt8.toNat_ofNat']
      omega
    have hhigh : (o.toNat + 2 ^ 8 * value rest) / 2 ^ 8 = value rest := by omega
    rw [List.length_cons, value, digits, hlow, hhigh, ih]

/-- A number in two halves. -/
theorem value_append (bs cs : List UInt8) :
    value (bs ++ cs) = value bs + 2 ^ (8 * bs.length) * value cs := by
  induction bs with
  | nil => rw [List.nil_append, value, List.length_nil, Nat.mul_zero, Nat.pow_zero]; omega
  | cons o rest ih =>
    rw [List.cons_append, value, value, ih, List.length_cons, Nat.mul_succ, Nat.pow_add,
      Nat.mul_add, ← Nat.add_assoc, Nat.mul_comm (2 ^ (8 * rest.length)) (2 ^ 8), Nat.mul_assoc]

/-! ## Most significant first -/

/-- The number whose octets these are, most significant first. -/
def big (bs : List UInt8) : ℕ := value bs.reverse

theorem big_append (bs cs : List UInt8) : big (bs ++ cs) = big bs * 2 ^ (8 * cs.length) + big cs := by
  unfold big
  rw [List.reverse_append, value_append, List.length_reverse, Nat.mul_comm, Nat.add_comm]

theorem big_concat (bs : List UInt8) (o : UInt8) : big (bs ++ [o]) = big bs * 2 ^ 8 + o.toNat := by
  rw [big_append]
  rfl

theorem big_lt (bs : List UInt8) : big bs < 2 ^ (8 * bs.length) := by
  have h := value_lt bs.reverse
  rwa [List.length_reverse] at h

/-- The front of a string is the high part of its number. -/
theorem big_take (bs : List UInt8) (k : ℕ) :
    big (bs.take k) = big bs / 2 ^ (8 * (bs.length - k)) := by
  have hsplit := big_append (bs.take k) (bs.drop k)
  have hlow := big_lt (bs.drop k)
  rw [List.take_append_drop] at hsplit
  rw [List.length_drop] at hsplit hlow
  rw [hsplit, Nat.mul_comm, Nat.mul_add_div (Nat.two_pow_pos _), Nat.div_eq_of_lt hlow, Nat.add_zero]

/-- The rest of a string is the low part. -/
theorem big_drop (bs : List UInt8) (k : ℕ) :
    big (bs.drop k) = big bs % 2 ^ (8 * (bs.length - k)) := by
  have hsplit := big_append (bs.take k) (bs.drop k)
  have hlow := big_lt (bs.drop k)
  rw [List.take_append_drop] at hsplit
  rw [List.length_drop] at hsplit hlow
  rw [hsplit, Nat.mul_comm, Nat.mul_add_mod, Nat.mod_eq_of_lt hlow]

/-- Strings of one length are told apart by their numbers. -/
theorem big_inj {bs cs : List UInt8} (hlen : bs.length = cs.length) (h : big bs = big cs) : bs = cs := by
  have hbs := digits_value bs.reverse
  have hcs := digits_value cs.reverse
  rw [List.length_reverse] at hbs hcs
  apply List.reverse_injective
  rw [← hbs, ← hcs, hlen]
  exact congrArg (digits cs.length) h

end Endian
