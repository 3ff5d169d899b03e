/-
The two steps a multiplicative bit mixer is made of, on a machine word: a word
exclusive-ored with itself shifted right, and a multiplication by an odd
constant. Neither loses anything, so a mixer takes every value.
-/
import Mathlib.Data.Fintype.EquivFin
import Mathlib.Data.Nat.Bitwise
import Mathlib.Data.UInt
import Mathlib.Tactic.Common

set_option autoImplicit false

namespace Mixers

/-- A number exclusive-ored with itself shifted right determines the number: the shifted copy is
smaller and mixed the same way. -/
theorem nat_xor_shift_injective {k : ℕ} (hk : 0 < k) (x y : ℕ)
    (h : x ^^^ x >>> k = y ^^^ y >>> k) : x = y := by
  induction x using Nat.strongRecOn generalizing y with
  | ind x ih =>
    -- `n >>> k = n` leaves only zero, as `k` is positive.
    have hfix : ∀ n : ℕ, n >>> k = n → n = 0 := by
      intro n hn
      by_contra hpos
      rw [Nat.shiftRight_eq_div_pow] at hn
      have hlt := Nat.div_lt_self (Nat.pos_of_ne_zero hpos) (Nat.one_lt_two_pow hk.ne')
      omega
    rcases Nat.eq_zero_or_pos x with hx | hx
    · rw [hx, Nat.zero_shiftRight, Nat.xor_zero] at h
      rw [hx, hfix y (Nat.xor_eq_zero_iff.1 h.symm).symm]
    · have hlt : x >>> k < x := by
        rw [Nat.shiftRight_eq_div_pow]
        exact Nat.div_lt_self hx (Nat.one_lt_two_pow hk.ne')
      have hshift : x >>> k = y >>> k := by
        apply ih _ hlt
        rw [← Nat.shiftRight_xor_distrib, ← Nat.shiftRight_xor_distrib, h]
      rw [hshift] at h
      exact Nat.xor_left_injective h

/-- The mixing step on a 64-bit word. -/
theorem xor_shift_injective {k : UInt64} (hk : 0 < k.toNat % 64) :
    Function.Injective fun x : UInt64 => x ^^^ x >>> k := by
  intro x y h
  apply UInt64.toNat_inj.1
  apply nat_xor_shift_injective hk
  have hnat := congrArg UInt64.toNat h
  simpa only [UInt64.toNat_xor, UInt64.toNat_shiftRight] using hnat

/-- A constant with an inverse, as every odd one has, multiplies without loss. -/
theorem mul_injective {a b : UInt64} (hab : a * b = 1) :
    Function.Injective fun x : UInt64 => x * a := by
  intro x y h
  have hmul : x * a * b = y * a * b := congrArg (fun z => z * b) h
  rwa [UInt64.mul_assoc, UInt64.mul_assoc, hab, UInt64.mul_one, UInt64.mul_one] at hmul

/-- What loses nothing takes every value. -/
theorem takes_every_value {f : UInt64 → UInt64} (hf : Function.Injective f) :
    Function.Surjective f := by
  have hfin : Finite UInt64 :=
    Finite.of_injective (fun x : UInt64 => x.toBitVec.toFin) fun _ _ h =>
      UInt64.toBitVec_inj.1 (BitVec.eq_of_toFin_eq h)
  exact Finite.surjective_of_injective hf

end Mixers
