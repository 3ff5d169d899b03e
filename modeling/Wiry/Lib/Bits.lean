/-
Bits of a string of octets, most significant first, and the numbers they spell.

A field of a wire format is a run of such bits. What a write of one bit does to
every other is `bit_set_bit`, and a number is read back off a run by its own
bits: `testBit_spell` for a run read bit by bit, `testBit_gather` for one read
octet by octet. Both are `Nat.testBit` facts, so a write followed by a read is
settled bit by bit whatever path either took.
-/
import Mathlib.Data.List.Basic
import Mathlib.Data.Nat.Bitwise
import Mathlib.Data.UInt
import Mathlib.Tactic.Common

set_option autoImplicit false

namespace Bits

/-- What holds of the 256 octets holds of every octet. -/
theorem forall_octet {P : UInt8 → Prop} (h : ∀ n, n < 256 → P (UInt8.ofNat n)) (c : UInt8) : P c := by
  have hc := h c.toNat c.toNat_lt
  rwa [UInt8.ofNat_toNat] at hc

/-- Bit `i`: the first octet comes first and each octet's high bit leads. A bit past the end is
clear. -/
def bit (bs : List UInt8) (i : ℕ) : Bool := (bs.getD (i / 8) 0).toNat.testBit (7 - i % 8)

/-- The octet with one bit of its own. -/
def mask (i : ℕ) : UInt8 := 1 <<< UInt8.ofNat (7 - i % 8)

/-- Bit `i` put to `b`. -/
def set_bit (bs : List UInt8) (i : ℕ) (b : Bool) : List UInt8 :=
  bs.modify (i / 8) fun o => if b then o ||| mask i else o &&& ~~~mask i

@[simp] theorem length_set_bit (bs : List UInt8) (i : ℕ) (b : Bool) :
    (set_bit bs i b).length = bs.length :=
  List.length_modify _ _ _

theorem toNat_mask (i : ℕ) : (mask i).toNat = 2 ^ (7 - i % 8) := by
  have hshift : ∀ n < 8, ((1 : UInt8) <<< UInt8.ofNat n).toNat = 2 ^ n := by decide
  exact hshift (7 - i % 8) (by omega)

/-- One octet with a bit put: that bit reads `b`, every other as before. -/
theorem testBit_masked (o : UInt8) (i : ℕ) (b : Bool) {k : ℕ} (hk : k < 8) :
    (if b then o ||| mask i else o &&& ~~~mask i).toNat.testBit k =
      if k = 7 - i % 8 then b else o.toNat.testBit k := by
  -- the mask has the one bit, counted from the top of its octet
  have hmask : (mask i).toNat.testBit k = decide (7 - i % 8 = k) := by
    rw [toNat_mask, Nat.testBit_two_pow]
  cases b with
  | true =>
    rw [if_pos rfl, UInt8.toNat_or, Nat.testBit_or, hmask]
    by_cases h : k = 7 - i % 8
    · simp [h]
    · simp [h, Ne.symm h]
  | false =>
    have hnot : (~~~mask i).toNat.testBit k = !decide (7 - i % 8 = k) := by
      have hsub : UInt8.size - 1 - (mask i).toNat = 2 ^ 8 - ((mask i).toNat + 1) := by
        rw [Nat.sub_sub, Nat.add_comm]
        rfl
      rw [UInt8.toNat_not, hsub, Nat.testBit_two_pow_sub_succ (mask i).toNat_lt, hmask]
      simp [hk]
    rw [if_neg Bool.false_ne_true, UInt8.toNat_and, Nat.testBit_and, hnot]
    by_cases h : k = 7 - i % 8
    · simp [h]
    · simp [h, Ne.symm h]

/-- **Only the bit that is put changes.** -/
theorem bit_set_bit {bs : List UInt8} {i : ℕ} (hi : i < 8 * bs.length) (b : Bool) (j : ℕ) :
    bit (set_bit bs i b) j = if j = i then b else bit bs j := by
  unfold bit set_bit
  rw [List.getD_eq_getElem?_getD, List.getD_eq_getElem?_getD, List.getElem?_modify]
  by_cases hoctet : i / 8 = j / 8
  · have hlt : j / 8 < bs.length := by omega
    rw [List.getElem?_eq_getElem hlt, Option.map_eq_map, Option.map_some, Option.getD_some,
      Option.getD_some, if_pos hoctet, testBit_masked _ _ _ (by omega)]
    by_cases hj : j = i
    · rw [if_pos hj, if_pos (by rw [hj])]
    · rw [if_neg hj, if_neg (by omega)]
  · have hne : j ≠ i := fun h => hoctet (by rw [h])
    rw [if_neg hne]
    simp only [if_neg hoctet, id_map']

/-- An octet is its eight bits. -/
theorem getD_eq_of_bits {bs cs : List UInt8} {n : ℕ}
    (h : ∀ i, 8 * n ≤ i → i < 8 * n + 8 → bit bs i = bit cs i) : bs.getD n 0 = cs.getD n 0 := by
  apply UInt8.toNat_inj.1
  apply Nat.eq_of_testBit_eq
  intro k
  by_cases hk : k < 8
  · have hbit := h (8 * n + (7 - k)) (by omega) (by omega)
    unfold bit at hbit
    rw [show (8 * n + (7 - k)) / 8 = n from by omega,
      show 7 - (8 * n + (7 - k)) % 8 = k from by omega] at hbit
    exact hbit
  · have hpow : 2 ^ 8 ≤ 2 ^ k := Nat.pow_le_pow_right (by omega) (by omega)
    rw [Nat.testBit_lt_two_pow (Nat.lt_of_lt_of_le (bs.getD n 0).toNat_lt hpow),
      Nat.testBit_lt_two_pow (Nat.lt_of_lt_of_le (cs.getD n 0).toNat_lt hpow)]

theorem getElem?_eq_of_bits {bs cs : List UInt8} (hlen : bs.length = cs.length) {n : ℕ}
    (h : ∀ i, 8 * n ≤ i → i < 8 * n + 8 → bit bs i = bit cs i) : bs[n]? = cs[n]? := by
  by_cases hn : n < bs.length
  · have hoctet := getD_eq_of_bits h
    rw [List.getD_eq_getElem?_getD, List.getD_eq_getElem?_getD, List.getElem?_eq_getElem hn,
      List.getElem?_eq_getElem (hlen ▸ hn), Option.getD_some, Option.getD_some] at hoctet
    rw [List.getElem?_eq_getElem hn, List.getElem?_eq_getElem (hlen ▸ hn), hoctet]
  · rw [List.getElem?_eq_none (by omega), List.getElem?_eq_none (by omega)]

/-- Octets of the same number with the same bits are the same octets. -/
theorem ext {bs cs : List UInt8} (hlen : bs.length = cs.length)
    (h : ∀ i, i < 8 * bs.length → bit bs i = bit cs i) : bs = cs := by
  apply List.ext_getElem?
  intro n
  by_cases hn : n < bs.length
  · exact getElem?_eq_of_bits hlen fun i _ hi => h i (by omega)
  · rw [List.getElem?_eq_none (by omega), List.getElem?_eq_none (by omega)]

/-- Bits read alike where the octets are alike. -/
theorem bit_congr {bs cs : List UInt8} {i j : ℕ} (hmod : i % 8 = j % 8)
    (h : bs[i / 8]? = cs[j / 8]?) : bit bs i = bit cs j := by
  unfold bit
  rw [List.getD_eq_getElem?_getD, List.getD_eq_getElem?_getD, h, hmod]

/-! ## Numbers -/

/-- The number `n` bits spell, the first one leading. -/
def spell (f : ℕ → Bool) (n : ℕ) : ℕ := (List.range n).foldl (fun v k => v * 2 + (f k).toNat) 0

theorem spell_succ (f : ℕ → Bool) (n : ℕ) : spell f (n + 1) = spell f n * 2 + (f n).toNat := by
  rw [spell, List.range_succ, List.foldl_append]
  rfl

/-- The bits of a spelled number are the function's, the first one highest. -/
theorem testBit_spell (f : ℕ → Bool) (n k : ℕ) :
    (spell f n).testBit k = if k < n then f (n - 1 - k) else false := by
  induction n generalizing k with
  | zero => simp [spell]
  | succ n ih =>
    have hlast : (f n).toNat < 2 ^ 1 := by cases f n <;> decide
    rw [spell_succ, Nat.mul_comm, show 2 = 2 ^ 1 from rfl, Nat.testBit_two_pow_mul_add _ hlast]
    by_cases hk : k < 1
    · rw [if_pos hk, if_pos (by omega), show n + 1 - 1 - k = n from by omega,
        show k = 0 from by omega]
      cases f n <;> decide
    · rw [if_neg hk, ih]
      by_cases hkn : k < n + 1
      · rw [if_pos hkn, if_pos (by omega)]
        congr 1
        omega
      · rw [if_neg hkn, if_neg (by omega)]

/-- The number octets spell, the first one leading. -/
def gather (bs : List UInt8) : ℕ := bs.foldl (fun v o => v * 2 ^ 8 + o.toNat) 0

theorem gather_concat (bs : List UInt8) (o : UInt8) :
    gather (bs ++ [o]) = gather bs * 2 ^ 8 + o.toNat := by
  rw [gather, List.foldl_append]
  rfl

/-- The bits of gathered octets are the octets' own, the first one highest. -/
theorem testBit_gather (bs : List UInt8) (k : ℕ) :
    (gather bs).testBit k = if k < 8 * bs.length then bit bs (8 * bs.length - 1 - k) else false := by
  induction bs using List.reverseRecOn generalizing k with
  | nil => simp [gather]
  | append_singleton bs o ih =>
    rw [gather_concat, Nat.mul_comm, Nat.testBit_two_pow_mul_add _ o.toNat_lt, List.length_append,
      List.length_singleton]
    -- The low eight bits are the last octet's.
    by_cases hk : k < 8
    · rw [if_pos hk, if_pos (by omega)]
      unfold bit
      rw [List.getD_append_right _ _ _ _ (by omega),
        show (8 * (bs.length + 1) - 1 - k) / 8 - bs.length = 0 from by omega,
        show 7 - (8 * (bs.length + 1) - 1 - k) % 8 = k from by omega]
      rfl
    · rw [if_neg hk, ih]
      by_cases hlt : k - 8 < 8 * bs.length
      · rw [if_pos hlt, if_pos (by omega)]
        unfold bit
        rw [List.getD_append _ _ _ _ (by omega),
          show (8 * (bs.length + 1) - 1 - k) / 8 = (8 * bs.length - 1 - (k - 8)) / 8 from by omega,
          show (8 * (bs.length + 1) - 1 - k) % 8 = (8 * bs.length - 1 - (k - 8)) % 8 from by omega]
      · rw [if_neg hlt, if_neg (by omega)]

end Bits
