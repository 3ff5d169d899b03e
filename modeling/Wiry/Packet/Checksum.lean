/-
The Internet checksum of `crates/wiry-core/src/checksum.rs`: a sum of 16-bit
words in 32 bits, its carries folded back in.
-/
import Mathlib.Data.UInt
import Mathlib.Tactic.Common
import Wiry.Packet.Spans

set_option autoImplicit false

namespace Wiry.Packet

theorem fold_decreases {sum : UInt32} (h : sum >>> 16 ≠ 0) :
    ((sum &&& (0xffff : UInt32)) + (sum >>> 16)).toNat < sum.toNat := by
  have hlow : (sum &&& (0xffff : UInt32)).toNat = sum.toNat % 2 ^ 16 :=
    (UInt32.toNat_and _ _).trans (Nat.and_two_pow_sub_one_eq_mod sum.toNat 16)
  have hhigh : (sum >>> 16).toNat = sum.toNat / 2 ^ 16 :=
    (UInt32.toNat_shiftRight _ _).trans (Nat.shiftRight_eq_div_pow sum.toNat 16)
  have hpos : (sum >>> 16).toNat ≠ 0 := fun h0 => h (UInt32.toNat_inj.1 h0)
  have hlt := sum.toNat_lt
  rw [UInt32.toNat_add, hlow, hhigh, Nat.mod_eq_of_lt (by omega)]
  omega

/-- `fold`: the carries are added back until there is none. -/
def fold (sum : UInt32) : UInt32 :=
  if _h : sum >>> 16 ≠ 0 then fold ((sum &&& (0xffff : UInt32)) + (sum >>> 16)) else sum
termination_by sum.toNat
decreasing_by exact fold_decreases ‹_›

/-- The words of `data` added up; an odd octet is the high one of its word. -/
def sum_words : Bytes → UInt32 → UInt32
  | a :: b :: rest, sum => sum_words rest (sum + (be16 [a, b] 0).toUInt32)
  | [a], sum => sum + a.toUInt32 <<< 8
  | [], sum => sum

/-- `sum16`. -/
def sum16 (data : Bytes) (seed : UInt32) : UInt32 := fold (sum_words data seed)

/-- `ones_complement`. -/
def ones_complement (data : Bytes) : UInt16 := ~~~(fold (sum16 data 0)).toUInt16

end Wiry.Packet
