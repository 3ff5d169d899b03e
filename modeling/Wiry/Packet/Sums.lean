/-
What the sums of `crates/wiry-core/src/checksum.rs` add up to: the loops in 32
bits against the words of the octets as numbers.

`sum16` wraps where the words reach `2 ^ 32`, which takes more than 131074
octets; below that its complement is the checksum, and from there on the carries
it has lost are missing from it.
-/
import Wiry.Lib.OnesComplement
import Wiry.Packet.Compute

set_option autoImplicit false

namespace Wiry.Packet

open OnesComplement

/-! ## The loops -/

/-- Folding in words is folding the number. -/
theorem toNat_fold (sum : UInt32) : (fold sum).toNat = folded sum.toNat := by
  induction sum using fold.induct with
  | case1 sum hcarry ih =>
    have hlow : (sum &&& (0xffff : UInt32)).toNat = sum.toNat % 2 ^ 16 :=
      (UInt32.toNat_and _ _).trans (Nat.and_two_pow_sub_one_eq_mod sum.toNat 16)
    have hhigh : (sum >>> 16).toNat = sum.toNat / 2 ^ 16 :=
      (UInt32.toNat_shiftRight _ _).trans (Nat.shiftRight_eq_div_pow sum.toNat 16)
    have hlt := sum.toNat_lt
    rw [fold, dif_pos hcarry, ih, UInt32.toNat_add, hlow, hhigh, Nat.mod_eq_of_lt (by omega),
      folded_carry]
  | case2 sum hnone =>
    have hhigh : (sum >>> 16).toNat = sum.toNat / 2 ^ 16 :=
      (UInt32.toNat_shiftRight _ _).trans (Nat.shiftRight_eq_div_pow sum.toNat 16)
    have hzero : (sum >>> 16).toNat = 0 := congrArg UInt32.toNat (not_not.1 hnone)
    rw [fold, dif_neg hnone, folded_of_le (by omega)]

theorem toNat_be16_pair (a b : UInt8) : (be16 [a, b] 0).toNat = a.toNat * 2 ^ 8 + b.toNat := by
  have ha := a.toNat_lt
  have hb := b.toNat_lt
  rw [be16, UInt16.toNat_ofNat']
  exact Nat.mod_eq_of_lt (by simp only [List.getD_cons_zero, List.getD_cons_succ]; omega)

/-- The sum in 32 bits is the sum of the words, cut to 32 bits. -/
theorem toNat_sum_words (bs : Bytes) (seed : UInt32) :
    (sum_words bs seed).toNat = (seed.toNat + words bs) % 2 ^ 32 := by
  induction bs using words.induct generalizing seed with
  | case1 a b rest ih =>
    rw [sum_words, ih, words, UInt32.toNat_add, UInt16.toNat_toUInt32, toNat_be16_pair]
    omega
  | case2 a =>
    have ha := a.toNat_lt
    have hshift : (a.toUInt32 <<< 8).toNat = a.toNat * 2 ^ 8 := by
      have hsmall : a.toNat <<< 8 < 2 ^ 32 := by
        rw [Nat.shiftLeft_eq]
        omega
      rw [← Nat.shiftLeft_eq, ← Nat.mod_eq_of_lt hsmall, ← UInt8.toNat_toUInt32]
      exact UInt32.toNat_shiftLeft _ _
    rw [sum_words, words, UInt32.toNat_add, hshift]
  | case3 =>
    rw [sum_words, words, Nat.add_zero, Nat.mod_eq_of_lt seed.toNat_lt]

theorem toNat_sum16 (bs : Bytes) (seed : UInt32) :
    (sum16 bs seed).toNat = folded ((seed.toNat + words bs) % 2 ^ 32) := by
  rw [sum16, toNat_fold, toNat_sum_words]

theorem toNat_finish (sum : UInt32) : (finish sum).toNat = 65535 - folded sum.toNat := by
  have hle := folded_le sum.toNat
  rw [finish, UInt32.toNat_toUInt16, UInt32.toNat_not, toNat_fold]
  show (2 ^ 32 - 1 - folded sum.toNat) % 2 ^ 16 = _
  omega

/-- The checksum computed from a seed. -/
theorem toNat_finish_sum16 (bs : Bytes) (seed : UInt32) :
    (finish (sum16 bs seed)).toNat = 65535 - folded ((seed.toNat + words bs) % 2 ^ 32) := by
  rw [toNat_finish, toNat_sum16, folded_of_le (folded_le _)]

theorem toNat_ones_complement (bs : Bytes) :
    (ones_complement bs).toNat = 65535 - folded (words bs % 2 ^ 32) := by
  have hle := folded_le (words bs % 2 ^ 32)
  rw [ones_complement, UInt16.toNat_not, UInt32.toNat_toUInt16, toNat_fold, toNat_sum16,
    folded_of_le (folded_le _), UInt32.toNat_zero, Nat.zero_add]
  show 2 ^ 16 - 1 - folded (words bs % 2 ^ 32) % 2 ^ 16 = _
  omega

/-! ## Pseudo-headers -/

/-- The pseudo-header in front of a transport segment of `tlen` octets. -/
def pseudo_header (src dst : Bytes) (v6 : Bool) (proto : UInt8) (tlen : ℕ) : Bytes :=
  if v6 then src ++ dst ++ octets_of 4 tlen ++ [0, 0, 0, proto]
  else src ++ dst ++ [0, proto] ++ octets_of 2 tlen

theorem words_octets_of_two {n : ℕ} (h : n < 2 ^ 16) : words (octets_of 2 n) = n := by
  simp only [octets_of, words_pair, UInt8.toNat_ofNat']
  omega

theorem words_octets_of_four {n : ℕ} (h : n < 2 ^ 32) :
    words (octets_of 4 n) = n / 2 ^ 16 + n % 2 ^ 16 := by
  simp only [octets_of, words, UInt8.toNat_ofNat']
  omega

/-- Four octets are two words. -/
theorem words_of_length_four {bs : Bytes} (h : bs.length = 4) :
    words bs = (be16 bs 0).toNat + (be16 bs 2).toNat := by
  match bs, h with
  | [a, b, c, d], _ =>
    have hword : be16 [a, b, c, d] 0 = be16 [a, b] 0 ∧ be16 [a, b, c, d] 2 = be16 [c, d] 0 := ⟨rfl, rfl⟩
    rw [hword.1, hword.2, toNat_be16_pair, toNat_be16_pair, words, words_pair]

/-- The sum over the IPv4 pseudo header is the folded sum of its words. -/
theorem toNat_pseudo_v4 {src dst : Bytes} (hsrc : src.length = 4) (hdst : dst.length = 4)
    (proto : UInt8) {tlen : ℕ} (h : tlen < 2 ^ 16) :
    (pseudo_v4 src dst proto (UInt16.ofNat tlen)).toNat =
      folded (words (pseudo_header src dst false proto tlen)) := by
  have hpre : (src ++ dst).length % 2 = 0 := by rw [List.length_append, hsrc, hdst]
  have hwords : words (pseudo_header src dst false proto tlen) =
      words src + words dst + proto.toNat + tlen := by
    have hfront : (src ++ dst ++ [0, proto]).length % 2 = 0 := by
      simp only [List.length_append, List.length_cons, List.length_nil, hsrc, hdst]
    rw [pseudo_header, if_neg Bool.false_ne_true, words_append hfront, words_append hpre,
      words_append (by rw [hsrc]), words_pair, words_octets_of_two h, UInt8.toNat_zero]
    omega
  have hs0 := (be16 src 0).toNat_lt
  have hs2 := (be16 src 2).toNat_lt
  have hd0 := (be16 dst 0).toNat_lt
  have hd2 := (be16 dst 2).toNat_lt
  have hproto := proto.toNat_lt
  rw [pseudo_v4, toNat_fold, hwords, words_of_length_four hsrc, words_of_length_four hdst]
  simp only [UInt32.toNat_add, UInt16.toNat_toUInt32, UInt8.toNat_toUInt32, UInt16.toNat_ofNat']
  congr 1
  omega

/-- So is the one over the IPv6 pseudo header. -/
theorem toNat_pseudo_v6 {src dst : Bytes} (hsrc : src.length = 16) (hdst : dst.length = 16)
    (next : UInt8) {tlen : ℕ} (h : tlen < 2 ^ 32) :
    (pseudo_v6 src dst next (UInt32.ofNat tlen)).toNat =
      folded (words (pseudo_header src dst true next tlen)) := by
  have hpre : (src ++ dst).length % 2 = 0 := by rw [List.length_append, hsrc, hdst]
  -- The length goes into the sum in two halves, as two words of the pseudo header.
  have hlow : (UInt32.ofNat tlen &&& (0xffff : UInt32)).toNat = tlen % 2 ^ 16 := by
    refine (UInt32.toNat_and _ _).trans ((Nat.and_two_pow_sub_one_eq_mod _ 16).trans ?_)
    rw [UInt32.toNat_ofNat', Nat.mod_eq_of_lt h]
  have hhigh : (UInt32.ofNat tlen >>> 16).toNat = tlen / 2 ^ 16 := by
    refine (UInt32.toNat_shiftRight _ _).trans ((Nat.shiftRight_eq_div_pow _ 16).trans ?_)
    rw [UInt32.toNat_ofNat', Nat.mod_eq_of_lt h]
  have hwords : words (pseudo_header src dst true next tlen) =
      words src + words dst + (tlen / 2 ^ 16 + tlen % 2 ^ 16) + next.toNat := by
    have hlast : words [0, 0, 0, next] = next.toNat := by
      rw [words, words_pair]
      simp only [UInt8.toNat_zero]
      omega
    rw [pseudo_header, if_pos rfl, words_append (by
      rw [List.length_append, List.length_append, hsrc, hdst, length_octets_of]), words_append hpre,
      words_append (by rw [hsrc]), words_octets_of_four h, hlast]
  -- Nothing overflows: forty octets of words, two halves and an octet.
  have hsrc_le := words_le src
  have hdst_le := words_le dst
  have hnext := next.toNat_lt
  rw [hsrc] at hsrc_le
  rw [hdst] at hdst_le
  rw [pseudo_v6, toNat_fold, hwords]
  simp only [UInt32.toNat_add, toNat_sum_words, UInt8.toNat_toUInt32, hlow, hhigh,
    UInt32.toNat_zero]
  congr 1
  omega

/-- A pseudo header has whole words. -/
theorem length_pseudo_header {src dst : Bytes} {v6 : Bool} (proto : UInt8) (tlen : ℕ)
    (hsrc : src.length % 2 = 0) (hdst : dst.length % 2 = 0) :
    (pseudo_header src dst v6 proto tlen).length % 2 = 0 := by
  unfold pseudo_header
  cases v6 <;>
    simp only [Bool.false_eq_true, if_false, if_true, List.length_append, List.length_cons,
      List.length_nil, length_octets_of] <;> omega

/-! ## A word of a region -/

/-- A slice of a buffer after octets were put inside it. -/
theorem slice_put {b : Bytes} {pos : ℕ} {bs : Bytes} {off e : ℕ} (hoff : off ≤ pos)
    (hfit : pos + bs.length ≤ e) (he : e ≤ b.length) :
    slice (put b pos bs) off e = slice b off pos ++ bs ++ slice b (pos + bs.length) e := by
  apply List.ext_getElem?
  intro i
  have hpre : (slice b off pos).length = pos - off := length_slice (by omega)
  rw [slice_getElem?, put_getElem? (by omega), List.append_assoc]
  by_cases hlo : i < pos - off
  · rw [List.getElem?_append_left (by omega), slice_getElem?, if_pos (by omega), if_neg (by omega),
      if_pos (by omega)]
  · rw [List.getElem?_append_right (by omega), hpre]
    by_cases hmid : i - (pos - off) < bs.length
    · rw [List.getElem?_append_left hmid, if_pos (by omega), if_pos (by omega)]
      congr 1
      omega
    · rw [List.getElem?_append_right (by omega), slice_getElem?]
      by_cases hend : off + i < e
      · rw [if_pos hend, if_neg (by omega), if_pos (by omega)]
        congr 1
        omega
      · rw [if_neg hend, if_neg (by omega)]

/-- The words of a region add up to those of the rest and the word at `pos`. -/
theorem words_slice_put16 {b : Bytes} {pos off e : ℕ} (hoff : off ≤ pos)
    (heven : (pos - off) % 2 = 0) (hfit : pos + 2 ≤ e) (he : e ≤ b.length) (c : UInt16) :
    words (slice (put16 b pos c) off e) = words (slice (put16 b pos 0) off e) + c.toNat := by
  have hpre : (slice b off pos).length % 2 = 0 := by
    rw [length_slice (by omega)]
    exact heven
  have hsplit : ∀ v : UInt16, slice (put16 b pos v) off e =
      slice b off pos ++ octets_of 2 v.toNat ++ slice b (pos + 2) e := by
    intro v
    have hroom : pos + (octets_of 2 v.toNat).length ≤ e := by
      rw [length_octets_of]
      exact hfit
    have h := slice_put hoff hroom he
    rwa [length_octets_of] at h
  have hc := c.toNat_lt
  have hword : ∀ v : UInt16, octets_of 2 v.toNat =
      [UInt8.ofNat (v.toNat / 2 ^ 8), UInt8.ofNat v.toNat] := by
    intro v
    simp only [octets_of, Nat.mul_zero, Nat.pow_zero, Nat.div_one, Nat.mul_one]
  rw [hsplit, hsplit, hword, hword, words_around hpre]
  show _ = words (_ ++ [0, 0] ++ _) + _
  rw [UInt8.toNat_ofNat', UInt8.toNat_ofNat']
  omega

end Wiry.Packet
