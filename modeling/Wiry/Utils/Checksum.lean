/-
The Internet checksum in both languages: `sum16`, `finish` and `ones_complement`
of `crates/wiry-core/src/checksum.rs`, and `checksum` of `wiry/utils.py`.

Rust adds the words up in 32 bits, so nothing overflows while the words and the
seed stay below `2 ^ 32`. Python adds them up without bound, in the host's byte
order, but folds twice only, so a carry may be left over.
-/
import Wiry.Lib.ByteOrder
import Wiry.Packet.Sums

set_option autoImplicit false

namespace Wiry.Utils

open OnesComplement Packet

/-! ## The Python side -/

/-- `sum(array.array("H", pkt))`, in the host's byte order. -/
def array_sum (big : Bool) : Bytes → ℕ
  | a :: b :: rest =>
    (if big then a.toNat * 2 ^ 8 + b.toNat else b.toNat * 2 ^ 8 + a.toNat) + array_sum big rest
  | _ => 0

/-- `checksum_endian_transform`: the two octets share no bit, so `|` adds them. -/
def checksum_endian_transform (big : Bool) (chk : ℤ) : ℤ :=
  if big then chk else chk / 2 ^ 8 % 2 ^ 8 + chk * 2 ^ 8

/-- `checksum`: two folds, then `~`. -/
def checksum (big : Bool) (pkt : Bytes) : ℤ :=
  let pkt := if pkt.length % 2 = 1 then pkt ++ [0] else pkt
  let s : ℕ := array_sum big pkt
  let s : ℕ := s / 2 ^ 16 + s % 2 ^ 16
  let s : ℕ := s + s / 2 ^ 16
  checksum_endian_transform big (-(s : ℤ) - 1) % 2 ^ 16

/-- The words of a string of octets in the host's byte order. -/
def host_words (big : Bool) (bs : Bytes) : ℕ := if big then words bs else low_words bs

/-- The word `n` as the host has it. -/
def host_word (big : Bool) (n : ℕ) : ℕ := if big then n else swap16 n

/-- The array's sum over the padded string is the sum of host words. -/
theorem array_sum_padded (big : Bool) (bs : Bytes) :
    array_sum big (if bs.length % 2 = 1 then bs ++ [0] else bs) = host_words big bs := by
  induction bs using words.induct with
  | case1 a b rest ih =>
    -- a word taken off leaves the parity, and the padding where it was
    have hparity : (a :: b :: rest).length % 2 = rest.length % 2 := by
      rw [List.length_cons, List.length_cons]
      omega
    have hstep : ∀ bs : Bytes, array_sum big (a :: b :: bs) =
        (if big then a.toNat * 2 ^ 8 + b.toNat else b.toNat * 2 ^ 8 + a.toNat) + array_sum big bs :=
      fun _ => rfl
    have hpad : (if (a :: b :: rest).length % 2 = 1 then a :: b :: rest ++ [0] else a :: b :: rest) =
        a :: b :: (if rest.length % 2 = 1 then rest ++ [0] else rest) := by
      rw [hparity]
      split
      · rfl
      · rfl
    rw [hpad, hstep, ih]
    unfold host_words
    cases big with
    | true => rfl
    | false => rfl
  | case2 a =>
    cases big with
    | true => simp [array_sum, host_words, words]
    | false => simp [array_sum, host_words, low_words]
  | case3 => cases big <;> rfl

/-- A sum with its carry folded back once. -/
def fold_once (n : ℕ) : ℕ := n / 2 ^ 16 + n % 2 ^ 16

/-- What two folds leave of a sum in its low word. -/
def twice_folded (n : ℕ) : ℕ := (fold_once n + fold_once n / 2 ^ 16) % 2 ^ 16

/-- The second fold leaves no carry. -/
def NoCarry (n : ℕ) : Prop := fold_once (fold_once n) < 2 ^ 16

instance (n : ℕ) : Decidable (NoCarry n) := inferInstanceAs (Decidable (_ < _))

theorem folded_fold_once (n : ℕ) : folded (fold_once n) = folded n := by
  rw [fold_once, Nat.add_comm, folded_carry]

theorem twice_folded_eq (n : ℕ) : twice_folded n = fold_once (fold_once n) % 2 ^ 16 := by
  unfold twice_folded
  generalize fold_once n = s
  unfold fold_once
  omega

/-- Below `2 ^ 41` a second carry is one at most. -/
theorem fold_once_twice_lt {n : ℕ} (h : n < 2 ^ 41) : fold_once (fold_once n) < 2 ^ 17 - 2 := by
  have hfirst : fold_once n < 2 ^ 26 := by
    unfold fold_once
    omega
  generalize fold_once n = s at hfirst
  unfold fold_once
  omega

theorem twice_folded_lt (n : ℕ) : twice_folded n < 2 ^ 16 := Nat.mod_lt _ (by decide)

/-- The low word of a complement, in network order. -/
theorem transform_complement (big : Bool) (n : ℕ) :
    checksum_endian_transform big (-(n : ℤ) - 1) % 2 ^ 16 =
      (host_word big (65535 - n % 2 ^ 16) : ℕ) := by
  unfold checksum_endian_transform host_word swap16
  cases big with
  | true =>
    rw [if_pos rfl, if_pos rfl]
    omega
  | false =>
    rw [if_neg Bool.false_ne_true, if_neg Bool.false_ne_true]
    -- the two octets of the low word, and what is above them
    obtain ⟨h, l, q, hh, hl, hword, hall⟩ : ∃ h l : ℕ, ∃ q : ℤ, h < 256 ∧ l < 256 ∧
        65535 - n % 2 ^ 16 = 256 * h + l ∧ -(n : ℤ) - 1 = 65536 * q + 256 * h + l :=
      ⟨(65535 - n % 2 ^ 16) / 256, (65535 - n % 2 ^ 16) % 256, -(n / 2 ^ 16 : ℕ) - 1,
        by omega, by omega, by omega, by omega⟩
    rw [hall, hword]
    clear hall hword
    have hhigh : (65536 * q + 256 * h + l) / 2 ^ 8 % 2 ^ 8 = h := by omega
    have hlow : (h + (65536 * q + 256 * h + l) * 2 ^ 8) % 2 ^ 16 = h + 256 * l := by omega
    have hswapped : (256 * h + l) % 2 ^ 8 * 2 ^ 8 + (256 * h + l) / 2 ^ 8 = h + 256 * l := by omega
    rw [hhigh, hlow, hswapped]
    push_cast
    rfl

/-- **What `checksum` computes**: the complement of the twice folded sum, in network order. -/
theorem checksum_eq (big : Bool) (bs : Bytes) :
    checksum big bs = (host_word big (65535 - twice_folded (host_words big bs)) : ℕ) := by
  unfold checksum
  dsimp only
  rw [array_sum_padded, transform_complement]
  rfl

/-- Two folds are enough exactly where the second leaves no carry, below `2 ^ 41`. -/
theorem twice_folded_iff {n : ℕ} (h : n < 2 ^ 41) : twice_folded n = folded n ↔ NoCarry n := by
  have hlt := fold_once_twice_lt h
  rw [twice_folded_eq, NoCarry, ← folded_fold_once n, ← folded_fold_once (fold_once n)]
  generalize fold_once (fold_once n) = t at hlt
  unfold folded
  split <;> omega

/-- A sum that comes out is folded well by two folds. -/
theorem twice_folded_of_ones {n : ℕ} (h : n < 2 ^ 41) (hpos : 0 < n) (hmod : n % 65535 = 0) :
    twice_folded n = 65535 := by
  have hones : folded (fold_once (fold_once n)) = 65535 := by
    rw [folded_fold_once, folded_fold_once]
    unfold folded
    rw [if_neg (by omega)]
    omega
  have hlt := fold_once_twice_lt h
  rw [twice_folded_eq]
  generalize fold_once (fold_once n) = t at hlt hones
  unfold folded at hones
  split at hones <;> omega

theorem host_words_lt (big : Bool) {bs : Bytes} (h : words bs < 2 ^ 32) :
    host_words big bs < 2 ^ 40 := by
  have hle := (words_mod_low bs).2.2
  unfold host_words
  cases big with
  | true =>
    rw [if_pos rfl]
    omega
  | false =>
    rw [if_neg Bool.false_ne_true]
    omega

/-- The folded sum in network order. -/
theorem folded_words_host (big : Bool) (bs : Bytes) :
    folded (words bs) = host_word big (folded (host_words big bs)) := by
  unfold host_word host_words
  cases big with
  | true => rw [if_pos rfl, if_pos rfl]
  | false =>
    rw [if_neg Bool.false_ne_true, if_neg Bool.false_ne_true]
    exact folded_low_words bs

theorem host_word_complement (big : Bool) {n : ℕ} (h : n ≤ 65535) :
    host_word big (65535 - n) = 65535 - host_word big n := by
  unfold host_word
  cases big with
  | true => rw [if_pos rfl, if_pos rfl]
  | false =>
    rw [if_neg Bool.false_ne_true, if_neg Bool.false_ne_true]
    exact swap16_complement h

theorem host_word_host_word (big : Bool) {n : ℕ} (h : n ≤ 65535) :
    host_word big (host_word big n) = n := by
  unfold host_word
  cases big with
  | true => rw [if_pos rfl, if_pos rfl]
  | false =>
    rw [if_neg Bool.false_ne_true, if_neg Bool.false_ne_true]
    exact swap16_swap16 h

/-- RFC 1071: the complement of the folded sum. -/
def rfc1071 (bs : Bytes) : ℕ := 65535 - folded (words bs)

/-- **Python computes the checksum exactly where its second fold leaves no carry**, below the sums
that Rust can hold. -/
theorem checksum_right_iff (big : Bool) {bs : Bytes} (h : words bs < 2 ^ 32) :
    checksum big bs = (rfc1071 bs : ℕ) ↔ NoCarry (host_words big bs) := by
  have hlt := host_words_lt big h
  have hfold := twice_folded_iff (show host_words big bs < 2 ^ 41 by omega)
  have htwice := twice_folded_lt (host_words big bs)
  have hfolded := folded_le (host_words big bs)
  rw [← hfold, checksum_eq, rfc1071, folded_words_host big, ← host_word_complement big hfolded]
  constructor
  · intro heq
    have hback := congrArg (host_word big) (Int.ofNat_inj.1 heq)
    rw [host_word_host_word big (by omega), host_word_host_word big (by omega)] at hback
    omega
  · intro heq
    rw [heq]

end Wiry.Utils
