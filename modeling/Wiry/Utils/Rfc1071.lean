/-
RFC 1071 over any number of octets: what both languages make of it, a field
filled in and summed again, and a sum carried over from one part to the next.

All of it holds exactly while the words and the seed stay below `2 ^ 32` and the
second of Python's folds leaves no carry.
-/
import Wiry.Utils.Checksum

set_option autoImplicit false

namespace Wiry.Utils

open OnesComplement Packet

/-- The running sums of `sum16`, as numbers that never wrap. -/
def running : Bytes → ℕ → List ℕ
  | a :: b :: rest, sum =>
    (sum + (a.toNat * 2 ^ 8 + b.toNat)) :: running rest (sum + (a.toNat * 2 ^ 8 + b.toNat))
  | [a], sum => [sum + a.toNat * 2 ^ 8]
  | [], _ => []

/-- No addition of `sum16` overflows: each is checked in a debug build. -/
def NoOverflow (bs : Bytes) (seed : UInt32) : Prop := ∀ n ∈ running bs seed.toNat, n < 2 ^ 32

/-- No running sum overflows exactly when the last does not. -/
theorem running_lt_iff (bs : Bytes) {sum : ℕ} (h : sum < 2 ^ 32) :
    (∀ n ∈ running bs sum, n < 2 ^ 32) ↔ sum + words bs < 2 ^ 32 := by
  induction bs using words.induct generalizing sum with
  | case1 a b rest ih =>
    obtain ⟨next, hnext⟩ : ∃ next, next = sum + (a.toNat * 2 ^ 8 + b.toNat) := ⟨_, rfl⟩
    have hwords : sum + (a.toNat * 2 ^ 8 + b.toNat + words rest) = next + words rest := by omega
    rw [running, words, ← hnext, hwords, List.forall_mem_cons]
    constructor
    · rintro ⟨hlt, hrest⟩
      exact (ih hlt).1 hrest
    · intro hall
      have hlt : next < 2 ^ 32 := by omega
      exact ⟨hlt, (ih hlt).2 hall⟩
  | case2 a => simp [running, words]
  | case3 => simpa [running, words] using h

theorem no_overflow_iff (bs : Bytes) (seed : UInt32) :
    NoOverflow bs seed ↔ seed.toNat + words bs < 2 ^ 32 := running_lt_iff bs seed.toNat_lt

/-- What is asked of the checksum of `bs` behind a seed. -/
structure Checksums (big : Bool) (seed : UInt32) (bs : Bytes) : Prop where
  no_overflow : NoOverflow bs seed
  /-- Behind a pseudo-header the sum is that of both. -/
  v4 : ∀ (src dst : Bytes) (proto : UInt8) (tlen : ℕ), src.length = 4 → dst.length = 4 →
    tlen < 2 ^ 16 → seed = pseudo_v4 src dst proto (UInt16.ofNat tlen) →
    (finish (sum16 bs seed)).toNat = rfc1071 (pseudo_header src dst false proto tlen ++ bs)
  v6 : ∀ (src dst : Bytes) (next : UInt8) (tlen : ℕ), src.length = 16 → dst.length = 16 →
    tlen < 2 ^ 32 → seed = pseudo_v6 src dst next (UInt32.ofNat tlen) →
    (finish (sum16 bs seed)).toNat = rfc1071 (pseudo_header src dst true next tlen ++ bs)
  bare : (ones_complement bs).toNat = rfc1071 bs
  python : checksum big bs = (rfc1071 bs : ℕ)
  chained : ∀ xs ys, bs = xs ++ ys → xs.length % 2 = 0 →
    NoOverflow ys (sum16 xs seed) ∧ sum16 ys (sum16 xs seed) = sum16 bs seed
  /-- A field of zeros filled in makes the sum come out. -/
  verifies : ∀ front back, bs = front ++ [0, 0] ++ back → front.length % 2 = 0 →
    (NoOverflow (front ++ octets_of 2 (finish (sum16 bs seed)).toNat ++ back) seed ∧
      finish (sum16 (front ++ octets_of 2 (finish (sum16 bs seed)).toNat ++ back) seed) = 0) ∧
    ones_complement (front ++ octets_of 2 (ones_complement bs).toNat ++ back) = 0 ∧
    checksum big (front ++ octets_of 2 (checksum big bs).toNat ++ back) = 0

/-! ## Filling in a field -/

theorem words_filled {front : Bytes} (hfront : front.length % 2 = 0) (back : Bytes) {c : ℕ}
    (hc : c ≤ 65535) :
    words (front ++ octets_of 2 c ++ back) = words (front ++ [0, 0] ++ back) + c := by
  have hsplit : ∀ mid : Bytes, mid.length = 2 →
      words (front ++ mid ++ back) = words front + words mid + words back := by
    intro mid hmid
    rw [words_append (by rw [List.length_append]; omega), words_append hfront]
  rw [hsplit _ (length_octets_of 2 c), hsplit [0, 0] rfl, words_octets_of_two (by omega), words_pair]
  simp only [UInt8.toNat_zero]
  omega

/-- The same in host order, with the word turned. -/
theorem low_words_filled {front : Bytes} (hfront : front.length % 2 = 0) (back : Bytes) {c : ℕ}
    (hc : c ≤ 65535) :
    low_words (front ++ octets_of 2 c ++ back) =
      low_words (front ++ [0, 0] ++ back) + swap16 c := by
  have hsplit : ∀ mid : Bytes, mid.length = 2 →
      low_words (front ++ mid ++ back) = low_words front + low_words mid + low_words back := by
    intro mid hmid
    rw [low_words_append (by rw [List.length_append]; omega), low_words_append hfront]
  have hword : low_words (octets_of 2 c) = swap16 c := by
    unfold swap16
    simp only [octets_of, low_words, UInt8.toNat_ofNat']
    omega
  rw [hsplit _ (length_octets_of 2 c), hsplit [0, 0] rfl, hword]
  simp only [low_words, UInt8.toNat_zero]
  omega

/-- The host's words of a string with a field filled in. -/
theorem host_words_filled (big : Bool) {front : Bytes} (hfront : front.length % 2 = 0)
    (back : Bytes) {c : ℕ} (hc : c ≤ 65535) :
    host_words big (front ++ octets_of 2 c ++ back) =
      host_words big (front ++ [0, 0] ++ back) + host_word big c := by
  unfold host_words host_word
  cases big with
  | true =>
    rw [if_pos rfl, if_pos rfl, if_pos rfl]
    exact words_filled hfront back hc
  | false =>
    rw [if_neg Bool.false_ne_true, if_neg Bool.false_ne_true, if_neg Bool.false_ne_true]
    exact low_words_filled hfront back hc

/-- The complement takes a sum below `2 ^ 32` no further. -/
theorem add_complement_lt {n : ℕ} (h : n < 2 ^ 32) : n + (65535 - folded n) < 2 ^ 32 := by
  unfold folded
  split <;> omega

/-- A sum that comes out folds to all ones. -/
theorem folded_complement (n : ℕ) : folded (n + (65535 - folded n)) = 65535 := by
  have hmod := add_complement_mod n
  have hpos := add_complement_pos n
  generalize n + (65535 - folded n) = m at hmod hpos
  unfold folded
  rw [if_neg (by omega)]
  omega

/-! ## The pieces -/

section Right

variable {big : Bool} {seed : UInt32} {bs : Bytes}

theorem finish_right (h : seed.toNat + words bs < 2 ^ 32) :
    (finish (sum16 bs seed)).toNat = 65535 - folded (seed.toNat + words bs) := by
  rw [toNat_finish_sum16, Nat.mod_eq_of_lt h]

theorem ones_complement_right (h : words bs < 2 ^ 32) : (ones_complement bs).toNat = rfc1071 bs := by
  rw [toNat_ones_complement, Nat.mod_eq_of_lt h, rfc1071]

/-- A folded seed counts as what it was folded from. -/
theorem folded_add_folded (m n : ℕ) : folded (folded m + n) = folded (m + n) := by
  have hzero := folded_eq_zero_iff m
  have hmod := folded_mod m
  generalize folded m = k at hzero hmod
  unfold folded
  split <;> split <;> omega

/-- Behind a pseudo-header. -/
theorem seeded_right {header : Bytes} (hheader : header.length % 2 = 0)
    (hseed : seed.toNat = folded (words header)) (h : seed.toNat + words bs < 2 ^ 32) :
    (finish (sum16 bs seed)).toNat = rfc1071 (header ++ bs) := by
  rw [finish_right h, hseed, folded_add_folded, rfc1071, words_append hheader]

/-- **A sum goes on from the one before it** at an even offset. -/
theorem sum16_chained (h : seed.toNat + words bs < 2 ^ 32) {xs ys : Bytes} (hbs : bs = xs ++ ys)
    (hxs : xs.length % 2 = 0) :
    NoOverflow ys (sum16 xs seed) ∧ sum16 ys (sum16 xs seed) = sum16 bs seed := by
  rw [hbs, words_append hxs] at h
  have hfirst : (sum16 xs seed).toNat = folded (seed.toNat + words xs) := by
    rw [toNat_sum16, Nat.mod_eq_of_lt (by omega)]
  have hle : folded (seed.toNat + words xs) ≤ seed.toNat + words xs := by
    unfold folded
    split <;> omega
  refine ⟨?_, ?_⟩
  · rw [no_overflow_iff, hfirst]
    omega
  · apply UInt32.toNat_inj.1
    rw [toNat_sum16, hfirst, Nat.mod_eq_of_lt (by omega), folded_add_folded, toNat_sum16, hbs,
      words_append hxs, ← Nat.add_assoc, Nat.mod_eq_of_lt (by omega)]

/-- The filled string sums to zero in the Rust sum. -/
theorem finish_verifies (h : seed.toNat + words bs < 2 ^ 32) {front back : Bytes}
    (hbs : bs = front ++ [0, 0] ++ back) (hfront : front.length % 2 = 0) :
    NoOverflow (front ++ octets_of 2 (finish (sum16 bs seed)).toNat ++ back) seed ∧
      finish (sum16 (front ++ octets_of 2 (finish (sum16 bs seed)).toNat ++ back) seed) = 0 := by
  have hc := finish_right h
  have hsum : seed.toNat + words (front ++ octets_of 2 (finish (sum16 bs seed)).toNat ++ back) =
      seed.toNat + words bs + (65535 - folded (seed.toNat + words bs)) := by
    rw [words_filled hfront back (by omega), ← hbs, hc]
    omega
  have hlt := add_complement_lt h
  refine ⟨?_, ?_⟩
  · rw [no_overflow_iff, hsum]
    exact hlt
  · apply UInt16.toNat_inj.1
    rw [finish_right (by rw [hsum]; exact hlt), hsum, folded_complement]
    rfl

theorem ones_complement_verifies (h : words bs < 2 ^ 32) {front back : Bytes}
    (hbs : bs = front ++ [0, 0] ++ back) (hfront : front.length % 2 = 0) :
    ones_complement (front ++ octets_of 2 (ones_complement bs).toNat ++ back) = 0 := by
  have hc : (ones_complement bs).toNat = 65535 - folded (words bs) := ones_complement_right h
  have hsum : words (front ++ octets_of 2 (ones_complement bs).toNat ++ back) =
      words bs + (65535 - folded (words bs)) := by
    rw [words_filled hfront back (by omega), ← hbs, hc]
  apply UInt16.toNat_inj.1
  rw [ones_complement_right (by rw [hsum]; exact add_complement_lt h), rfc1071, hsum,
    folded_complement]
  rfl

/-- And in Python's, wherever that is right at all. -/
theorem checksum_verifies (h : words bs < 2 ^ 32) (hright : checksum big bs = (rfc1071 bs : ℕ))
    {front back : Bytes} (hbs : bs = front ++ [0, 0] ++ back) (hfront : front.length % 2 = 0) :
    checksum big (front ++ octets_of 2 (checksum big bs).toNat ++ back) = 0 := by
  have hle := folded_le (host_words big bs)
  have hlt := host_words_lt big h
  have hc : rfc1071 bs = host_word big (65535 - folded (host_words big bs)) := by
    rw [rfc1071, folded_words_host big, host_word_complement big hle]
  have hsmall : rfc1071 bs ≤ 65535 := Nat.sub_le _ _
  have hsum : host_words big (front ++ octets_of 2 (rfc1071 bs) ++ back) =
      host_words big bs + (65535 - folded (host_words big bs)) := by
    rw [host_words_filled big hfront back hsmall, ← hbs, hc, host_word_host_word big (by omega)]
  rw [hright, Int.toNat_natCast, checksum_eq, hsum,
    twice_folded_of_ones (by omega) (add_complement_pos _) (add_complement_mod _)]
  unfold host_word
  cases big with
  | true => rfl
  | false => rfl

end Right

/-- **The checksum is right, in both languages and at every length, exactly while the words and the
seed stay below `2 ^ 32` and two folds leave no carry.** -/
theorem checksums_iff (big : Bool) (seed : UInt32) (bs : Bytes) :
    Checksums big seed bs ↔ seed.toNat + words bs < 2 ^ 32 ∧ NoCarry (host_words big bs) := by
  constructor
  · intro h
    have hlt := (no_overflow_iff bs seed).1 h.no_overflow
    exact ⟨hlt, (checksum_right_iff big (by omega)).1 h.python⟩
  · rintro ⟨hlt, hcarry⟩
    have hbare : words bs < 2 ^ 32 := by omega
    have hpython := (checksum_right_iff big hbare).2 hcarry
    refine ⟨(no_overflow_iff bs seed).2 hlt, ?_, ?_, ones_complement_right hbare, hpython, ?_, ?_⟩
    · rintro src dst proto tlen hsrc hdst htlen rfl
      apply seeded_right (length_pseudo_header proto tlen (by rw [hsrc]) (by rw [hdst])) _ hlt
      exact toNat_pseudo_v4 hsrc hdst proto htlen
    · rintro src dst next tlen hsrc hdst htlen rfl
      apply seeded_right (length_pseudo_header next tlen (by rw [hsrc]) (by rw [hdst])) _ hlt
      exact toNat_pseudo_v6 hsrc hdst next htlen
    · intro xs ys hbs hxs
      exact sum16_chained hlt hbs hxs
    · intro front back hbs hfront
      exact ⟨finish_verifies hlt hbs hfront, ones_complement_verifies hbare hbs hfront,
        checksum_verifies hbare hpython hbs hfront⟩

/-! ## A payload past the limit -/

/-- Words of all ones, and one more. -/
def long_payload : Bytes := List.replicate (2 * 65538) 0xff ++ [1, 0]

theorem host_words_little (bs : Bytes) : host_words false bs = low_words bs := rfl

theorem words_ones (n : ℕ) : words (List.replicate (2 * n) 0xff) = n * 65535 := by
  induction n with
  | zero => rfl
  | succ n ih =>
    rw [show 2 * (n + 1) = 2 * n + 1 + 1 from rfl, List.replicate_succ, List.replicate_succ, words, ih]
    show 255 * 2 ^ 8 + 255 + n * 65535 = _
    omega

theorem low_words_ones (n : ℕ) : low_words (List.replicate (2 * n) 0xff) = n * 65535 := by
  induction n with
  | zero => rfl
  | succ n ih =>
    rw [show 2 * (n + 1) = 2 * n + 1 + 1 from rfl, List.replicate_succ, List.replicate_succ, low_words,
      ih]
    show 255 * 2 ^ 8 + 255 + n * 65535 = _
    omega

theorem words_long_payload : words long_payload = 4295033086 := by
  rw [long_payload, words_append (by rw [List.length_replicate]), words_ones]
  decide

theorem low_words_long_payload : low_words long_payload = 4295032831 := by
  rw [long_payload, low_words_append (by rw [List.length_replicate]), low_words_ones]
  decide

/-- **Past `2 ^ 32` both are off by one carry**: Rust's addition overflows, and where it wraps the
checksum is wrong, as is the one Python computes on a little-endian host. -/
theorem long_payload_checksums :
    ¬NoOverflow long_payload 0 ∧ rfc1071 long_payload = 65279 ∧
      (ones_complement long_payload).toNat = 65280 ∧ checksum false long_payload = 65535 := by
  refine ⟨?_, ?_, ?_, ?_⟩
  · rw [no_overflow_iff, words_long_payload]
    decide
  · rw [rfc1071, words_long_payload]
    decide
  · rw [toNat_ones_complement, words_long_payload]
    decide
  · rw [checksum_eq, host_words_little, low_words_long_payload]
    decide

end Wiry.Utils
