/-
Integers, addresses and text of an option payload, written and read again.

Each is a pair of functions and the law that one undoes the other on the values
that fit, with the lengths that the walk of an option region needs.
-/
import Wiry.Options.Table
import Mathlib.Tactic.Ring

set_option autoImplicit false

namespace Wiry.Options

open Packet Text Endian

/-! ## Integers -/

theorem foldl_octets (b : Bytes) (v : ℕ) :
    b.foldl (fun v x => v * 256 + x.toNat) v = v * 2 ^ (8 * b.length) + value b.reverse := by
  induction b generalizing v with
  | nil => simp [value]
  | cons x b ih =>
    have hpow : 2 ^ (8 * (b.length + 1)) = 2 ^ (8 * b.length) * 256 := by
      rw [Nat.mul_add, Nat.pow_add]
    rw [List.foldl_cons, ih, List.reverse_cons, value_append, List.length_reverse, List.length_cons,
      hpow]
    simp only [value]
    ring

/-- `be` is the big-endian number of the first eight octets. -/
theorem be_eq (b : Bytes) : be b = value (b.take 8).reverse := by
  rw [be, foldl_octets, Nat.zero_mul, Nat.zero_add]

/-- The low digits of a number. -/
theorem take_digits {n k : ℕ} (h : k ≤ n) (v : ℕ) : (digits n v).take k = digits k v := by
  induction k generalizing n v with
  | zero => rfl
  | succ k ih =>
    obtain ⟨n, rfl⟩ := Nat.exists_eq_add_of_le' (Nat.lt_of_lt_of_le (Nat.succ_pos k) h)
    rw [digits, digits, List.take_succ_cons, ih (by omega)]

theorem be_bytes_eq (v width : ℕ) : be_bytes v width = (digits (min width 8) v).reverse := by
  rw [be_bytes, ← take_digits (Nat.min_le_right width 8), List.drop_reverse, length_digits]
  congr 2
  omega

@[simp] theorem length_be_bytes (v width : ℕ) : (be_bytes v width).length = min width 8 := by
  rw [be_bytes_eq, List.length_reverse, length_digits]

/-- An integer reads back as its low octets. -/
theorem be_be_bytes (v width : ℕ) : be (be_bytes v width) = v % 2 ^ (8 * min width 8) := by
  have hshort : (be_bytes v width).take 8 = be_bytes v width := by
    apply List.take_of_length_le
    rw [length_be_bytes]
    exact Nat.min_le_right _ _
  rw [be_eq, hshort, be_bytes_eq, List.reverse_reverse, value_digits]

/-- Octets are those of the integer they read as. -/
theorem be_bytes_be {p : Bytes} (hp : p.length ≤ 8) : be_bytes (be p) p.length = p := by
  have hdigits := digits_value p.reverse
  rw [List.length_reverse] at hdigits
  rw [be_bytes_eq, be_eq, List.take_of_length_le hp, Nat.min_eq_left hp, hdigits,
    List.reverse_reverse]

/-! ## Addresses and pairs -/

theorem addrs_octets (l : List Addr) :
    addrs (l.flatMap fun a => [a.1, a.2.1, a.2.2.1, a.2.2.2]) = l := by
  induction l with
  | nil => rfl
  | cons a l ih =>
    rw [List.flatMap_cons]
    exact congrArg (a :: ·) ih

/-- The octets two edges are written as. -/
def edge_bytes (x : ℕ × ℕ) : Bytes := be_bytes x.1 4 ++ be_bytes x.2 4

@[simp] theorem length_edge_bytes (x : ℕ × ℕ) : (edge_bytes x).length = 8 := by
  rw [edge_bytes, List.length_append, length_be_bytes, length_be_bytes]
  rfl

/-- Eight octets are their two edges. -/
theorem edge_bytes_be {p : Bytes} (h : p.length = 8) : edge_bytes (be (p.take 4), be (p.drop 4)) = p := by
  have htake : (p.take 4).length = 4 := by
    rw [List.length_take, h]
    rfl
  have hdrop : (p.drop 4).length = 4 := by rw [List.length_drop, h]
  have hfirst := be_bytes_be (show (p.take 4).length ≤ 8 by omega)
  have hlast := be_bytes_be (show (p.drop 4).length ≤ 8 by omega)
  rw [htake] at hfirst
  rw [hdrop] at hlast
  rw [edge_bytes, hfirst, hlast, List.take_append_drop]

/-- Two edges read back, each as its low 32 bits. -/
theorem be_edges (x : ℕ × ℕ) :
    be ((edge_bytes x).take 4) = x.1 % 2 ^ 32 ∧ be ((edge_bytes x).drop 4) = x.2 % 2 ^ 32 := by
  have hlen : (be_bytes x.1 4).length = 4 := length_be_bytes _ _
  rw [edge_bytes, List.take_left' hlen, List.drop_left' hlen, be_be_bytes, be_be_bytes]
  exact ⟨rfl, rfl⟩

theorem pairs_cons (x : Bytes) (h : x.length = 8) (rest : Bytes) :
    pairs (x ++ rest) = (be (x.take 4), be (x.drop 4)) :: pairs rest := by
  match x, h with
  | [_, _, _, _, _, _, _, _], _ => rfl

theorem pairs_edges (l : List (ℕ × ℕ)) :
    pairs (l.flatMap edge_bytes) = l.map fun x => (x.1 % 2 ^ 32, x.2 % 2 ^ 32) := by
  induction l with
  | nil => rfl
  | cons x l ih =>
    rw [List.flatMap_cons, pairs_cons _ (length_edge_bytes x), ih, List.map_cons, (be_edges x).1,
      (be_edges x).2]

/-- Whole blocks of eight are their pairs. -/
theorem edges_pairs (n : ℕ) {p : Bytes} (h : p.length = 8 * n) : (pairs p).flatMap edge_bytes = p := by
  induction n generalizing p with
  | zero =>
    rw [List.eq_nil_of_length_eq_zero h]
    rfl
  | succ n ih =>
    have hhead : (p.take 8).length = 8 := by
      rw [List.length_take]
      omega
    have hrest : (p.drop 8).length = 8 * n := by
      rw [List.length_drop]
      omega
    conv_lhs => rw [← List.take_append_drop 8 p]
    rw [pairs_cons _ hhead, List.flatMap_cons, ih hrest, edge_bytes_be hhead,
      List.take_append_drop]

/-! ## Text -/

theorem utf8_tail_zero (lo hi : UInt8) (b : Bytes) : utf8_tail 0 lo hi b = 0 := by
  rw [utf8_tail]
  rintro _ _ _ ⟨⟩

theorem utf8_lead_one : ∀ n < 128, utf8_lead (UInt8.ofNat n) = some (0, 0x80, 0xBF) := by decide

theorem utf8_lead_two : ∀ k < 32, 2 ≤ k → utf8_lead (UInt8.ofNat (0xC0 + k)) = some (1, 0x80, 0xBF) := by
  decide

theorem utf8_lead_three : ∀ k < 16, utf8_lead (UInt8.ofNat (0xE0 + k)) =
    some (2, if k = 0 then 0xA0 else 0x80, if k = 13 then 0x9F else 0xBF) := by
  decide

theorem utf8_lead_four : ∀ k < 5, utf8_lead (UInt8.ofNat (0xF0 + k)) =
    some (3, if k = 0 then 0x90 else 0x80, if k = 4 then 0x8F else 0xBF) := by
  decide

/-- An octet that continues a sequence. -/
theorem toNat_tail {m : ℕ} (h : m < 64) : (UInt8.ofNat (0x80 + m)).toNat = 0x80 + m := by
  rw [UInt8.toNat_ofNat', Nat.mod_eq_of_lt (by omega)]

theorem utf8_tail_cons {n m : ℕ} {lo hi : UInt8} (hm : m < 64) (hlo : lo.toNat ≤ 0x80 + m)
    (hhi : 0x80 + m ≤ hi.toNat) (rest : Bytes) :
    utf8_tail (n + 1) lo hi (UInt8.ofNat (0x80 + m) :: rest) = utf8_tail n 0x80 0xBF rest + 1 := by
  rw [utf8_tail, if_pos]
  rw [UInt8.le_iff_toNat_le, UInt8.le_iff_toNat_le, toNat_tail hm]
  exact ⟨hlo, hhi⟩

/-- Any octet that continues a sequence, behind the first. -/
theorem utf8_tail_next {n m : ℕ} (hm : m < 64) (rest : Bytes) :
    utf8_tail (n + 1) 0x80 0xBF (UInt8.ofNat (0x80 + m) :: rest) = utf8_tail n 0x80 0xBF rest + 1 := by
  apply utf8_tail_cons hm
  · exact Nat.le_add_right _ _
  · show 0x80 + m ≤ 191
    omega

/-- A whole sequence is decoded at once. -/
theorem from_utf8_lossy_sequence {b : UInt8} (tail rest : Bytes) {lo hi : UInt8}
    (hlead : utf8_lead b = some (tail.length, lo, hi))
    (htail : utf8_tail tail.length lo hi (tail ++ rest) = tail.length) :
    from_utf8_lossy (b :: (tail ++ rest)) = Char.ofNat (utf8_scalar b tail) :: from_utf8_lossy rest := by
  rw [from_utf8_lossy, hlead]
  dsimp only
  rw [htail, if_pos rfl, List.take_left, List.drop_left]

/-- **A scalar value is decoded from the octets it is encoded in.** -/
theorem from_utf8_lossy_encode (c : Char) (rest : Bytes) :
    from_utf8_lossy (utf8_encode c ++ rest) = c :: from_utf8_lossy rest := by
  have hvalid : c.toNat < 0xD800 ∨ 0xDFFF < c.toNat ∧ c.toNat < 0x110000 := c.valid
  have hscalar : ∀ n, n = c.toNat → Char.ofNat n = c := by
    rintro _ rfl
    exact Char.ofNat_toNat c
  unfold utf8_encode
  generalize hn : c.toNat = n at hvalid hscalar
  dsimp only
  by_cases hone : n < 0x80
  · rw [if_pos hone]
    have h := from_utf8_lossy_sequence [] rest (utf8_lead_one n hone) (utf8_tail_zero _ _ _)
    rw [List.nil_append] at h
    rw [List.singleton_append, h, utf8_scalar]
    apply congrArg (· :: _) (hscalar _ _)
    rw [UInt8.toNat_ofNat', Nat.mod_eq_of_lt (by omega)]
  by_cases htwo : n < 0x800
  · rw [if_neg hone, if_pos htwo]
    have h := from_utf8_lossy_sequence [UInt8.ofNat (0x80 + n % 64)] rest
      (utf8_lead_two (n / 64) (by omega) (by omega)) ?_
    · refine h.trans (congrArg (· :: _) (hscalar _ ?_))
      simp only [utf8_scalar, List.foldl_cons, List.foldl_nil, List.length_singleton]
      rw [toNat_tail (by omega), UInt8.toNat_ofNat']
      omega
    · show utf8_tail 1 _ _ (_ :: _) = 1
      rw [utf8_tail_next (by omega), utf8_tail_zero]
  by_cases hthree : n < 0x10000
  · rw [if_neg hone, if_neg htwo, if_pos hthree]
    have h := from_utf8_lossy_sequence
      [UInt8.ofNat (0x80 + n / 64 % 64), UInt8.ofNat (0x80 + n % 64)] rest
      (utf8_lead_three (n / 4096) (by omega)) ?_
    · refine h.trans (congrArg (· :: _) (hscalar _ ?_))
      simp only [utf8_scalar, List.foldl_cons, List.foldl_nil, List.length_cons, List.length_nil]
      rw [toNat_tail (by omega), toNat_tail (by omega), UInt8.toNat_ofNat']
      omega
    · show utf8_tail 2 _ _ (_ :: _ :: _) = 2
      -- the first octet behind the lead keeps overlong forms and surrogates out
      rw [utf8_tail_cons (by omega), utf8_tail_next (by omega), utf8_tail_zero]
      · split
        · show 0xA0 ≤ _
          omega
        · show 0x80 ≤ _
          omega
      · split
        · show _ ≤ 0x9F
          omega
        · show _ ≤ 0xBF
          omega
  · rw [if_neg hone, if_neg htwo, if_neg hthree]
    have h := from_utf8_lossy_sequence [UInt8.ofNat (0x80 + n / 4096 % 64),
      UInt8.ofNat (0x80 + n / 64 % 64), UInt8.ofNat (0x80 + n % 64)] rest
      (utf8_lead_four (n / 262144) (by omega)) ?_
    · refine h.trans (congrArg (· :: _) (hscalar _ ?_))
      simp only [utf8_scalar, List.foldl_cons, List.foldl_nil, List.length_cons, List.length_nil]
      rw [toNat_tail (by omega), toNat_tail (by omega), toNat_tail (by omega), UInt8.toNat_ofNat']
      omega
    · show utf8_tail 3 _ _ (_ :: _ :: _ :: _) = 3
      rw [utf8_tail_cons (by omega), utf8_tail_next (by omega), utf8_tail_next (by omega),
        utf8_tail_zero]
      · split
        · show 0x90 ≤ _
          omega
        · show 0x80 ≤ _
          omega
      · split
        · show _ ≤ 0x8F
          omega
        · show _ ≤ 0xBF
          omega

/-- Text survives being written and read. -/
theorem from_utf8_lossy_as_bytes (s : List Char) : from_utf8_lossy (as_bytes s) = s := by
  induction s with
  | nil => rw [as_bytes, List.flatMap_nil, from_utf8_lossy]
  | cons c s ih => rw [as_bytes, List.flatMap_cons, from_utf8_lossy_encode]; exact congrArg _ ih

end Wiry.Options
