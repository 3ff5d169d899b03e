/-
The bits a field of `crates/wiry-core/src/field.rs` is made of, whatever its
width and byte order: where each of them lies in the header, what `write_uint`
leaves at every bit of the header and what `read_uint` makes of them.
-/
import Wiry.Packet.Field

set_option autoImplicit false

namespace Wiry.Packet

open Bits

namespace FieldDesc

/-- Where the bit of weight `2 ^ k` of a field's value lies, counted from the header's first bit. -/
def place (f : FieldDesc) (k : ℕ) : ℕ :=
  if f.le_len < 2 then f.bit_off + f.bit_len - 1 - k
  else
    let i := le_off f.bit_off f.le_at + f.bit_len - 1 - k
    8 * (f.le_at + (min f.le_len 8 - 1 - i / 8)) + i % 8

/-- A header of `n` octets has every bit of the field: a write to one that has not is dropped. -/
def Held (f : FieldDesc) (n : ℕ) : Prop :=
  0 < f.bit_len ∧
    if f.le_len < 2 then f.bit_off + f.bit_len ≤ n * 8
    else f.le_at + min f.le_len 8 ≤ n ∧ le_off f.bit_off f.le_at + f.bit_len ≤ min f.le_len 8 * 8

instance (f : FieldDesc) (n : ℕ) : Decidable (f.Held n) := by
  unfold Held
  infer_instance

/-- The bits of a header that are the field's. -/
def Own (f : FieldDesc) (j : ℕ) : Prop := ∃ k < f.bit_len, f.place k = j

instance (f : FieldDesc) (j : ℕ) : Decidable (f.Own j) := by
  unfold Own
  infer_instance

theorem place_be {f : FieldDesc} (hbe : f.le_len < 2) (k : ℕ) :
    f.place k = f.bit_off + f.bit_len - 1 - k := if_pos hbe

theorem place_le {f : FieldDesc} (hle : ¬f.le_len < 2) (k : ℕ) :
    f.place k = 8 * (f.le_at + (min f.le_len 8 - 1 - (le_off f.bit_off f.le_at + f.bit_len - 1 - k) / 8)) +
      (le_off f.bit_off f.le_at + f.bit_len - 1 - k) % 8 := if_neg hle

/-- Different bits of a value lie in different places. -/
theorem place_inj {f : FieldDesc} {n : ℕ} (h : f.Held n) {k k' : ℕ} (hk : k < f.bit_len)
    (hk' : k' < f.bit_len) (heq : f.place k = f.place k') : k = k' := by
  obtain ⟨-, hin⟩ := h
  by_cases hbe : f.le_len < 2
  · rw [place_be hbe, place_be hbe] at heq
    omega
  · rw [if_neg hbe] at hin
    rw [place_le hbe, place_le hbe] at heq
    omega

end FieldDesc

/-! ## Runs of any width -/

/-- What a write leaves at every bit, an integer filling the low-order 64 bits of a wider run. -/
theorem bit_write_bits_wide {buf : Bytes} {bit_off bit_len val : ℕ}
    (h : bit_off + bit_len ≤ buf.length * 8) (hval : val < 2 ^ 64) (j : ℕ) :
    bit (write_bits buf bit_off bit_len val) j =
      if bit_off ≤ j ∧ j < bit_off + bit_len then val.testBit (bit_off + bit_len - 1 - j)
      else bit buf j := by
  by_cases hlen : bit_len ≤ 64
  · exact bit_write_bits h hlen val j
  · unfold write_bits
    rw [if_neg (by omega), if_pos (by omega), bit_write_low (by rw [length_set_bits]; omega),
      bit_set_bits (by omega)]
    by_cases hj : bit_off ≤ j ∧ j < bit_off + bit_len
    · rw [if_pos hj]
      by_cases hlow : bit_off + bit_len - 64 ≤ j
      · rw [if_pos (by omega)]
        congr 1
        omega
      · -- the octets in front of the low-order 64 bits are zeroed
        have hpow : 2 ^ 64 ≤ 2 ^ (bit_off + bit_len - 1 - j) :=
          Nat.pow_le_pow_right (by omega) (by omega)
        rw [if_neg (by omega), if_pos (by omega),
          Nat.testBit_lt_two_pow (Nat.lt_of_lt_of_le hval hpow)]
    · rw [if_neg hj, if_neg (by omega), if_neg (by omega)]

/-- What a read makes of every bit: the low-order 64 of a wider run. -/
theorem testBit_read_bits_wide {buf : Bytes} {bit_off bit_len : ℕ}
    (h : bit_off + bit_len ≤ buf.length * 8) (k : ℕ) :
    (read_bits buf bit_off bit_len).testBit k =
      if k < min bit_len 64 then bit buf (bit_off + bit_len - 1 - k) else false := by
  by_cases hlen : bit_len ≤ 64
  · rw [testBit_read_bits h hlen, Nat.min_eq_left hlen]
  · unfold read_bits
    rw [if_neg (by omega), if_neg (by omega), Nat.testBit_mod_two_pow, testBit_spell]
    by_cases hk : k < 64
    · rw [if_pos (by omega), if_pos (by omega), decide_eq_true hk, Bool.true_and]
      congr 1
      omega
    · rw [decide_eq_false hk, Bool.false_and, if_neg (by omega)]

/-! ## Fields -/

/-- The bits of octets turned round. -/
theorem bit_reverse (bs : Bytes) {i : ℕ} (hi : i < 8 * bs.length) :
    bit bs.reverse i = bit bs (8 * (bs.length - 1 - i / 8) + i % 8) := by
  apply bit_congr (by omega)
  rw [List.getElem?_reverse (by omega)]
  congr 1
  omega

/-- A field of a group reads the image of the group. -/
theorem bit_le_image {buf img : Bytes} {le_at le_len : ℕ} (himg : le_image buf le_at le_len = some img)
    {i : ℕ} (hi : i < 8 * min le_len 8) :
    bit img i = bit buf (8 * (le_at + (min le_len 8 - 1 - i / 8)) + i % 8) := by
  obtain ⟨-, hle⟩ := length_le_image himg
  have hlen : (slice buf le_at (le_at + min le_len 8)).length = min le_len 8 := by
    rw [length_slice hle]
    omega
  rw [le_image, if_pos hle] at himg
  rw [← Option.some.inj himg, bit_reverse _ (by rw [hlen]; exact hi), hlen]
  apply bit_congr (by omega)
  rw [slice_getElem?, if_pos (by omega)]
  congr 1
  omega

/-- **What a field reads is its own bits**, the low-order 64 of a wider one. -/
theorem testBit_read_uint {hdr : Bytes} {f : FieldDesc} (h : f.Held hdr.length) (k : ℕ) :
    (read_uint hdr f).testBit k = if k < min f.bit_len 64 then bit hdr (f.place k) else false := by
  obtain ⟨-, hin⟩ := h
  unfold read_uint read_in
  by_cases hbe : f.le_len < 2
  · rw [if_pos hbe] at hin
    rw [if_pos hbe, testBit_read_bits_wide hin, FieldDesc.place_be hbe]
  · rw [if_neg hbe] at hin
    obtain ⟨hgroup, hfit⟩ := hin
    have himg := le_image_of_le hgroup
    have hlen := (length_le_image himg).1
    rw [if_neg hbe, himg]
    dsimp only
    rw [testBit_read_bits_wide (by rw [hlen]; exact hfit)]
    by_cases hk : k < min f.bit_len 64
    · rw [if_pos hk, if_pos hk, bit_le_image himg (by omega), FieldDesc.place_le hbe]
    · rw [if_neg hk, if_neg hk]

/-- A field the header does not hold reads zero. -/
theorem read_uint_of_not_held {hdr : Bytes} {f : FieldDesc} (h : ¬f.Held hdr.length) :
    read_uint hdr f = 0 := by
  unfold FieldDesc.Held at h
  unfold read_uint read_in
  by_cases hbe : f.le_len < 2
  · rw [if_pos hbe] at h
    rw [if_pos hbe, read_bits, if_pos (by omega)]
  · rw [if_neg hbe] at h
    rw [if_neg hbe]
    by_cases hgroup : f.le_at + min f.le_len 8 ≤ hdr.length
    · have himg := le_image_of_le hgroup
      have hlen := (length_le_image himg).1
      rw [himg]
      dsimp only
      rw [read_bits, hlen, if_pos (by omega)]
    · rw [le_image, if_neg hgroup]

/-- **What a write leaves at the field's own bits.** -/
theorem bit_write_uint_place {hdr : Bytes} {f : FieldDesc} {v : ℕ} (h : f.Held hdr.length)
    (hv : v < 2 ^ 64) {k : ℕ} (hk : k < f.bit_len) :
    bit (write_uint hdr f v) (f.place k) = v.testBit k := by
  obtain ⟨-, hin⟩ := h
  unfold write_uint write_in
  by_cases hbe : f.le_len < 2
  · rw [if_pos hbe] at hin
    rw [if_pos hbe, FieldDesc.place_be hbe, bit_write_bits_wide hin hv, if_pos (by omega)]
    congr 1
    omega
  · rw [if_neg hbe] at hin
    obtain ⟨hgroup, hfit⟩ := hin
    have himg := le_image_of_le hgroup
    have hlen := (length_le_image himg).1
    rw [if_neg hbe, himg]
    dsimp only
    rw [FieldDesc.place_le hbe, ← bit_le_image (le_image_put himg (length_write_bits _ _ _ _)) (by omega),
      bit_write_bits_wide (by rw [hlen]; exact hfit) hv, if_pos (by omega)]
    congr 1
    omega

/-- **A write changes no bit but the field's own.** -/
theorem bit_write_uint_of_not_own (hdr : Bytes) {f : FieldDesc} (v : ℕ) {j : ℕ} (hj : ¬f.Own j) :
    bit (write_uint hdr f v) j = bit hdr j := by
  unfold write_uint write_in
  by_cases hbe : f.le_len < 2
  · rw [if_pos hbe]
    apply bit_write_bits_of_apart
    by_contra hin
    apply hj
    exact ⟨f.bit_off + f.bit_len - 1 - j, by omega, by rw [FieldDesc.place_be hbe]; omega⟩
  · rw [if_neg hbe]
    by_cases hgroup : f.le_at + min f.le_len 8 ≤ hdr.length
    · have himg := le_image_of_le hgroup
      have hlen := (length_le_image himg).1
      rw [himg]
      dsimp only
      by_cases hj' : 8 * f.le_at ≤ j ∧ j < 8 * (f.le_at + min f.le_len 8)
      · -- the place in the image that bit `j` of the header has
        obtain ⟨i, hi⟩ : ∃ i, i = 8 * (min f.le_len 8 - 1 - (j / 8 - f.le_at)) + j % 8 := ⟨_, rfl⟩
        have hback : j = 8 * (f.le_at + (min f.le_len 8 - 1 - i / 8)) + i % 8 := by omega
        have hin : i < 8 * min f.le_len 8 := by omega
        rw [hback, ← bit_le_image (le_image_put himg (length_write_bits _ _ _ _)) hin,
          ← bit_le_image himg hin]
        apply bit_write_bits_of_apart
        by_contra hfield
        apply hj
        refine ⟨le_off f.bit_off f.le_at + f.bit_len - 1 - i, by omega, ?_⟩
        rw [FieldDesc.place_le hbe, hback]
        have hsame : le_off f.bit_off f.le_at + f.bit_len - 1 -
            (le_off f.bit_off f.le_at + f.bit_len - 1 - i) = i := by omega
        rw [hsame]
      · have hrev : f.le_at + (write_bits (slice hdr f.le_at (f.le_at + min f.le_len 8)).reverse
            (le_off f.bit_off f.le_at) f.bit_len v).reverse.length = f.le_at + min f.le_len 8 := by
          rw [List.length_reverse, length_write_bits, hlen]
        rw [bit_put (by rw [hrev]; exact hgroup), hrev, if_neg hj']
    · rw [le_image, if_neg hgroup]

/-- A write to a field the header does not hold is dropped. -/
theorem write_uint_of_not_held {hdr : Bytes} {f : FieldDesc} (h : ¬f.Held hdr.length) (v : ℕ) :
    write_uint hdr f v = hdr := by
  unfold FieldDesc.Held at h
  unfold write_uint write_in
  by_cases hbe : f.le_len < 2
  · rw [if_pos hbe] at h
    rw [if_pos hbe, write_bits, if_pos (by omega)]
  · rw [if_neg hbe] at h
    rw [if_neg hbe]
    by_cases hgroup : f.le_at + min f.le_len 8 ≤ hdr.length
    · have himg := le_image_of_le hgroup
      have hlen := (length_le_image himg).1
      have hslice : (slice hdr f.le_at (f.le_at + min f.le_len 8)).length = min f.le_len 8 := by
        rw [length_slice hgroup]
        omega
      rw [himg]
      dsimp only
      rw [write_bits, hlen, if_pos (by omega), List.reverse_reverse]
      apply put_self (by rw [hslice]; exact hgroup)
      intro n hn
      rw [slice_getElem?, if_pos (by omega)]
    · rw [le_image, if_neg hgroup]

/-- **A field reads `v` exactly where its own bits are the bits of `v`.** -/
theorem read_uint_eq_iff {hdr : Bytes} {f : FieldDesc} {v : ℕ} (h : f.Held hdr.length)
    (hv : v < 2 ^ min f.bit_len 64) :
    read_uint hdr f = v ↔ ∀ k < min f.bit_len 64, bit hdr (f.place k) = v.testBit k := by
  constructor
  · intro heq k hk
    have hbit := testBit_read_uint h k
    rw [if_pos hk, heq] at hbit
    exact hbit.symm
  · intro hbits
    apply Nat.eq_of_testBit_eq
    intro k
    rw [testBit_read_uint h]
    by_cases hk : k < min f.bit_len 64
    · rw [if_pos hk, hbits k hk]
    · have hpow : 2 ^ min f.bit_len 64 ≤ 2 ^ k := Nat.pow_le_pow_right (by omega) (by omega)
      rw [if_neg hk, Nat.testBit_lt_two_pow (Nat.lt_of_lt_of_le hv hpow)]

end Wiry.Packet
