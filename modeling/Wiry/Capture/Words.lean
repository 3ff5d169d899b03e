/-
Integers in a capture file: `rd16`, `rd32` and `rd64` of
`crates/wiry-core/src/pcapng.rs`, which `pcap.rs` reads its own by, and
`to_le_bytes` as both write them.
-/
import Wiry.Lib.Endian
import Wiry.Packet.Dissect
import Wiry.Packet.Octets

set_option autoImplicit false

namespace Wiry.Capture

open Endian Packet

/-! ## Octets of an integer -/

def le16 (v : UInt16) : Bytes := digits 2 v.toNat

def le32 (v : UInt32) : Bytes := digits 4 v.toNat

/-- `u32::from_le_bytes`. -/
def from_le32 (b : Bytes) : UInt32 := UInt32.ofNat (value b)

def from_le16 (b : Bytes) : UInt16 := UInt16.ofNat (value b)

/-- `u32::swap_bytes`. -/
def swap32 (v : UInt32) : UInt32 := from_le32 (le32 v).reverse

def swap16 (v : UInt16) : UInt16 := from_le16 (le16 v).reverse

/-- An integer as a file of either byte order holds it. -/
def word32 (swapped : Bool) (v : UInt32) : Bytes := if swapped then (le32 v).reverse else le32 v

def word16 (swapped : Bool) (v : UInt16) : Bytes := if swapped then (le16 v).reverse else le16 v

/-- Two words, the more significant one first when the file is big-endian. -/
def word64 (swapped : Bool) (v : UInt64) : Bytes :=
  if swapped then (digits 8 v.toNat).reverse else digits 8 v.toNat

/-! ## Reading -/

/-- `rd16`. -/
def rd16 (buf : Bytes) (o : ℕ) (swapped : Bool) : Option UInt16 :=
  (slice_checked buf o (o + 2)).map fun b => if swapped then swap16 (from_le16 b) else from_le16 b

/-- `rd32`. -/
def rd32 (buf : Bytes) (o : ℕ) (swapped : Bool) : Option UInt32 :=
  (slice_checked buf o (o + 4)).map fun b => if swapped then swap32 (from_le32 b) else from_le32 b

/-- `rd64`. -/
def rd64 (buf : Bytes) (o : ℕ) (swapped : Bool) : Option UInt64 :=
  match rd32 buf o swapped, rd32 buf (o + 4) swapped with
  | some lo, some hi =>
    some (if swapped then lo.toUInt64 <<< 32 ||| hi.toUInt64 else hi.toUInt64 <<< 32 ||| lo.toUInt64)
  | _, _ => none

/-! ## What is written is read -/

@[simp] theorem length_le32 (v : UInt32) : (le32 v).length = 4 := length_digits _ _

@[simp] theorem length_le16 (v : UInt16) : (le16 v).length = 2 := length_digits _ _

@[simp] theorem length_word32 (swapped : Bool) (v : UInt32) : (word32 swapped v).length = 4 := by
  unfold word32
  split <;> simp

@[simp] theorem length_word16 (swapped : Bool) (v : UInt16) : (word16 swapped v).length = 2 := by
  unfold word16
  split <;> simp

@[simp] theorem length_word64 (swapped : Bool) (v : UInt64) : (word64 swapped v).length = 8 := by
  unfold word64
  split <;> simp

theorem from_le32_le32 (v : UInt32) : from_le32 (le32 v) = v := by
  apply UInt32.toNat_inj.1
  rw [from_le32, le32, value_digits_of_lt v.toNat_lt, UInt32.toNat_ofNat', Nat.mod_eq_of_lt v.toNat_lt]

theorem from_le16_le16 (v : UInt16) : from_le16 (le16 v) = v := by
  apply UInt16.toNat_inj.1
  rw [from_le16, le16, value_digits_of_lt v.toNat_lt, UInt16.toNat_ofNat', Nat.mod_eq_of_lt v.toNat_lt]

theorem le32_from_le32 {b : Bytes} (h : b.length = 4) : le32 (from_le32 b) = b := by
  have hlt := value_lt b
  rw [h] at hlt
  rw [le32, from_le32, UInt32.toNat_ofNat', Nat.mod_eq_of_lt hlt, ← h, digits_value]

theorem le16_from_le16 {b : Bytes} (h : b.length = 2) : le16 (from_le16 b) = b := by
  have hlt := value_lt b
  rw [h] at hlt
  rw [le16, from_le16, UInt16.toNat_ofNat', Nat.mod_eq_of_lt hlt, ← h, digits_value]

/-- A swapped word reads as the word. -/
theorem swap32_of_reverse (v : UInt32) : swap32 (from_le32 (le32 v).reverse) = v := by
  rw [swap32, le32_from_le32 (by simp), List.reverse_reverse, from_le32_le32]

theorem swap16_of_reverse (v : UInt16) : swap16 (from_le16 (le16 v).reverse) = v := by
  rw [swap16, le16_from_le16 (by simp), List.reverse_reverse, from_le16_le16]

theorem swap32_swap32 (v : UInt32) : swap32 (swap32 v) = v := swap32_of_reverse v

/-! ## Reading further in -/

/-- What is read inside the middle of three parts is read there alone. -/
theorem slice_checked_within (pre rest : Bytes) {mid : Bytes} {a b : ℕ} (hab : a ≤ b) (hb : b ≤ mid.length) :
    slice_checked (pre ++ mid ++ rest) (pre.length + a) (pre.length + b) = slice_checked mid a b := by
  have hlen : pre.length + b ≤ (pre ++ mid ++ rest).length := by
    rw [List.length_append, List.length_append]
    omega
  rw [slice_checked_eq (by omega) hlen, slice_checked_eq hab hb]
  apply congrArg some
  apply List.ext_getElem?
  intro i
  rw [slice_getElem?, slice_getElem?]
  by_cases hi : a + i < b
  · rw [if_pos (by omega), if_pos hi, List.append_assoc, List.getElem?_append_right (by omega),
      List.getElem?_append_left (by omega)]
    congr 1
    omega
  · rw [if_neg (by omega), if_neg hi]

theorem rd32_within (pre rest : Bytes) {mid : Bytes} {o : ℕ} (h : o + 4 ≤ mid.length) (swapped : Bool) :
    rd32 (pre ++ mid ++ rest) (pre.length + o) swapped = rd32 mid o swapped := by
  unfold rd32
  rw [Nat.add_assoc, slice_checked_within pre rest (by omega) h]

theorem rd16_within (pre rest : Bytes) {mid : Bytes} {o : ℕ} (h : o + 2 ≤ mid.length) (swapped : Bool) :
    rd16 (pre ++ mid ++ rest) (pre.length + o) swapped = rd16 mid o swapped := by
  unfold rd16
  rw [Nat.add_assoc, slice_checked_within pre rest (by omega) h]

/-- The middle of three parts, all of it. -/
theorem slice_checked_middle (pre mid rest : Bytes) {a b : ℕ} (ha : a = pre.length)
    (hb : b = pre.length + mid.length) : slice_checked (pre ++ mid ++ rest) a b = some mid := by
  have hwhole : slice_checked (pre ++ mid ++ rest) (pre.length + 0) (pre.length + mid.length) =
      slice_checked mid 0 mid.length := slice_checked_within pre rest (Nat.zero_le _) le_rfl
  rw [Nat.add_zero, slice_checked_eq (Nat.zero_le _) le_rfl, slice, List.take_length,
    List.drop_zero] at hwhole
  rw [ha, hb, hwhole]

/-- **A word is read back where it was written.** -/
theorem rd32_word {buf : Bytes} (pre rest : Bytes) {swapped : Bool} {v : UInt32} {o : ℕ}
    (hbuf : buf = pre ++ word32 swapped v ++ rest) (ho : o = pre.length) :
    rd32 buf o swapped = some v := by
  rw [hbuf, rd32, slice_checked_middle pre _ rest ho (by rw [length_word32, ho]), Option.map_some]
  apply congrArg some
  cases swapped with
  | false => exact from_le32_le32 v
  | true => exact swap32_of_reverse v

/-- The other byte order reads the same octets the other way round. -/
theorem rd32_true (buf : Bytes) (o : ℕ) : rd32 buf o true = (rd32 buf o false).map swap32 := by
  unfold rd32
  rw [Option.map_map]
  rfl

theorem rd16_word {buf : Bytes} (pre rest : Bytes) {swapped : Bool} {v : UInt16} {o : ℕ}
    (hbuf : buf = pre ++ word16 swapped v ++ rest) (ho : o = pre.length) :
    rd16 buf o swapped = some v := by
  rw [hbuf, rd16, slice_checked_middle pre _ rest ho (by rw [length_word16, ho]), Option.map_some]
  apply congrArg some
  cases swapped with
  | false => exact from_le16_le16 v
  | true => exact swap16_of_reverse v

/-- Two words make a long one, the halves apart. -/
theorem toNat_halves (hi lo : UInt32) :
    (hi.toUInt64 <<< 32 ||| lo.toUInt64).toNat = hi.toNat * 2 ^ 32 + lo.toNat := by
  have hhi := hi.toNat_lt
  have hlo := lo.toNat_lt
  have hshift : (hi.toUInt64 <<< 32).toNat = hi.toNat <<< 32 := by
    have hsmall : hi.toNat <<< 32 < 2 ^ 64 := by
      rw [Nat.shiftLeft_eq]
      omega
    rw [← Nat.mod_eq_of_lt hsmall, ← UInt32.toNat_toUInt64]
    exact UInt64.toNat_shiftLeft _ _
  rw [UInt64.toNat_or, hshift, UInt32.toNat_toUInt64, ← Nat.shiftLeft_add_eq_or_of_lt hlo,
    Nat.shiftLeft_eq]

/-- A word of eight octets written in a byte order is read back in it, wherever it stands. -/
theorem rd64_word {buf : Bytes} (pre rest : Bytes) {swapped : Bool} {v : UInt64} {o : ℕ}
    (hbuf : buf = pre ++ word64 swapped v ++ rest) (ho : o = pre.length) :
    rd64 buf o swapped = some v := by
  have hv := v.toNat_lt
  have hlow : (UInt32.ofNat v.toNat).toNat = v.toNat % 2 ^ 32 := UInt32.toNat_ofNat'
  have hhigh : (UInt32.ofNat (v.toNat / 2 ^ 32)).toNat = v.toNat / 2 ^ 32 := by
    rw [UInt32.toNat_ofNat', Nat.mod_eq_of_lt (by omega)]
  -- The eight digits are the low word's and then the high word's.
  have hdigits : digits 8 v.toNat =
      le32 (UInt32.ofNat v.toNat) ++ le32 (UInt32.ofNat (v.toNat / 2 ^ 32)) := by
    have hvalue : value (le32 (UInt32.ofNat v.toNat) ++ le32 (UInt32.ofNat (v.toNat / 2 ^ 32))) =
        v.toNat := by
      rw [value_append, length_le32, le32, le32, value_digits, value_digits, hlow, hhigh]
      omega
    rw [← digits_value (le32 _ ++ le32 _), hvalue, List.length_append, length_le32, length_le32]
  have hjoin : UInt32.toUInt64 (UInt32.ofNat (v.toNat / 2 ^ 32)) <<< 32 |||
      UInt32.toUInt64 (UInt32.ofNat v.toNat) = v := by
    apply UInt64.toNat_inj.1
    rw [toNat_halves, hlow, hhigh]
    omega
  -- Which half comes first depends on the order; joined, they are the value again.
  unfold word64 at hbuf
  cases swapped with
  | false =>
    rw [if_neg Bool.false_ne_true, hdigits] at hbuf
    have hlo : rd32 buf o false = some (UInt32.ofNat v.toNat) :=
      rd32_word pre (le32 (UInt32.ofNat (v.toNat / 2 ^ 32)) ++ rest)
        (by rw [hbuf]; simp [word32]) ho
    have hhi : rd32 buf (o + 4) false = some (UInt32.ofNat (v.toNat / 2 ^ 32)) :=
      rd32_word (pre ++ le32 (UInt32.ofNat v.toNat)) rest
        (by rw [hbuf]; simp [word32]) (by rw [List.length_append, length_le32, ho])
    unfold rd64
    rw [hlo, hhi]
    exact congrArg some hjoin
  | true =>
    rw [if_pos rfl, hdigits, List.reverse_append] at hbuf
    have hhi : rd32 buf o true = some (UInt32.ofNat (v.toNat / 2 ^ 32)) :=
      rd32_word pre ((le32 (UInt32.ofNat v.toNat)).reverse ++ rest)
        (by rw [hbuf]; simp [word32]) ho
    have hlo : rd32 buf (o + 4) true = some (UInt32.ofNat v.toNat) :=
      rd32_word (pre ++ (le32 (UInt32.ofNat (v.toNat / 2 ^ 32))).reverse) rest
        (by rw [hbuf]; simp [word32]) (by rw [List.length_append, List.length_reverse, length_le32, ho])
    unfold rd64
    rw [hlo, hhi]
    exact congrArg some hjoin

/-! ## Reading in a longer file -/

theorem rd32_in {buf : Bytes} {o : ℕ} {swapped : Bool} {v : UInt32}
    (h : rd32 buf o swapped = some v) : o + 4 ≤ buf.length := by
  unfold rd32 slice_checked at h
  by_cases hin : o ≤ o + 4 ∧ o + 4 ≤ buf.length
  · exact hin.2
  · rw [if_neg hin] at h
    exact absurd h (Option.some_ne_none v).symm

theorem rd32_append_eq {buf : Bytes} (more : Bytes) {o : ℕ} (h : o + 4 ≤ buf.length)
    (swapped : Bool) : rd32 (buf ++ more) o swapped = rd32 buf o swapped := by
  have hwithin := rd32_within [] more h swapped
  rwa [List.nil_append, List.length_nil, Nat.zero_add] at hwithin

theorem rd32_append {buf : Bytes} {o : ℕ} {swapped : Bool} {v : UInt32} (more : Bytes)
    (h : rd32 buf o swapped = some v) : rd32 (buf ++ more) o swapped = some v :=
  (rd32_append_eq more (rd32_in h) swapped).trans h

theorem rd64_append {buf : Bytes} {o : ℕ} {swapped : Bool} {v : UInt64} (more : Bytes)
    (h : rd64 buf o swapped = some v) : rd64 (buf ++ more) o swapped = some v := by
  unfold rd64 at h ⊢
  split at h
  · rename_i lo hi hlo hhi
    rw [rd32_append more hlo, rd32_append more hhi]
    exact h
  · cases h

end Wiry.Capture
