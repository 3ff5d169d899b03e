/-
Fletcher-16 of `python/wiry/utils.py`, its integers unbounded as Python's are.

The two check octets are solved for: `Lib.Fletcher` says which two numbers
settle the sums, and what is left is that the code's arithmetic, with its
reductions modulo 255, computes these two and that they are octets.
-/
import Wiry.Lib.Fletcher
import Wiry.Packet.Spans

set_option autoImplicit false

namespace Wiry.Utils

open Fletcher
open Packet (Bytes)

def octets (b : Bytes) : List ℤ := b.map fun o => (o.toNat : ℤ)

/-- `_fletcher16`. -/
def fletcher16 (charbuf : Bytes) : ℤ × ℤ :=
  let c := sums (octets charbuf)
  (c.1 % 255, c.2 % 255)

/-- `fletcher16_checksum`. -/
def fletcher16_checksum (binbuf : Bytes) : ℕ :=
  let (c0, c1) := fletcher16 binbuf
  c1.toNat <<< 8 ||| c0.toNat

/-- `chb`: an error for a number that is no octet. -/
def chb (x : ℤ) : Option UInt8 := if 0 ≤ x ∧ x ≤ 255 then some (UInt8.ofNat x.toNat) else none

/-- The two numbers of `fletcher16_checkbytes`, for a buffer with zeros where they go. -/
def check_numbers (binbuf : Bytes) (offset : ℕ) : ℤ × ℤ :=
  let (c0, c1) := fletcher16 binbuf
  let x := ((binbuf.length - offset - 1) * c0 - c1) % 255
  let x := if x ≤ 0 then x + 255 else x
  let y := 510 - c0 - x
  (x, if y > 255 then y - 255 else y)

/-- `fletcher16_checkbytes`: an error where `offset` is past the end. -/
def fletcher16_checkbytes (binbuf : Bytes) (offset : ℕ) : Option Bytes :=
  if binbuf.length < offset then none
  else
    let (x, y) := check_numbers (binbuf.take offset ++ [0, 0] ++ binbuf.drop (offset + 2)) offset
    (chb x).bind fun x => (chb y).map fun y => [x, y]

theorem octets_append (b c : Bytes) : octets (b ++ c) = octets b ++ octets c := List.map_append

theorem length_octets (b : Bytes) : (octets b).length = b.length := List.length_map _

/-- Both are octets, neither zero: a residue is one of `1` to `255`. -/
theorem check_numbers_range (binbuf : Bytes) (offset : ℕ) :
    (1 ≤ (check_numbers binbuf offset).1 ∧ (check_numbers binbuf offset).1 ≤ 255) ∧
      1 ≤ (check_numbers binbuf offset).2 ∧ (check_numbers binbuf offset).2 ≤ 255 := by
  have hc0 : 0 ≤ (fletcher16 binbuf).1 ∧ (fletcher16 binbuf).1 < 255 := by
    unfold fletcher16
    constructor
    · exact Int.emod_nonneg _ (by decide)
    · exact Int.emod_lt_of_pos _ (by decide)
  have hx := Int.emod_nonneg (((binbuf.length : ℤ) - offset - 1) * (fletcher16 binbuf).1 -
    (fletcher16 binbuf).2) (show (255 : ℤ) ≠ 0 by decide)
  have hx' := Int.emod_lt_of_pos (((binbuf.length : ℤ) - offset - 1) * (fletcher16 binbuf).1 -
    (fletcher16 binbuf).2) (show (0 : ℤ) < 255 by decide)
  simp only [check_numbers]
  split <;> split <;> omega

/-- What they add to the sums of the zeroed buffer is what `settles` asks for. -/
theorem check_numbers_settle (pre post : Bytes) :
    (255 : ℤ) ∣ (octets (pre ++ [0, 0] ++ post)).sum +
        (check_numbers (pre ++ [0, 0] ++ post) pre.length).1 +
        (check_numbers (pre ++ [0, 0] ++ post) pre.length).2 ∧
      (255 : ℤ) ∣ (check_numbers (pre ++ [0, 0] ++ post) pre.length).1 -
        ((post.length + 1) * (octets (pre ++ [0, 0] ++ post)).sum -
          weight (octets (pre ++ [0, 0] ++ post))) := by
  have hbehind : ((pre ++ [0, 0] ++ post).length : ℤ) - pre.length - 1 = post.length + 1 := by
    simp only [List.length_append, List.length_cons, List.length_nil]
    push_cast
    ring
  simp only [check_numbers, fletcher16, sums_eq, hbehind]
  generalize (octets (pre ++ [0, 0] ++ post)).sum = s
  generalize weight (octets (pre ++ [0, 0] ++ post)) = w
  obtain ⟨x, hx⟩ : ∃ x, x = (((post.length : ℤ) + 1) * (s % 255) - w % 255) % 255 := ⟨_, rfl⟩
  -- the residues stand for the sums themselves
  have hmod : (255 : ℤ) ∣ x - ((post.length + 1) * s - w) := by
    have hs : (255 : ℤ) ∣ ((post.length : ℤ) + 1) * (s % 255 - s) :=
      Dvd.dvd.mul_left (Int.dvd_of_emod_eq_zero (by omega)) _
    have hw : (255 : ℤ) ∣ w - w % 255 := Int.dvd_of_emod_eq_zero (by omega)
    have hr : (255 : ℤ) ∣ x - (((post.length : ℤ) + 1) * (s % 255) - w % 255) := by
      rw [hx]
      exact Int.dvd_of_emod_eq_zero (by omega)
    have hsum := Int.dvd_add hr (Int.dvd_add hs hw)
    have heq : x - (((post.length : ℤ) + 1) * (s % 255) - w % 255) +
        (((post.length : ℤ) + 1) * (s % 255 - s) + (w - w % 255)) = x - ((post.length + 1) * s - w) := by
      ring
    rwa [heq] at hsum
  rw [← hx]
  split <;> split <;> constructor <;> omega

/-- A check number is an octet. -/
theorem chb_octet {n : ℤ} (hlow : 1 ≤ n) (hhigh : n ≤ 255) :
    chb n = some (UInt8.ofNat n.toNat) ∧ ((UInt8.ofNat n.toNat).toNat : ℤ) = n := by
  constructor
  · exact if_pos ⟨by omega, hhigh⟩
  · rw [UInt8.toNat_ofNat']
    omega

/-- **The check octets settle the sum**: written where they were computed for, in place of two
octets or behind the last ones, they leave a checksum of zero. -/
theorem fletcher16_settles (b : Bytes) {o : ℕ} (ho : o ≤ b.length) :
    ∃ x y : UInt8, fletcher16_checkbytes b o = some [x, y] ∧
      fletcher16_checksum (b.take o ++ [x, y] ++ b.drop (o + 2)) = 0 := by
  have hlen : (b.take o).length = o := List.length_take_of_le ho
  generalize hpre : b.take o = pre at hlen
  generalize hpost : b.drop (o + 2) = post
  -- Both check numbers are octets, and the sums with them are divisible.
  have hrange := check_numbers_range (pre ++ [0, 0] ++ post) o
  have hsettle := check_numbers_settle pre post
  rw [hlen] at hsettle
  generalize hx : (check_numbers (pre ++ [0, 0] ++ post) o).1 = x at hrange hsettle
  generalize hy : (check_numbers (pre ++ [0, 0] ++ post) o).2 = y at hrange hsettle
  obtain ⟨hchb, hval⟩ := chb_octet hrange.1.1 hrange.1.2
  obtain ⟨hchb', hval'⟩ := chb_octet hrange.2.1 hrange.2.2
  refine ⟨UInt8.ofNat x.toNat, UInt8.ofNat y.toNat, ?_, ?_⟩
  -- They are packed as they are.
  · unfold fletcher16_checkbytes
    rw [if_neg (by omega), hpre, hpost]
    dsimp only
    rw [hx, hy, hchb, hchb']
    rfl
  -- Put into the string they settle both sums.
  · have hlist : octets (pre ++ [UInt8.ofNat x.toNat, UInt8.ofNat y.toNat] ++ post) =
        octets pre ++ [x, y] ++ octets post := by
      rw [octets_append, octets_append]
      show octets pre ++ [((UInt8.ofNat x.toNat).toNat : ℤ), ((UInt8.ofNat y.toNat).toNat : ℤ)] ++
        octets post = _
      rw [hval, hval']
    have hzero : octets (pre ++ [0, 0] ++ post) = octets pre ++ [0, 0] ++ octets post := by
      simp [octets]
    rw [hzero, ← length_octets post] at hsettle
    obtain ⟨hfirst, hsecond⟩ := settles hsettle.1 hsettle.2
    simp only [fletcher16_checksum, fletcher16, hlist, Int.emod_eq_zero_of_dvd hfirst,
      Int.emod_eq_zero_of_dvd hsecond]
    decide

/-- Behind two octets. -/
theorem fletcher16_settles_behind :
    ∃ x y : UInt8, fletcher16_checkbytes [255, 1] 2 = some [x, y] ∧
      fletcher16_checksum ([255, 1].take 2 ++ [x, y] ++ [255, 1].drop 4) = 0 :=
  fletcher16_settles [255, 1] (by decide)

end Wiry.Utils
