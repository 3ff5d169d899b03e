/-
Header fields of `crates/wiry-core/src/field.rs`: a field is a run of bits of
its layer's header, read and written as one integer of either byte order.

A write past the end of a header is dropped and a read past it is zero, so
everything below is total. `flags`, `names` and `to_end` of the source only
serve rendering and are left out; a `u64` value is a natural number, and so are
offsets and lengths. `Wiry.Field` has the same functions on machine integers and
says where the two agree: for every field that ends below bit `2 ^ 16`, and a
field table is refused unless all of its fields do.
-/
import Wiry.Lib.Bits
import Wiry.Packet.Octets

set_option autoImplicit false

namespace Wiry.Packet

open Bits

inductive FieldKind where
  | Uint | LeUint | Ipv4Addr | Ipv6Addr | MacAddr | Flags | Bytes | VarBytes
deriving DecidableEq, Repr

structure FieldDesc where
  name : String
  bit_off : ℕ
  /-- Ignored for `VarBytes`. -/
  bit_len : ℕ
  kind : FieldKind
  default : ℕ
  /-- Recomputed during serialisation unless the user pinned it. -/
  computed : Bool := false
  /-- Given the layer's header, so a field can be gated on an earlier one. -/
  cond : Option (Bytes → Bool) := none
  /-- For fields wider than `default` holds. -/
  default_bytes : Option Bytes := none
  /-- Octets `[le_at, le_at + le_len)` are one little-endian integer; below 2 is plain big-endian. -/
  le_at : ℕ := 0
  le_len : ℕ := 0

namespace FieldDesc

def uint (name : String) (bit_off bit_len default : ℕ) : FieldDesc :=
  { name, bit_off, bit_len, kind := .Uint, default }

def le_uint (name : String) (bit_off bit_len default : ℕ) : FieldDesc :=
  { name, bit_off, bit_len, kind := .LeUint, default, le_at := bit_off / 8, le_len := bit_len / 8 }

def computed_uint (name : String) (bit_off bit_len : ℕ) : FieldDesc :=
  { name, bit_off, bit_len, kind := .Uint, default := 0, computed := true }

def ipv4 (name : String) (bit_off default : ℕ) : FieldDesc :=
  { name, bit_off, bit_len := 32, kind := .Ipv4Addr, default }

def ipv6 (name : String) (bit_off : ℕ) : FieldDesc :=
  { name, bit_off, bit_len := 128, kind := .Ipv6Addr, default := 0 }

def mac (name : String) (bit_off : ℕ) : FieldDesc :=
  { name, bit_off, bit_len := 48, kind := .MacAddr, default := 0 }

def flags (name : String) (bit_off bit_len : ℕ) : FieldDesc :=
  { name, bit_off, bit_len, kind := .Flags, default := 0 }

def var_bytes (name : String) (bit_off : ℕ) : FieldDesc :=
  { name, bit_off, bit_len := 0, kind := .VarBytes, default := 0 }

def bytes (name : String) (bit_off bit_len : ℕ) : FieldDesc :=
  { name, bit_off, bit_len, kind := .Bytes, default := 0 }

def when (f : FieldDesc) (c : Bytes → Bool) : FieldDesc := { f with cond := some c }

def with_default (f : FieldDesc) (d : ℕ) : FieldDesc := { f with default := d }

def defaulting_to (f : FieldDesc) (b : Bytes) : FieldDesc := { f with default_bytes := some b }

def is_active (f : FieldDesc) (hdr : Bytes) : Bool := f.cond.all fun c => c hdr

end FieldDesc

/-! ## Bits of a header -/

/-- `read_bits`: 0 when the read would run past the end. -/
def read_bits (buf : Bytes) (bit_off bit_len : ℕ) : ℕ :=
  if bit_len = 0 ∨ bit_off + bit_len > buf.length * 8 then 0
  else if bit_off % 8 = 0 ∧ bit_len % 8 = 0 ∧ bit_len ≤ 64 then
    gather (slice buf (bit_off / 8) (bit_off / 8 + bit_len / 8))
  else spell (fun k => bit buf (bit_off + k)) bit_len % 2 ^ 64

/-- `write_bits` of at most 64 bits that lie inside `buf`: octet by octet where the field is whole
octets, else bit by bit. -/
def write_low (buf : Bytes) (bit_off bit_len val : ℕ) : Bytes :=
  if bit_off % 8 = 0 ∧ bit_len % 8 = 0 then put buf (bit_off / 8) (octets_of (bit_len / 8) val)
  else (List.range bit_len).foldl
    (fun buf k => set_bit buf (bit_off + k) (val.testBit (bit_len - 1 - k))) buf

/-- `write_bits`: a write that would run past the end is dropped, and an integer fills the low-order
64 bits of a wider field and zeroes the rest. -/
def write_bits (buf : Bytes) (bit_off bit_len val : ℕ) : Bytes :=
  if bit_len = 0 ∨ bit_off + bit_len > buf.length * 8 then buf
  else if bit_len > 64 then
    write_low ((List.range (bit_len - 64)).foldl (fun buf k => set_bit buf (bit_off + k) false) buf)
      (bit_off + bit_len - 64) 64 val
  else write_low buf bit_off bit_len val

/-- `le_image`: the octets of a little-endian group, reversed so that the group reads as a
big-endian integer; none for a group the buffer does not hold. -/
def le_image (buf : Bytes) (le_at le_len : ℕ) : Option Bytes :=
  if le_at + min le_len 8 ≤ buf.length then
    some (slice buf le_at (le_at + min le_len 8)).reverse
  else none

/-- Where a field starts in its image: `u16::wrapping_sub`. -/
def le_off (bit_off le_at : ℕ) : ℕ := (bit_off + 2 ^ 16 - le_at * 8 % 2 ^ 16) % 2 ^ 16

def read_in (buf : Bytes) (bit_off bit_len le_at le_len : ℕ) : ℕ :=
  if le_len < 2 then read_bits buf bit_off bit_len
  else
    match le_image buf le_at le_len with
    | some img => read_bits img (le_off bit_off le_at) bit_len
    | none => 0

def write_in (buf : Bytes) (bit_off bit_len le_at le_len v : ℕ) : Bytes :=
  if le_len < 2 then write_bits buf bit_off bit_len v
  else
    match le_image buf le_at le_len with
    | some img => put buf le_at (write_bits img (le_off bit_off le_at) bit_len v).reverse
    | none => buf

def read_uint (hdr : Bytes) (f : FieldDesc) : ℕ := read_in hdr f.bit_off f.bit_len f.le_at f.le_len

def write_uint (buf : Bytes) (f : FieldDesc) (v : ℕ) : Bytes :=
  write_in buf f.bit_off f.bit_len f.le_at f.le_len v

/-- `fits`: a whole-octet field refuses an oversized value, a sub-octet one masks it. -/
def fits (f : FieldDesc) (v : ℕ) : Bool :=
  if f.bit_len = 0 ∨ f.bit_len ≥ 64 ∨ f.bit_off % 8 ≠ 0 ∨ f.bit_len % 8 ≠ 0 then true
  else v >>> f.bit_len == 0

/-- `wire_octets`: the octets a fixed-width field stores, padded to the field's width and reversed
under a little-endian group. -/
def wire_octets (f : FieldDesc) (b : Bytes) : Bytes :=
  if ¬ 1 < f.le_len ∨ f.kind = .VarBytes then b
  else (b.take (f.bit_len / 8) ++ List.replicate (f.bit_len / 8 - b.length) 0).reverse

/-! ## Writing keeps the length -/

/-- Setting bits keeps the length. -/
theorem length_set_bits (buf : Bytes) (pos : ℕ → ℕ) (val : ℕ → Bool) (n : ℕ) :
    ((List.range n).foldl (fun buf k => set_bit buf (pos k) (val k)) buf).length = buf.length := by
  induction n with
  | zero => rfl
  | succ n ih =>
    rw [List.range_succ, List.foldl_append]
    exact (length_set_bit _ _ _).trans ih

theorem length_write_low {buf : Bytes} {bit_off bit_len : ℕ}
    (h : bit_off + bit_len ≤ buf.length * 8) (val : ℕ) :
    (write_low buf bit_off bit_len val).length = buf.length := by
  unfold write_low
  split
  · apply length_put
    rw [length_octets_of]
    omega
  · exact length_set_bits _ _ _ _

@[simp] theorem length_write_bits (buf : Bytes) (bit_off bit_len val : ℕ) :
    (write_bits buf bit_off bit_len val).length = buf.length := by
  unfold write_bits
  split
  · rfl
  · rename_i hin
    split
    · rename_i hwide
      rw [length_write_low (by rw [length_set_bits]; omega), length_set_bits]
    · exact length_write_low (by omega) _

theorem length_le_image {buf img : Bytes} {le_at le_len : ℕ}
    (h : le_image buf le_at le_len = some img) :
    img.length = min le_len 8 ∧ le_at + min le_len 8 ≤ buf.length := by
  unfold le_image at h
  split at h
  · rename_i hle
    rw [← Option.some.inj h, List.length_reverse, length_slice hle]
    exact ⟨by omega, hle⟩
  · exact absurd h (Option.some_ne_none img).symm

/-- So does writing a field in either byte order. -/
@[simp] theorem length_write_in (buf : Bytes) (bit_off bit_len le_at le_len v : ℕ) :
    (write_in buf bit_off bit_len le_at le_len v).length = buf.length := by
  unfold write_in
  split
  · exact length_write_bits _ _ _ _
  · split
    · rename_i img himg
      obtain ⟨hlen, hle⟩ := length_le_image himg
      apply length_put
      rw [List.length_reverse, length_write_bits, hlen]
      exact hle
    · rfl

@[simp] theorem length_write_uint (buf : Bytes) (f : FieldDesc) (v : ℕ) :
    (write_uint buf f v).length = buf.length :=
  length_write_in _ _ _ _ _ _

/-! ## What a write puts where -/

/-- The bits of a buffer after octets were put into it. -/
theorem bit_put {f : Bytes} {i : ℕ} {bs : Bytes} (h : i + bs.length ≤ f.length) (j : ℕ) :
    bit (put f i bs) j =
      if 8 * i ≤ j ∧ j < 8 * (i + bs.length) then bit bs (j - 8 * i) else bit f j := by
  by_cases hj : 8 * i ≤ j ∧ j < 8 * (i + bs.length)
  · rw [if_pos hj]
    apply bit_congr (by omega)
    rw [put_getElem? h, if_pos (by omega)]
    congr 1
    omega
  · rw [if_neg hj]
    apply bit_congr rfl
    rw [put_getElem? h, if_neg (by omega)]

/-- The octets of a number, the most significant first. -/
theorem octets_of_getElem? (n v i : ℕ) :
    (octets_of n v)[i]? = if i < n then some (UInt8.ofNat (v / 2 ^ (8 * (n - 1 - i)))) else none := by
  induction n generalizing i with
  | zero => rfl
  | succ n ih =>
    rw [octets_of]
    cases i with
    | zero => rfl
    | succ i =>
      rw [List.getElem?_cons_succ, ih]
      by_cases hi : i < n
      · rw [if_pos hi, if_pos (by omega), show n + 1 - 1 - (i + 1) = n - 1 - i from by omega]
      · rw [if_neg hi, if_neg (by omega)]

/-- The bits of a number's octets. -/
theorem bit_octets_of {n j : ℕ} (hj : j < 8 * n) (v : ℕ) :
    bit (octets_of n v) j = v.testBit (8 * n - 1 - j) := by
  unfold bit
  rw [List.getD_eq_getElem?_getD, octets_of_getElem?, if_pos (by omega), Option.getD_some,
    UInt8.toNat_ofNat', Nat.testBit_mod_two_pow, Nat.testBit_div_two_pow,
    decide_eq_true (show 7 - j % 8 < 8 from by omega), Bool.true_and]
  congr 1
  omega

/-- A run of bits put one by one. -/
theorem bit_set_bits {buf : Bytes} {bit_off n : ℕ} (h : bit_off + n ≤ buf.length * 8)
    (val : ℕ → Bool) (j : ℕ) :
    bit ((List.range n).foldl (fun buf k => set_bit buf (bit_off + k) (val k)) buf) j =
      if bit_off ≤ j ∧ j < bit_off + n then val (j - bit_off) else bit buf j := by
  induction n with
  | zero => rw [if_neg (by omega)]; rfl
  | succ n ih =>
    rw [List.range_succ, List.foldl_append, List.foldl_cons, List.foldl_nil,
      bit_set_bit (by rw [length_set_bits]; omega), ih (by omega)]
    by_cases hj : j = bit_off + n
    · rw [if_pos hj, if_pos (by omega)]
      congr 1
      omega
    · rw [if_neg hj]
      by_cases hin : bit_off ≤ j ∧ j < bit_off + n
      · rw [if_pos hin, if_pos (by omega)]
      · rw [if_neg hin, if_neg (by omega)]

/-- The bits of a buffer after a field was written: the value's in the field, the old ones outside.
-/
theorem bit_write_low {buf : Bytes} {bit_off bit_len : ℕ} (h : bit_off + bit_len ≤ buf.length * 8)
    (val j : ℕ) :
    bit (write_low buf bit_off bit_len val) j =
      if bit_off ≤ j ∧ j < bit_off + bit_len then val.testBit (bit_off + bit_len - 1 - j)
      else bit buf j := by
  unfold write_low
  split
  · rename_i hwhole
    rw [bit_put (by rw [length_octets_of]; omega), length_octets_of]
    by_cases hj : bit_off ≤ j ∧ j < bit_off + bit_len
    · rw [if_pos hj, if_pos (by omega), bit_octets_of (by omega)]
      congr 1
      omega
    · rw [if_neg hj, if_neg (by omega)]
  · rw [bit_set_bits h]
    by_cases hj : bit_off ≤ j ∧ j < bit_off + bit_len
    · rw [if_pos hj, if_pos hj]
      congr 1
      omega
    · rw [if_neg hj, if_neg hj]

/-- **What a write of at most 64 bits leaves at every bit.** -/
theorem bit_write_bits {buf : Bytes} {bit_off bit_len : ℕ} (h : bit_off + bit_len ≤ buf.length * 8)
    (hlen : bit_len ≤ 64) (val j : ℕ) :
    bit (write_bits buf bit_off bit_len val) j =
      if bit_off ≤ j ∧ j < bit_off + bit_len then val.testBit (bit_off + bit_len - 1 - j)
      else bit buf j := by
  unfold write_bits
  by_cases hzero : bit_len = 0
  · rw [if_pos (Or.inl hzero), if_neg (by omega)]
  · rw [if_neg (by omega), if_neg (by omega), bit_write_low h]

/-- Bits beside a write stay. -/
theorem bit_write_bits_of_apart (buf : Bytes) (bit_off bit_len val : ℕ) {j : ℕ}
    (hj : j < bit_off ∨ bit_off + bit_len ≤ j) :
    bit (write_bits buf bit_off bit_len val) j = bit buf j := by
  unfold write_bits
  split
  · rfl
  · rename_i hin
    split
    · rename_i hwide
      rw [bit_write_low (by rw [length_set_bits]; omega), if_neg (by omega),
        bit_set_bits (by omega), if_neg (by omega)]
    · rw [bit_write_low (by omega), if_neg (by omega)]

/-! ## What a read takes from where -/

/-- The bits of what is read are the field's. -/
theorem testBit_read_bits {buf : Bytes} {bit_off bit_len : ℕ}
    (h : bit_off + bit_len ≤ buf.length * 8) (hlen : bit_len ≤ 64) (k : ℕ) :
    (read_bits buf bit_off bit_len).testBit k =
      if k < bit_len then bit buf (bit_off + bit_len - 1 - k) else false := by
  unfold read_bits
  by_cases hzero : bit_len = 0
  · rw [if_pos (Or.inl hzero), if_neg (by omega), Nat.zero_testBit]
  · rw [if_neg (by omega)]
    split
    -- Whole octets are gathered from the slice; any other field is cut out of the word read.
    · rename_i hwhole
      have hslice : (slice buf (bit_off / 8) (bit_off / 8 + bit_len / 8)).length = bit_len / 8 := by
        rw [length_slice (by omega)]
        omega
      rw [testBit_gather, hslice, show 8 * (bit_len / 8) = bit_len from by omega]
      by_cases hk : k < bit_len
      · rw [if_pos hk, if_pos hk]
        apply bit_congr (by omega)
        rw [slice_getElem?, if_pos (by omega)]
        congr 1
        omega
      · rw [if_neg hk, if_neg hk]
    · rw [Nat.testBit_mod_two_pow, testBit_spell]
      by_cases hk : k < bit_len
      · rw [if_pos hk, if_pos hk, decide_eq_true (show k < 64 from by omega), Bool.true_and]
        congr 1
        omega
      · rw [if_neg hk, if_neg hk, Bool.and_false]

/-- **What is written is read back, its high bits dropped.** -/
theorem read_write_bits {buf : Bytes} {bit_off bit_len : ℕ} (h : bit_off + bit_len ≤ buf.length * 8)
    (hlen : bit_len ≤ 64) (val : ℕ) :
    read_bits (write_bits buf bit_off bit_len val) bit_off bit_len = val % 2 ^ bit_len := by
  apply Nat.eq_of_testBit_eq
  intro k
  rw [testBit_read_bits (by rw [length_write_bits]; exact h) hlen, Nat.testBit_mod_two_pow]
  by_cases hk : k < bit_len
  · rw [if_pos hk, bit_write_bits h hlen, if_pos (by omega), decide_eq_true hk, Bool.true_and]
    congr 1
    omega
  · rw [if_neg hk, decide_eq_false hk, Bool.false_and]

/-! ## The octets of a field -/

/-- The first octet a field reads. -/
def FieldDesc.lo (f : FieldDesc) : ℕ := if f.le_len < 2 then f.bit_off / 8 else f.le_at

/-- The octet after the last one a field reads. -/
def FieldDesc.hi (f : FieldDesc) : ℕ :=
  if f.le_len < 2 then (f.bit_off + f.bit_len + 7) / 8 else f.le_at + min f.le_len 8

/-- A field of at most 64 bits that lies wholly in its header. -/
def FieldDesc.Inside (f : FieldDesc) (hdr : Bytes) : Prop :=
  f.bit_len ≤ 64 ∧
    if f.le_len < 2 then f.bit_off + f.bit_len ≤ hdr.length * 8
    else f.le_at + min f.le_len 8 ≤ hdr.length ∧
      le_off f.bit_off f.le_at + f.bit_len ≤ min f.le_len 8 * 8

/-- The image of a group is what was put there as one. -/
theorem le_image_put {hdr img img' : Bytes} {le_at le_len : ℕ}
    (himg : le_image hdr le_at le_len = some img) (hlen : img'.length = img.length) :
    le_image (put hdr le_at img'.reverse) le_at le_len = some img' := by
  obtain ⟨himg_len, hle⟩ := length_le_image himg
  have hroom : le_at + img'.reverse.length ≤ hdr.length := by
    rw [List.length_reverse, hlen, himg_len]
    exact hle
  have hback : slice (put hdr le_at img'.reverse) le_at (le_at + min le_len 8) = img'.reverse := by
    apply List.ext_getElem?
    intro i
    rw [slice_getElem?, put_getElem? hroom, List.length_reverse, hlen, himg_len]
    by_cases hi : i < min le_len 8
    · rw [if_pos (by omega), if_pos (by omega), Nat.add_sub_cancel_left]
    · rw [if_neg (by omega), List.getElem?_eq_none]
      rw [List.length_reverse, hlen, himg_len]
      omega
  rw [le_image, length_put hroom, if_pos hle, hback, List.reverse_reverse]

/-- A group that lies in the buffer has an image. -/
theorem le_image_of_le {hdr : Bytes} {le_at le_len : ℕ} (h : le_at + min le_len 8 ≤ hdr.length) :
    le_image hdr le_at le_len = some (slice hdr le_at (le_at + min le_len 8)).reverse :=
  if_pos h

/-- **A field reads back what was written to it, as far as its width goes.** -/
theorem read_write_uint {hdr : Bytes} {f : FieldDesc} (h : f.Inside hdr) (v : ℕ) :
    read_uint (write_uint hdr f v) f = v % 2 ^ f.bit_len := by
  obtain ⟨hwidth, hin⟩ := h
  unfold read_uint write_uint read_in write_in
  by_cases hbe : f.le_len < 2
  · rw [if_pos hbe] at hin
    rw [if_pos hbe, if_pos hbe]
    exact read_write_bits hin hwidth v
  · rw [if_neg hbe] at hin
    obtain ⟨hle, hfit⟩ := hin
    have himg := le_image_of_le hle
    have hlen := (length_le_image himg).1
    rw [if_neg hbe, if_neg hbe, himg]
    dsimp only
    rw [le_image_put himg (length_write_bits _ _ _ _)]
    exact read_write_bits (by rw [hlen]; exact hfit) hwidth v

end Wiry.Packet
