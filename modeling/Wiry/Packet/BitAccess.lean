/-
`read_bits`, `write_bits`, `read_in` and `write_in` of `crates/wiry-core/src/field.rs` on the
machine's own integers: offsets and lengths of 16 bits, values of 64, and the loops as they run.

`Packet.read_bits` and `Packet.write_bits` are what these compute over the natural numbers. Reading
always agrees with them. Writing agrees as long as the low 64 bits of the field begin below bit
`2 ^ 16`: the offset that `write_bits` calls itself with is cut to 16 bits.
-/
import Mathlib.Tactic.Ring
import Wiry.Packet.OwnBits

set_option autoImplicit false

namespace Wiry.Field

open Bits
open Packet (Bytes slice put octets_of le_image FieldDesc length_slice length_set_bits)

/-! ## The code -/

/-- The octet loop of `read_bits`. -/
def gather_octets (octets : Bytes) : UInt64 := octets.foldl (fun v o => v <<< 8 ||| o.toUInt64) 0

/-- The bit loop of `read_bits`. -/
def spell_bits (buf : Bytes) (start n : ℕ) : UInt64 :=
  (List.range n).foldl
    (fun v k =>
      let byte := buf.getD ((start + k) / 8) 0
      let bit := (byte >>> UInt8.ofNat (7 - (start + k) % 8)) &&& 1
      v <<< 1 ||| bit.toUInt64) 0

/-- `read_bits`, past the assertion of a debug build that no more than 64 bits are asked for. -/
def read_bits (buf : Bytes) (bit_off bit_len : UInt16) : UInt64 :=
  let start := bit_off.toNat
  let n := bit_len.toNat
  if n = 0 ∨ start + n > buf.length * 8 then 0
  else if start % 8 = 0 ∧ n % 8 = 0 ∧ n ≤ 64 then gather_octets (slice buf (start / 8) (start / 8 + n / 8))
  else spell_bits buf start n

/-- The octet loop of `write_bits`, `n` octets from `b0` on. -/
def write_octets (buf : Bytes) (b0 n : ℕ) (val : UInt64) : Bytes :=
  (List.range n).foldl
    (fun buf i => buf.set (b0 + i) ((val >>> UInt64.ofNat (8 * (n - 1 - i))) &&& 0xFF).toUInt8) buf

/-- The bit loop of `write_bits`, `n` bits from `start` on. -/
def write_bit_loop (buf : Bytes) (start n : ℕ) (val : UInt64) : Bytes :=
  (List.range n).foldl
    (fun buf k => set_bit buf (start + k) ((val >>> UInt64.ofNat (n - 1 - k)) &&& 1 == 1)) buf

/-- `write_bits` of at most 64 bits. -/
def write_narrow (buf : Bytes) (bit_off bit_len : UInt16) (val : UInt64) : Bytes :=
  let start := bit_off.toNat
  let n := bit_len.toNat
  if n = 0 ∨ start + n > buf.length * 8 then buf
  else if start % 8 = 0 ∧ n % 8 = 0 then write_octets buf (start / 8) (n / 8) val
  else write_bit_loop buf start n val

/-- `write_bits`, which calls itself once, for the low 64 bits of a wider field. -/
def write_bits (buf : Bytes) (bit_off bit_len : UInt16) (val : UInt64) : Bytes :=
  let start := bit_off.toNat
  let n := bit_len.toNat
  if n = 0 ∨ start + n > buf.length * 8 then buf
  else if 64 < n then
    let cleared := (List.range (n - 64)).foldl (fun buf k => set_bit buf (start + k) false) buf
    write_narrow cleared (UInt16.ofNat (start + n - 64)) 64 val
  else write_narrow buf bit_off bit_len val

def read_in (buf : Bytes) (bit_off bit_len le_at : UInt16) (le_len : UInt8) : UInt64 :=
  if le_len < 2 then read_bits buf bit_off bit_len
  else
    match le_image buf le_at.toNat le_len.toNat with
    | some img => read_bits img (bit_off - le_at * 8) bit_len
    | none => 0

def write_in (buf : Bytes) (bit_off bit_len le_at : UInt16) (le_len : UInt8) (v : UInt64) : Bytes :=
  if le_len < 2 then write_bits buf bit_off bit_len v
  else
    match le_image buf le_at.toNat le_len.toNat with
    | some img => put buf le_at.toNat (write_bits img (bit_off - le_at * 8) bit_len v).reverse
    | none => buf

/-! ## The loops over natural numbers -/

/-- A word shifted up takes the next digit in. -/
theorem toNat_shift_or {v w s : UInt64} {k : ℕ} (hs : s.toNat = k) (hk : k < 64)
    (hw : w.toNat < 2 ^ k) : (v <<< s ||| w).toNat = (v.toNat * 2 ^ k + w.toNat) % 2 ^ 64 := by
  apply Nat.eq_of_testBit_eq
  intro j
  have hw64 : w.toNat < 2 ^ 64 := w.toNat_lt
  rw [UInt64.toNat_or, UInt64.toNat_shiftLeft, hs, Nat.mod_eq_of_lt hk, Nat.testBit_or,
    Nat.testBit_mod_two_pow, Nat.testBit_mod_two_pow, Nat.testBit_shiftLeft, Nat.mul_comm,
    Nat.testBit_two_pow_mul_add _ hw]
  by_cases hj : j < k
  · rw [if_pos hj, decide_eq_false (show ¬k ≤ j from by omega), Bool.false_and, Bool.and_false,
      Bool.false_or, decide_eq_true (show j < 64 from by omega), Bool.true_and]
  · have hpow : 2 ^ k ≤ 2 ^ j := Nat.pow_le_pow_right (by omega) (by omega)
    rw [if_neg hj, decide_eq_true (show k ≤ j from by omega), Bool.true_and,
      Nat.testBit_lt_two_pow (Nat.lt_of_lt_of_le hw hpow), Bool.or_false]

/-- The shifted octets are the gathered number, cut to 64 bits. -/
theorem toNat_gather_octets (octets : Bytes) : (gather_octets octets).toNat = gather octets % 2 ^ 64 := by
  induction octets using List.reverseRecOn with
  | nil => rfl
  | append_singleton octets o ih =>
    have hstep := toNat_shift_or (v := gather_octets octets) (w := o.toUInt64) (s := 8) (k := 8) rfl
      (by decide)
      (by rw [UInt8.toNat_toUInt64]; exact o.toNat_lt)
    have hlast : gather_octets (octets ++ [o]) = gather_octets octets <<< 8 ||| o.toUInt64 := by
      rw [gather_octets, List.foldl_append]
      rfl
    rw [hlast, hstep, ih, gather_concat, UInt8.toNat_toUInt64]
    omega

/-- What the bit loop takes from an octet. -/
theorem toNat_bit (buf : Bytes) (i : ℕ) :
    ((buf.getD (i / 8) 0 >>> UInt8.ofNat (7 - i % 8)) &&& 1).toNat = (bit buf i).toNat := by
  have hshift : (UInt8.ofNat (7 - i % 8)).toNat % 8 = 7 - i % 8 := by
    rw [UInt8.toNat_ofNat']
    omega
  rw [UInt8.toNat_and, UInt8.toNat_shiftRight, hshift, bit, Nat.testBit, UInt8.toNat_one,
    Nat.and_one_is_mod, Nat.one_and_eq_mod_two]
  cases Nat.mod_two_eq_zero_or_one ((buf.getD (i / 8) 0).toNat >>> (7 - i % 8)) with
  | inl h =>
    rw [h]
    rfl
  | inr h =>
    rw [h]
    rfl

/-- So are the bits read one by one. -/
theorem toNat_spell_bits (buf : Bytes) (start n : ℕ) :
    (spell_bits buf start n).toNat = spell (fun k => bit buf (start + k)) n % 2 ^ 64 := by
  induction n with
  | zero => rfl
  | succ n ih =>
    have hlast : spell_bits buf start (n + 1) = spell_bits buf start n <<< 1 |||
        ((buf.getD ((start + n) / 8) 0 >>> UInt8.ofNat (7 - (start + n) % 8)) &&& 1).toUInt64 := by
      rw [spell_bits, List.range_succ, List.foldl_append]
      rfl
    have hdigit : (bit buf (start + n)).toNat < 2 ^ 1 := by
      cases bit buf (start + n) <;> decide
    have hstep := toNat_shift_or (v := spell_bits buf start n) (s := 1) (k := 1)
      (w := ((buf.getD ((start + n) / 8) 0 >>> UInt8.ofNat (7 - (start + n) % 8)) &&& 1).toUInt64)
      rfl (by decide) (by rw [UInt8.toNat_toUInt64, toNat_bit]; exact hdigit)
    rw [hlast, hstep, ih, spell_succ, UInt8.toNat_toUInt64, toNat_bit]
    omega

theorem gather_lt {octets : Bytes} (h : octets.length ≤ 8) : gather octets < 2 ^ 64 := by
  apply Nat.lt_pow_two_of_testBit
  intro i hi
  rw [testBit_gather, if_neg (by omega)]

/-- **Reading is reading over the naturals.** -/
theorem toNat_read_bits (buf : Bytes) (bit_off bit_len : UInt16) :
    (read_bits buf bit_off bit_len).toNat = Packet.read_bits buf bit_off.toNat bit_len.toNat := by
  unfold read_bits Packet.read_bits
  dsimp only
  split
  · rfl
  · rename_i hin
    split
    · rename_i hwhole
      have hlen : (slice buf (bit_off.toNat / 8) (bit_off.toNat / 8 + bit_len.toNat / 8)).length ≤ 8 := by
        rw [length_slice (by omega)]
        omega
      rw [toNat_gather_octets, Nat.mod_eq_of_lt (gather_lt hlen)]
    · exact toNat_spell_bits _ _ _

/-! ## What the writing loops leave -/

/-- Writing octets one by one changes those and no others. -/
theorem getElem?_write_octets {buf : Bytes} {b0 n : ℕ} (h : b0 + n ≤ buf.length) (f : ℕ → UInt8) (j : ℕ) :
    ((List.range n).foldl (fun buf i => buf.set (b0 + i) (f i)) buf)[j]? =
      if b0 ≤ j ∧ j < b0 + n then some (f (j - b0)) else buf[j]? := by
  have hlen : ∀ m, ((List.range m).foldl (fun buf i => buf.set (b0 + i) (f i)) buf).length =
      buf.length := by
    intro m
    induction m with
    | zero => rfl
    | succ m ih =>
      rw [List.range_succ, List.foldl_append]
      exact (List.length_set).trans ih
  -- On the number of octets written: the last one is written behind the others.
  induction n with
  | zero =>
    rw [if_neg (by omega)]
    rfl
  | succ n ih =>
    rw [List.range_succ, List.foldl_append, List.foldl_cons, List.foldl_nil, List.getElem?_set,
      hlen, ih (by omega)]
    by_cases hj : b0 + n = j
    · rw [if_pos hj, if_pos (by omega), if_pos (by omega)]
      congr 2
      omega
    · rw [if_neg hj]
      by_cases hin : b0 ≤ j ∧ j < b0 + n
      · rw [if_pos hin, if_pos (by omega)]
      · rw [if_neg hin, if_neg (by omega)]

/-- The octet a shift by whole octets brings down. -/
theorem shifted_octet (val : UInt64) {s : ℕ} (hs : s < 64) :
    ((val >>> UInt64.ofNat s) &&& 0xFF).toUInt8 = UInt8.ofNat (val.toNat / 2 ^ s) := by
  apply UInt8.toNat_inj.1
  have hshift : (UInt64.ofNat s).toNat % 64 = s := by
    rw [UInt64.toNat_ofNat']
    omega
  have hmask : (0xFF : UInt64).toNat = 2 ^ 8 - 1 := rfl
  rw [UInt64.toNat_toUInt8, UInt64.toNat_and, UInt64.toNat_shiftRight, hshift, hmask,
    Nat.and_two_pow_sub_one_eq_mod, Nat.mod_mod, UInt8.toNat_ofNat', Nat.shiftRight_eq_div_pow]

theorem write_octets_eq {buf : Bytes} {b0 n : ℕ} (h : b0 + n ≤ buf.length) (hn : n ≤ 8) (val : UInt64) :
    write_octets buf b0 n val = put buf b0 (octets_of n val.toNat) := by
  have hlen : (octets_of n val.toNat).length = n := Packet.length_octets_of _ _
  apply List.ext_getElem?
  intro j
  rw [write_octets, getElem?_write_octets h, Packet.put_getElem? (by omega), hlen]
  by_cases hj : b0 ≤ j ∧ j < b0 + n
  · rw [if_pos hj, if_pos hj, Packet.octets_of_getElem?, if_pos (by omega), shifted_octet _ (by omega)]
  · rw [if_neg hj, if_neg hj]

/-- The bit a shift brings down. -/
theorem shifted_bit (val : UInt64) {s : ℕ} (hs : s < 64) :
    ((val >>> UInt64.ofNat s) &&& 1 == 1) = val.toNat.testBit s := by
  have hshift : (UInt64.ofNat s).toNat % 64 = s := by
    rw [UInt64.toNat_ofNat']
    omega
  have hnat : ((val >>> UInt64.ofNat s) &&& 1).toNat = val.toNat >>> s % 2 := by
    rw [UInt64.toNat_and, UInt64.toNat_shiftRight, hshift, UInt64.toNat_one, Nat.and_one_is_mod]
  rw [Bool.eq_iff_iff, beq_iff_eq, ← UInt64.toNat_inj, hnat, UInt64.toNat_one, Nat.testBit,
    Nat.one_and_eq_mod_two, bne_iff_ne]
  omega

theorem write_bit_loop_eq (buf : Bytes) (start : ℕ) {n : ℕ} (hn : n ≤ 64) (val : UInt64) :
    write_bit_loop buf start n val =
      (List.range n).foldl
        (fun buf k => set_bit buf (start + k) (val.toNat.testBit (n - 1 - k))) buf := by
  unfold write_bit_loop
  apply List.foldl_ext
  intro buf k hk
  rw [List.mem_range] at hk
  rw [shifted_bit _ (by omega)]

/-- **Writing at most 64 bits is writing over the naturals.** -/
theorem write_narrow_eq (buf : Bytes) (bit_off : UInt16) {bit_len : UInt16} (hlen : bit_len.toNat ≤ 64)
    (val : UInt64) :
    write_narrow buf bit_off bit_len val =
      Packet.write_bits buf bit_off.toNat bit_len.toNat val.toNat := by
  unfold write_narrow Packet.write_bits Packet.write_low
  dsimp only
  split
  · rfl
  · rename_i hin
    have hnarrow : ¬bit_len.toNat > 64 := by omega
    rw [if_neg hnarrow]
    split
    · exact write_octets_eq (by omega) (by omega) val
    · exact write_bit_loop_eq buf _ hlen val

/-- Where the low 64 bits of a field begin below bit `2 ^ 16`. -/
def Reachable (bit_off bit_len : UInt16) : Prop :=
  bit_len.toNat ≤ 64 ∨ bit_off.toNat + bit_len.toNat - 64 < 2 ^ 16

instance (bit_off bit_len : UInt16) : Decidable (Reachable bit_off bit_len) := by
  unfold Reachable
  infer_instance

/-- **There writing is writing over the naturals.** -/
theorem write_bits_eq (buf : Bytes) {bit_off bit_len : UInt16} (h : Reachable bit_off bit_len)
    (val : UInt64) :
    write_bits buf bit_off bit_len val =
      Packet.write_bits buf bit_off.toNat bit_len.toNat val.toNat := by
  by_cases hin : bit_len.toNat = 0 ∨ bit_off.toNat + bit_len.toNat > buf.length * 8
  · unfold write_bits Packet.write_bits
    rw [if_pos hin, if_pos hin]
  · by_cases hlen : bit_len.toNat ≤ 64
    · unfold write_bits
      rw [if_neg hin, if_neg (by omega)]
      exact write_narrow_eq buf bit_off hlen val
    · have hlow : (UInt16.ofNat (bit_off.toNat + bit_len.toNat - 64)).toNat =
          bit_off.toNat + bit_len.toNat - 64 := by
        rw [UInt16.toNat_ofNat']
        exact Nat.mod_eq_of_lt (h.resolve_left hlen)
      have hwidth : (64 : UInt16).toNat = 64 := rfl
      unfold write_bits
      rw [if_neg hin, if_pos (by omega), write_narrow_eq _ _ (by decide), hlow, hwidth]
      unfold Packet.write_bits
      rw [if_neg (by rw [length_set_bits]; omega), if_neg (by omega), if_neg hin, if_pos (by omega)]

/-! ## The laws of a field -/

/-- What a field of a buffer obeys, whatever is written to it. -/
structure Lawful (buf : Bytes) (bit_off bit_len : UInt16) : Prop where
  /-- Up to 64 bits read back what was written, modulo the width. -/
  reads_back : bit_len.toNat ≤ 64 → ∀ v : UInt64,
    (read_bits (write_bits buf bit_off bit_len v) bit_off bit_len).toNat = v.toNat % 2 ^ bit_len.toNat
  length : ∀ v : UInt64, (write_bits buf bit_off bit_len v).length = buf.length
  /-- No other bit changes. -/
  frame : ∀ (v : UInt64) (j : ℕ), j < bit_off.toNat ∨ bit_off.toNat + bit_len.toNat ≤ j →
    bit (write_bits buf bit_off bit_len v) j = bit buf j
  /-- Where the field is whole octets the octet loops do what the bit loops do. -/
  aligned : bit_off.toNat % 8 = 0 → bit_len.toNat % 8 = 0 → bit_len.toNat ≤ 64 →
    gather_octets (slice buf (bit_off.toNat / 8) (bit_off.toNat / 8 + bit_len.toNat / 8)) =
        spell_bits buf bit_off.toNat bit_len.toNat ∧
      ∀ v : UInt64, write_octets buf (bit_off.toNat / 8) (bit_len.toNat / 8) v =
        write_bit_loop buf bit_off.toNat bit_len.toNat v
  /-- In a wider field the low 64 bits become the value and the rest zero. -/
  wide : 64 < bit_len.toNat → ∀ (v : UInt64) (j : ℕ), bit_off.toNat ≤ j →
    j < bit_off.toNat + bit_len.toNat →
      bit (write_bits buf bit_off bit_len v) j =
        if bit_off.toNat + bit_len.toNat - 64 ≤ j then
          v.toNat.testBit (bit_off.toNat + bit_len.toNat - 1 - j)
        else false

section

variable {buf : Bytes} {bit_off bit_len : UInt16}

/-- Read octet by octet or bit by bit, a field of whole octets is one number. -/
theorem gather_eq_spell (hin : bit_off.toNat + bit_len.toNat ≤ buf.length * 8)
    (hoff : bit_off.toNat % 8 = 0) (hlen : bit_len.toNat % 8 = 0) (hnarrow : bit_len.toNat ≤ 64) :
    gather_octets (slice buf (bit_off.toNat / 8) (bit_off.toNat / 8 + bit_len.toNat / 8)) =
      spell_bits buf bit_off.toNat bit_len.toNat := by
  have hslice : (slice buf (bit_off.toNat / 8) (bit_off.toNat / 8 + bit_len.toNat / 8)).length =
      bit_len.toNat / 8 := by
    rw [length_slice (by omega)]
    omega
  apply UInt64.toNat_inj.1
  rw [toNat_gather_octets, toNat_spell_bits]
  congr 1
  apply Nat.eq_of_testBit_eq
  intro k
  rw [testBit_gather, testBit_spell, hslice, show 8 * (bit_len.toNat / 8) = bit_len.toNat from by omega]
  by_cases hk : k < bit_len.toNat
  · rw [if_pos hk, if_pos hk]
    apply bit_congr (by omega)
    rw [Packet.slice_getElem?, if_pos (by omega)]
    congr 1
    omega
  · rw [if_neg hk, if_neg hk]

/-- On whole octets the fast path writes what the loop over the bits writes. -/
theorem write_octets_eq_loop (hin : bit_off.toNat + bit_len.toNat ≤ buf.length * 8)
    (hoff : bit_off.toNat % 8 = 0) (hlen : bit_len.toNat % 8 = 0) (hnarrow : bit_len.toNat ≤ 64)
    (v : UInt64) :
    write_octets buf (bit_off.toNat / 8) (bit_len.toNat / 8) v =
      write_bit_loop buf bit_off.toNat bit_len.toNat v := by
  have hroom : bit_off.toNat / 8 + (octets_of (bit_len.toNat / 8) v.toNat).length ≤ buf.length := by
    rw [Packet.length_octets_of]
    omega
  rw [write_octets_eq (by omega) (by omega), write_bit_loop_eq _ _ hnarrow]
  apply Bits.ext
  · rw [Packet.length_put hroom, length_set_bits]
  · intro j _
    rw [Packet.bit_put hroom, Packet.length_octets_of, Packet.bit_set_bits hin]
    by_cases hj : bit_off.toNat ≤ j ∧ j < bit_off.toNat + bit_len.toNat
    · rw [if_pos (by omega), if_pos hj, Packet.bit_octets_of (by omega)]
      congr 1
      omega
    · rw [if_neg (by omega), if_neg hj]

/-- A field that is in range and reachable keeps every shift below 64. -/
theorem lawful_of_reachable (hin : bit_off.toNat + bit_len.toNat ≤ buf.length * 8)
    (h : Reachable bit_off bit_len) : Lawful buf bit_off bit_len where
  reads_back hnarrow v := by
    rw [write_bits_eq buf h, toNat_read_bits]
    exact Packet.read_write_bits hin hnarrow v.toNat
  length v := by rw [write_bits_eq buf h, Packet.length_write_bits]
  frame v j hj := by
    rw [write_bits_eq buf h]
    exact Packet.bit_write_bits_of_apart _ _ _ _ hj
  aligned hoff hlen hnarrow :=
    ⟨gather_eq_spell hin hoff hlen hnarrow, write_octets_eq_loop hin hoff hlen hnarrow⟩
  wide hwide v j hlo hhi := by
    rw [write_bits_eq buf h, Packet.bit_write_bits_wide hin v.toNat_lt, if_pos ⟨hlo, hhi⟩]
    by_cases hj : bit_off.toNat + bit_len.toNat - 64 ≤ j
    · rw [if_pos hj]
    · have hpow : 2 ^ 64 ≤ 2 ^ (bit_off.toNat + bit_len.toNat - 1 - j) :=
        Nat.pow_le_pow_right (by omega) (by omega)
      rw [if_neg hj, Nat.testBit_lt_two_pow (Nat.lt_of_lt_of_le v.toNat_lt hpow)]

/-- Past bit `2 ^ 16` the low 64 bits of the value go in front of the field, and the field's own last
bit stays as it was. -/
theorem last_bit_of_not_reachable (hin : bit_off.toNat + bit_len.toNat ≤ buf.length * 8)
    (h : ¬Reachable bit_off bit_len) (v : UInt64) :
    bit (write_bits buf bit_off bit_len v) (bit_off.toNat + bit_len.toNat - 1) =
      bit buf (bit_off.toNat + bit_len.toNat - 1) := by
  have hoff := bit_off.toNat_lt
  have hlen := bit_len.toNat_lt
  rw [Reachable, not_or] at h
  have hlow : (UInt16.ofNat (bit_off.toNat + bit_len.toNat - 64)).toNat =
      bit_off.toNat + bit_len.toNat - 64 - 2 ^ 16 := by
    rw [UInt16.toNat_ofNat']
    omega
  have hwidth : (64 : UInt16).toNat = 64 := rfl
  unfold write_bits
  rw [if_neg (by omega), if_pos (by omega), write_narrow_eq _ _ (by decide), hlow, hwidth,
    Packet.bit_write_bits_of_apart _ _ _ _ (by omega), Packet.bit_set_bits (by omega),
    if_neg (by omega)]

/-- **A field is lawful exactly where its low 64 bits begin below bit `2 ^ 16`.** -/
theorem lawful_iff_reachable (hin : bit_off.toNat + bit_len.toNat ≤ buf.length * 8) :
    Lawful buf bit_off bit_len ↔ Reachable bit_off bit_len := by
  constructor
  · intro hlaw
    by_contra h
    have hkeep := last_bit_of_not_reachable hin h
    rw [Reachable, not_or] at h
    have hwide : 64 < bit_len.toNat := by omega
    have hput := fun v => hlaw.wide hwide v (bit_off.toNat + bit_len.toNat - 1) (by omega) (by omega)
    -- One and zero differ in the last bit, and it holds neither more than the other.
    have hone := hput 1
    have hzero := hput 0
    rw [hkeep, if_pos (by omega), Nat.sub_self] at hone hzero
    rw [hone] at hzero
    exact absurd hzero (by decide)
  · exact lawful_of_reachable hin

/-- Past the end nothing is written and zero read. -/
theorem past_the_end (h : bit_off.toNat + bit_len.toNat > buf.length * 8) :
    (∀ v, write_bits buf bit_off bit_len v = buf) ∧ read_bits buf bit_off bit_len = 0 := by
  constructor
  · intro v
    unfold write_bits
    rw [if_pos (.inr h)]
  · unfold read_bits
    rw [if_pos (.inr h)]

end

/-! ## Little-endian groups -/

/-- The field of a group, as a descriptor has it. -/
def grouped (bit_off bit_len le_at : UInt16) (le_len : UInt8) : FieldDesc :=
  { name := "", bit_off := bit_off.toNat, bit_len := bit_len.toNat, kind := .LeUint, default := 0,
    le_at := le_at.toNat, le_len := le_len.toNat }

/-- A group of two to eight octets that the field lies in. -/
structure Contains (le_at : UInt16) (le_len : UInt8) (bit_off bit_len : UInt16) : Prop where
  two : 2 ≤ le_len.toNat
  eight : le_len.toNat ≤ 8
  lo : 8 * le_at.toNat ≤ bit_off.toNat
  hi : bit_off.toNat + bit_len.toNat ≤ 8 * (le_at.toNat + le_len.toNat)

/-- Bit `i` of a group of `n` octets at `le_at`, counted from the most significant one of the integer
it is: the octets come in reverse. -/
def group_bit (le_at n i : ℕ) : ℕ := 8 * (le_at + (n - 1 - i / 8)) + i % 8

theorem toNat_image_off (bit_off le_at : UInt16) :
    (bit_off - le_at * 8).toNat = Packet.le_off bit_off.toNat le_at.toNat := by
  have hoff := bit_off.toNat_lt
  rw [UInt16.toNat_sub, UInt16.toNat_mul, Packet.le_off]
  have height : (8 : UInt16).toNat = 8 := rfl
  rw [height]
  omega

section

variable {bit_off bit_len le_at : UInt16} {le_len : UInt8}

theorem not_lt_two (h : 2 ≤ le_len.toNat) : ¬le_len < 2 := by
  rw [UInt8.lt_iff_toNat_lt]
  exact Nat.not_lt.2 h

theorem toNat_read_in (buf : Bytes) (h : 2 ≤ le_len.toNat) :
    (read_in buf bit_off bit_len le_at le_len).toNat =
      Packet.read_uint buf (grouped bit_off bit_len le_at le_len) := by
  unfold read_in Packet.read_uint Packet.read_in grouped
  rw [if_neg (not_lt_two h), if_neg (Nat.not_lt.2 h)]
  dsimp only
  cases le_image buf le_at.toNat le_len.toNat with
  | none => rfl
  | some img =>
    dsimp only
    rw [toNat_read_bits, toNat_image_off]

/-- And the writer writes what that model writes. -/
theorem write_in_eq (buf : Bytes) (h : 2 ≤ le_len.toNat) (v : UInt64) :
    write_in buf bit_off bit_len le_at le_len v =
      Packet.write_uint buf (grouped bit_off bit_len le_at le_len) v.toNat := by
  unfold write_in Packet.write_uint Packet.write_in grouped
  rw [if_neg (not_lt_two h), if_neg (Nat.not_lt.2 h)]
  dsimp only
  cases himg : le_image buf le_at.toNat le_len.toNat with
  | none => rfl
  | some img =>
    have hlen := (Packet.length_le_image himg).1
    dsimp only
    rw [← toNat_image_off]
    by_cases hin : (bit_off - le_at * 8).toNat + bit_len.toNat ≤ img.length * 8
    · -- an image is 64 bits at most, so nothing in it is wider
      rw [write_bits_eq img (.inl (by omega))]
    · rw [(past_the_end (by omega)).1 v, Packet.write_bits, if_pos (.inr (by omega))]

variable {buf : Bytes}

/-- A value's bits lie in the group, from the most significant one of the field on. -/
theorem place_of_contains (h : Contains le_at le_len bit_off bit_len) {k : ℕ} (hk : k < bit_len.toNat) :
    (grouped bit_off bit_len le_at le_len).place k =
      group_bit le_at.toNat le_len.toNat
        (bit_off.toNat - 8 * le_at.toNat + (bit_len.toNat - 1 - k)) := by
  have hoff := bit_off.toNat_lt
  have hlo := h.lo
  have height := h.eight
  have hbase : Packet.le_off bit_off.toNat le_at.toNat = bit_off.toNat - 8 * le_at.toNat := by
    unfold Packet.le_off
    omega
  have hbe : ¬(grouped bit_off bit_len le_at le_len).le_len < 2 := Nat.not_lt.2 h.two
  rw [FieldDesc.place_le hbe]
  unfold grouped group_bit
  dsimp only
  rw [hbase, Nat.min_eq_left height,
    show bit_off.toNat - 8 * le_at.toNat + bit_len.toNat - 1 - k =
      bit_off.toNat - 8 * le_at.toNat + (bit_len.toNat - 1 - k) from by omega]

/-- **A field of a group obeys the same law.** -/
theorem group_lawful (h : Contains le_at le_len bit_off bit_len)
    (hin : le_at.toNat + le_len.toNat ≤ buf.length) (v : UInt64) :
    (read_in (write_in buf bit_off bit_len le_at le_len v) bit_off bit_len le_at le_len).toNat =
        v.toNat % 2 ^ bit_len.toNat ∧
      (write_in buf bit_off bit_len le_at le_len v).length = buf.length ∧
      (∀ img, le_image buf le_at.toNat le_len.toNat = some img →
        Lawful img (bit_off - le_at * 8) bit_len) ∧
      ∀ j, (∀ k < bit_len.toNat,
          group_bit le_at.toNat le_len.toNat (bit_off.toNat - 8 * le_at.toNat + k) ≠ j) →
        bit (write_in buf bit_off bit_len le_at le_len v) j = bit buf j := by
  have hlo := h.lo
  have hhi := h.hi
  have height := h.eight
  have hoff := bit_off.toNat_lt
  refine ⟨?_, ?_, ?_, ?_⟩
  -- The octets read and written are the group's, and the group is inside the buffer.
  · have hinside : (grouped bit_off bit_len le_at le_len).Inside buf := by
      have htwo := h.two
      unfold FieldDesc.Inside grouped Packet.le_off
      dsimp only
      rw [if_neg (by omega)]
      omega
    rw [toNat_read_in _ h.two, write_in_eq _ h.two, Packet.read_write_uint hinside]
    rfl
  · rw [write_in_eq _ h.two, Packet.length_write_uint]
  · intro img himg
    have hlen := (Packet.length_le_image himg).1
    have hbase := toNat_image_off bit_off le_at
    unfold Packet.le_off at hbase
    exact lawful_of_reachable (by omega) (.inl (by omega))
  -- A bit outside the field keeps its place.
  · intro j hj
    rw [write_in_eq _ h.two]
    apply Packet.bit_write_uint_of_not_own
    rintro ⟨k, hk, hplace⟩
    have hk' : k < bit_len.toNat := hk
    rw [place_of_contains h hk'] at hplace
    exact hj (bit_len.toNat - 1 - k) (by omega) hplace

/-- A group that the buffer does not hold takes no write and reads as zero. -/
theorem group_past_the_end (h : 2 ≤ le_len.toNat) (hout : le_at.toNat + min le_len.toNat 8 > buf.length) :
    (∀ v, write_in buf bit_off bit_len le_at le_len v = buf) ∧
      read_in buf bit_off bit_len le_at le_len = 0 := by
  have hnone : le_image buf le_at.toNat le_len.toNat = none := if_neg (Nat.not_le.2 hout)
  constructor
  · intro v
    unfold write_in
    rw [if_neg (not_lt_two h), hnone]
  · unfold read_in
    rw [if_neg (not_lt_two h), hnone]

end

/-! ## Bit access as a whole -/

/-- **Bit access is lawful on every field whose low 64 bits begin below bit `2 ^ 16`, and on no
other**; past the end it does nothing, and the fields of a little-endian group are all lawful. -/
theorem bit_access_iff (buf : Bytes) (bit_off bit_len : UInt16) :
    (bit_off.toNat + bit_len.toNat ≤ buf.length * 8 →
      (Lawful buf bit_off bit_len ↔
        bit_len.toNat ≤ 64 ∨ bit_off.toNat + bit_len.toNat - 64 < 2 ^ 16)) ∧
    (bit_off.toNat + bit_len.toNat > buf.length * 8 →
      (∀ v, write_bits buf bit_off bit_len v = buf) ∧ read_bits buf bit_off bit_len = 0) ∧
    ∀ (le_at : UInt16) (le_len : UInt8), Contains le_at le_len bit_off bit_len →
      (le_at.toNat + le_len.toNat ≤ buf.length → ∀ v : UInt64,
        (read_in (write_in buf bit_off bit_len le_at le_len v) bit_off bit_len le_at le_len).toNat =
            v.toNat % 2 ^ bit_len.toNat ∧
          (write_in buf bit_off bit_len le_at le_len v).length = buf.length ∧
          (∀ img, le_image buf le_at.toNat le_len.toNat = some img →
            Lawful img (bit_off - le_at * 8) bit_len) ∧
          ∀ j, (∀ k < bit_len.toNat,
              group_bit le_at.toNat le_len.toNat (bit_off.toNat - 8 * le_at.toNat + k) ≠ j) →
            bit (write_in buf bit_off bit_len le_at le_len v) j = bit buf j) ∧
      (le_at.toNat + le_len.toNat > buf.length →
        (∀ v, write_in buf bit_off bit_len le_at le_len v = buf) ∧
          read_in buf bit_off bit_len le_at le_len = 0) := by
  refine ⟨?_, ?_, ?_⟩
  · intro hin
    exact lawful_iff_reachable hin
  · intro hout
    exact past_the_end hout
  · intro le_at le_len hgroup
    constructor
    · intro hin v
      exact group_lawful hgroup hin v
    · intro hout
      have height := hgroup.eight
      exact group_past_the_end hgroup.two (by omega)

/-- A nibble, and twelve bits across a little-endian word. -/
theorem bit_access_iff_witness :
    Lawful [0x45, 0] 0 4 ∧ read_bits [0x45] 4 8 = 0 ∧
      (read_in (write_in [0x34, 0x12] 4 12 0 2 0xABC) 4 12 0 2).toNat = 0xABC := by
  have hgroup : Contains 0 2 4 12 := ⟨by decide, by decide, by decide, by decide⟩
  refine ⟨((bit_access_iff [0x45, 0] 0 4).1 (by decide)).2 (by decide), ?_, ?_⟩
  · exact ((bit_access_iff [0x45] 4 8).2.1 (by decide)).2
  · exact (((bit_access_iff [0x34, 0x12] 4 12).2.2 0 2 hgroup).1 (by decide) 0xABC).1

/-- 65 bits from bit 65535 on, in a buffer that holds them all: the low 64 begin at bit `2 ^ 16`, and
are written at bit 0. -/
theorem wide_field_written_in_front :
    ¬∀ (buf : Bytes) (bit_off bit_len : UInt16), bit_off.toNat + bit_len.toNat ≤ buf.length * 8 →
      Lawful buf bit_off bit_len := by
  intro h
  have hroom : (65535 : UInt16).toNat + (65 : UInt16).toNat ≤ (List.replicate 8200 (0 : UInt8)).length * 8 := by
    rw [List.length_replicate]
    decide
  have hlaw := (lawful_iff_reachable hroom).1 (h (List.replicate 8200 0) 65535 65 hroom)
  exact absurd hlaw (by decide)

end Wiry.Field
