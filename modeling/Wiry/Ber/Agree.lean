/-
Where the two BER readers read alike: the end of the first element, the arcs of an
OBJECT IDENTIFIER as far as both widths go, and every INTEGER the narrower one holds.
-/
import Wiry.Ber.Reader
import Wiry.Lib.Bits

set_option autoImplicit false

namespace Wiry.Ber

open Packet (Bytes slice slice_checked)
open Endian (value value_lt value_append)

/-! ## Ends -/

/-- The reader that returns the tag's number and the one that skips it stop at the same octet. -/
theorem skip_tag_of_read (data : Bytes) (i tag : ℕ) {t j : ℕ} (h : read_tag data i tag = some (t, j)) :
    skip_tag data i + 1 = j := by
  -- Both look at the octets behind the first until one has no continuation bit.
  fun_induction read_tag data i tag with
  | case1 => cases h
  | case2 => cases h
  | case3 i tag b hb hwide tag' hlast =>
    rw [Option.some.injEq, Prod.mk.injEq] at h
    rw [← h.2]
    rw [skip_tag.eq_def]
    split
    · next hn => exact absurd (hb.symm.trans hn) (Option.some_ne_none _)
    · next b' hb' =>
      obtain rfl := Option.some.inj (hb.symm.trans hb')
      rw [if_pos hlast]
  | case4 i tag b hb hwide tag' hmore ih =>
    rw [skip_tag.eq_def]
    split
    · next hn => exact absurd (hb.symm.trans hn) (Option.some_ne_none _)
    · next b' hb' =>
      obtain rfl := Option.some.inj (hb.symm.trans hb')
      rw [if_neg hmore]
      exact ih h

theorem slice_checked_some {b v : Bytes} {i j : ℕ} (h : slice_checked b i j = some v) :
    j ≤ b.length ∧ v = slice b i j := by
  unfold slice_checked at h
  split at h
  · next hroom =>
    cases h
    exact ⟨hroom.2, rfl⟩
  · cases h

/-- Where `read` takes an element, `_tlv_ends` ends it. -/
theorem tlv_end_of_read {data : Bytes} {t : Tlv} (h : read data = some t) :
    tlv_end data 0 = some t.total := by
  simp only [read, Option.bind_eq_bind, Option.bind_eq_some_iff] at h
  obtain ⟨id, hid, ⟨tag, i⟩, htag, ⟨len, i'⟩, hlen, v, hvalue, h⟩ := h
  rw [Option.some.injEq] at h
  subst h
  -- Both readers leave the identifier at the same octet.
  have hstart : (if id &&& 0x1F = 0x1F then skip_tag data (0 + 1) + 1 else 0 + 1) = i := by
    unfold identifier at htag
    split at htag
    · next hhigh => rw [if_pos hhigh, skip_tag_of_read data 1 0 htag]
    · next hlow =>
      cases htag
      rw [if_neg hlow]
  have hroom := (slice_checked_some hvalue).1
  unfold tlv_end
  rw [hid]
  dsimp only
  rw [hstart]
  -- The length is short or long; in each form the two bounds are the same one.
  unfold read_len at hlen
  split at hlen
  · cases hlen
  · next first hfirst =>
    rw [hfirst]
    dsimp only
    split at hlen
    · next hshort =>
      cases hlen
      rw [if_neg (not_not.2 hshort), if_neg (by omega)]
    · next hlong =>
      rw [if_pos hlong]
      dsimp only at hlen
      split at hlen
      · cases hlen
      · obtain ⟨bytes, hbytes, hlen⟩ := Option.map_eq_some_iff.1 hlen
        obtain ⟨hk, rfl⟩ := slice_checked_some hbytes
        cases hlen
        rw [if_neg (by omega)]
        exact if_neg (by unfold from_bytes; omega)

theorem first_end_of_read {data : Bytes} {t : Tlv} (h : read data = some t) :
    (tlv_ends data).head? = some t.total := by
  rw [tlv_ends, tlv_ends_from_some (tlv_end_of_read h), List.head?_cons]

/-! ## Integers -/

theorem from_bytes_eq (b : Bytes) : from_bytes b = value b.reverse := by
  rw [from_bytes, Options.foldl_octets, Nat.zero_mul, Nat.zero_add]

theorem from_bytes_cons (x : UInt8) (b : Bytes) :
    from_bytes (x :: b) = x.toNat * 2 ^ (8 * b.length) + from_bytes b := by
  rw [from_bytes, List.foldl_cons, Nat.zero_mul, Nat.zero_add, Options.foldl_octets, from_bytes_eq]

theorem uint_eq {v : Bytes} (h : v.length ≤ 8) : uint v = from_bytes v := by
  rw [uint, List.take_of_length_le h, from_bytes]

/-- The `i64` fold is the unbounded one, reduced at the end. -/
theorem foldl_bmod (v : Bytes) (a : ℤ) :
    v.foldl (fun a b => Int.bmod (a * 256 + b.toNat) (2 ^ 64)) (Int.bmod a (2 ^ 64))
      = Int.bmod (a * 2 ^ (8 * v.length) + from_bytes v) (2 ^ 64) := by
  induction v generalizing a with
  | nil => simp [from_bytes]
  | cons x v ih =>
    have hstep : Int.bmod (Int.bmod a (2 ^ 64) * 256 + x.toNat) (2 ^ 64)
        = Int.bmod (a * 256 + x.toNat) (2 ^ 64) := by
      rw [← Int.bmod_add_bmod, Int.bmod_mul_bmod, Int.bmod_add_bmod]
    rw [List.foldl_cons, hstep, ih, from_bytes_cons]
    congr 1
    push_cast
    rw [List.length_cons, Nat.mul_add, pow_add]
    ring

theorem top_bit (o : UInt8) : o &&& 0x80 = 0 ↔ o.toNat < 128 := by
  revert o
  apply Bits.forall_octet
  decide +kernel

/-- A negative number of at most eight octets fits `i64`. -/
theorem int_fold_eq {first : UInt8} {rest : Bytes} (hneg : first &&& 0x80 ≠ 0)
    (hlen : rest.length ≤ 7) : int_fold (first :: rest) = from_bytes_signed (first :: rest) := by
  have hstart : (-1 : ℤ) = Int.bmod (-1) (2 ^ 64) := by decide
  have htop : 128 ≤ first.toNat := not_lt.1 fun h => hneg ((top_bit first).2 h)
  have hoctet := first.toNat_lt
  -- what follows the first octet is less than one unit of it
  have hrest : from_bytes rest < 2 ^ (8 * rest.length) := by
    rw [from_bytes_eq, ← List.length_reverse]
    exact value_lt _
  have hpow : (2 : ℕ) ^ (8 * rest.length) ≤ 2 ^ 56 := Nat.pow_le_pow_right (by decide) (by omega)
  have hwhole : (2 : ℤ) ^ (8 * (first :: rest).length) = 256 * (2 ^ (8 * rest.length) : ℕ) := by
    rw [List.length_cons, Nat.mul_add, pow_add]
    push_cast
    ring
  rw [int_fold, hstart, foldl_bmod, from_bytes_signed, if_neg hneg, hwhole, from_bytes_cons]
  -- the first octet's top bit keeps the sum at or above the least `i64`
  have hlow : 128 * 2 ^ (8 * rest.length) ≤ first.toNat * 2 ^ (8 * rest.length) :=
    Nat.mul_le_mul_right _ htop
  have hhigh : first.toNat * 2 ^ (8 * rest.length) ≤ 255 * 2 ^ (8 * rest.length) :=
    Nat.mul_le_mul_right _ (by omega)
  generalize first.toNat * 2 ^ (8 * rest.length) = f at hlow hhigh ⊢
  generalize 2 ^ (8 * rest.length) = p at hlow hhigh hrest hpow ⊢
  rw [Int.bmod_eq_of_le] <;> omega

/-- The integer an item stands for. -/
def integer_of : Options.ItemValue → Option ℤ
  | .Uint n => some n
  | .Int n => some n
  | _ => none

/-- Where the Rust reader accepts an integer, the Python decoder reads the same number. -/
theorem int_eq {v : Bytes} {item : Options.ItemValue} (h : int v = some item) :
    integer_of item = some (from_bytes_signed v) := by
  unfold int at h
  split at h
  · cases h
  · next first rest =>
    dsimp only at h
    split at h
    · next hpos =>
      rw [from_bytes_signed, if_pos hpos]
      have hdigits : from_bytes (if first = 0 then rest else first :: rest) = from_bytes (first :: rest) := by
        split
        · next hzero =>
          -- a leading zero octet adds nothing
          rw [from_bytes_cons, hzero, UInt8.toNat_zero, Nat.zero_mul, Nat.zero_add]
        · rfl
      generalize (if first = 0 then rest else first :: rest) = digits at h hdigits
      split at h
      · cases h
      · next hlen =>
        cases h
        rw [integer_of, uint_eq (not_lt.1 hlen), hdigits]
    · next hneg =>
      split at h
      · cases h
      · next hlen =>
        cases h
        rw [List.length_cons] at hlen
        rw [int_fold_eq hneg (by omega), integer_of]

/-! ## Object identifiers -/

/-- The Python loop only adds to what it has taken. -/
theorem prefix_of_oid_loop (s : Bytes) (lst : List ℕ) (x : ℕ) {out : List ℕ}
    (h : oid_loop s lst x = .ok out) : lst <+: out := by
  fun_induction oid_loop s lst x with
  | case1 lst x =>
    cases h
    exact List.prefix_rfl
  | case2 c s lst x x' hlast ih => exact (List.prefix_append lst [x']).trans (ih h)
  | case3 => cases h
  | case4 c s lst x x' hmore hsmall ih => exact ih h

/-- One octet of a subidentifier, on either side of the 64-bit reduction. -/
theorem acc_step {acc x : ℕ} (h : acc = x % 2 ^ 64) (d : ℕ) :
    (acc * 128 + d) % 2 ^ 64 = (x * 128 + d) % 2 ^ 64 := by
  omega

/-- While no subidentifier is wider than 64 bits, the Rust loop takes the first `MAX_ARCS` of them. -/
theorem oid_subs_eq (s : Bytes) (lst : List ℕ) (x : ℕ) {out : List ℕ}
    (h : oid_loop s lst x = .ok out) (hout : ∀ n ∈ out, n < 2 ^ 64) {acc : ℕ} (hacc : acc = x % 2 ^ 64)
    (hlst : lst.length ≤ MAX_ARCS) : oid_subs s lst acc = out.take MAX_ARCS := by
  -- Both loops keep the same list; the engine's accumulator is Python's number modulo `2 ^ 64`, and
  -- it stops at its limit of arcs.
  fun_induction oid_loop s lst x generalizing acc with
  | case1 lst x =>
    cases h
    rw [oid_subs, List.take_of_length_le hlst]
  | case2 c s lst x x' hlast ih =>
    have hpre := prefix_of_oid_loop _ _ _ h
    -- full: what is read later is dropped by the engine, and stands behind the limit in Python
    by_cases hfull : lst.length = MAX_ARCS
    · obtain ⟨more, rfl⟩ := hpre
      rw [oid_subs, if_pos hfull, List.append_assoc, ← hfull, List.take_left]
    · have hx : x' < 2 ^ 64 := hout x' (hpre.subset (by simp))
      rw [oid_subs, if_neg hfull]
      dsimp only
      rw [if_pos hlast, acc_step hacc, Nat.mod_eq_of_lt hx]
      refine ih h (Nat.zero_mod _).symm ?_
      rw [List.length_append, List.length_singleton]
      omega
  | case3 => cases h
  | case4 c s lst x x' hmore hsmall ih =>
    by_cases hfull : lst.length = MAX_ARCS
    · obtain ⟨more, rfl⟩ := prefix_of_oid_loop _ _ _ h
      rw [oid_subs, if_pos hfull, ← hfull, List.take_left]
    · rw [oid_subs, if_neg hfull]
      dsimp only
      rw [if_neg hmore]
      exact ih h (acc_step hacc _) hlst

theorem foldl_dots (rest : List ℕ) (out : List Char) :
    rest.foldl (fun out s => out ++ '.' :: decimal s) out
      = out ++ rest.flatMap fun s => '.' :: decimal s := by
  induction rest generalizing out with
  | nil => simp
  | cons n rest ih => rw [List.foldl_cons, ih, List.flatMap_cons, List.append_assoc]

theorem dotted_cons (n : ℕ) (rest : List ℕ) :
    dotted (n :: rest) = decimal n ++ rest.flatMap fun s => '.' :: decimal s := by
  induction rest generalizing n with
  | nil => simp [dotted, List.intercalate]
  | cons m rest ih =>
    rw [List.flatMap_cons, List.cons_append, ← ih m]
    simp [dotted, List.intercalate]

/-- `oid` spells the subidentifiers its loop took as the Python decoder spells its own. -/
theorem oid_eq (v : Bytes) : oid v = dotted (arcs (oid_subs v [] 0)) := by
  unfold oid
  cases oid_subs v [] 0 with
  | nil => rfl
  | cons first rest =>
    dsimp only
    rw [arcs, foldl_dots]
    by_cases h : first < 80
    · rw [if_pos h, if_neg (by omega)]
      simp [dotted_cons]
    · rw [if_neg h, if_pos (by omega)]
      simp [dotted_cons]

/-- The two readers agree on ends and integers, and on the arcs of an OBJECT IDENTIFIER whose
subidentifiers fit 64 bits, of which the Rust reader spells the first `MAX_ARCS`. -/
theorem ber_readers_agree :
    (∀ data t, read data = some t → (tlv_ends data).head? = some t.total)
      ∧ (∀ v subs, subidentifiers v = .ok subs → (∀ n ∈ subs, n < 2 ^ 64) →
          oid_contents v = .ok (dotted (arcs subs))
            ∧ oid v = dotted (arcs (subs.take MAX_ARCS))
            ∧ (subs.length ≤ MAX_ARCS → oid_contents v = .ok (oid v)))
      ∧ ∀ v item, int v = some item → integer_of item = some (from_bytes_signed v) := by
  refine ⟨fun _ _ => first_end_of_read, ?_, fun _ _ => int_eq⟩
  intro v subs h hsubs
  have hpython : oid_contents v = .ok (dotted (arcs subs)) := by
    rw [oid_contents, h]
    rfl
  -- Python's reader asks first that there be octets, then runs the same loop.
  have hloop : oid_loop v [] 0 = .ok subs := by
    unfold subidentifiers at h
    split at h
    · cases h
    · next lst hlst =>
      split at h
      · cases h
      · rw [hlst]
        exact h
  have hrust : oid v = dotted (arcs (subs.take MAX_ARCS)) := by
    rw [oid_eq, oid_subs_eq v [] 0 hloop hsubs (Nat.zero_mod _).symm (Nat.zero_le _)]
  refine ⟨hpython, hrust, fun hfew => ?_⟩
  rw [hpython, hrust, List.take_of_length_le hfew]

/-- One element, its length, three subidentifiers and an integer of one octet. -/
theorem ber_readers_agree_sample :
    (tlv_ends [6, 3, 0x2B, 6, 1]).head? = some 5 ∧ oid_contents [0x2B, 6, 1] = .ok (oid [0x2B, 6, 1])
      ∧ integer_of (.Int (-1)) = some (from_bytes_signed [0xFF]) :=
  ⟨ber_readers_agree.1 _ ⟨0, false, 6, [0x2B, 6, 1], 5⟩ rfl,
    (ber_readers_agree.2.1 [0x2B, 6, 1] [43, 6, 1] rfl (by decide)).2.2 (by decide),
    ber_readers_agree.2.2 _ _ rfl⟩

/-- Of 129 subidentifiers the Rust reader spells one fewer than the Python one. -/
theorem long_oid_read_apart :
    oid_contents (List.replicate 129 1) ≠ .ok (oid (List.replicate 129 1)) := by
  decide +kernel

end Wiry.Ber
