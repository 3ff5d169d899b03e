/-
What `python/wiry/asn1/ber.py` writes beside the shortest form X.690 asks for: the contents of an
INTEGER (§8.3.2), and identifiers (§8.1.2) as `BER_id_dec` and `BER_id_enc` take them.
-/
import Mathlib.Data.Set.Function
import Wiry.Ber.RoundTrip
import Wiry.Lib.Bits

set_option autoImplicit false

namespace Wiry.Ber

open Packet (Bytes)

/-! ## INTEGER -/

/-- `BERcodec_INTEGER.enc`. -/
def INTEGER_enc (i : ℤ) (size_len : ℕ) : Except BerError Bytes :=
  tlv 0x02 size_len (int_octets i).reverse

/-- `BERcodec_INTEGER.do_dec`. -/
def INTEGER_do_dec (s : Bytes) : Decoder (ℤ × Bytes) :=
  (check_type_check_len 0x02 s).and_then fun p => .ok (from_bytes_signed p.1, p.2)

/-- One octet, or more of which the first nine bits are neither all zero nor all one. -/
def Shortest : Bytes → Prop
  | [] => False
  | [_] => True
  | first :: second :: _ =>
    ¬(first = 0x00 ∧ second &&& 0x80 = 0) ∧ ¬(first = 0xFF ∧ second &&& 0x80 ≠ 0)

instance (b : Bytes) : Decidable (Shortest b) := by
  unfold Shortest
  split <;> infer_instance

/-- The octets of more than one, as the encoder leaves them behind. -/
theorem int_octets_eq (i : ℤ) : int_octets i =
    if -127 ≤ i ∧ i < 0 then [UInt8.ofNat (i % 256).toNat]
    else (if 128 ≤ i ∧ i ≤ 255 then [UInt8.ofNat (i % 256).toNat, 0]
      else [UInt8.ofNat (i % 256).toNat]) ++ if i / 256 = 0 then [] else int_octets (i / 256) := by
  rw [int_octets]

/-- Whether the number comes down to -128. -/
def Falls (i : ℤ) : Prop := ∃ k : ℕ, i / 256 ^ k = -128

theorem ediv_pow_succ (i : ℤ) (k : ℕ) : i / 256 ^ (k + 1) = i / 256 / 256 ^ k := by
  rw [pow_succ']
  exact (Int.ediv_ediv_of_nonneg (by decide)).symm

theorem falls_iff (i : ℤ) : Falls i ↔ i = -128 ∨ Falls (i / 256) := by
  constructor
  · rintro ⟨_ | k, hk⟩
    · left
      simpa using hk
    · right
      exact ⟨k, by rw [← ediv_pow_succ, hk]⟩
  · rintro (h | ⟨k, hk⟩)
    · exact ⟨0, by simpa using h⟩
    · exact ⟨k + 1, by rw [ediv_pow_succ, hk]⟩

theorem not_falls_of_small {i : ℤ} (h : -128 < i) : ¬Falls i := by
  rintro ⟨k, hk⟩
  induction k generalizing i with
  | zero =>
    simp at hk
    omega
  | succ k ih =>
    rw [ediv_pow_succ] at hk
    exact ih (by omega) hk

/-- One octet in two's complement. -/
theorem from_bytes_signed_octet (x : UInt8) :
    from_bytes_signed [x] = if x.toNat < 128 then (x.toNat : ℤ) else x.toNat - 256 := by
  have hvalue : from_bytes [x] = x.toNat := by simp [from_bytes]
  unfold from_bytes_signed
  simp only [top_bit, hvalue]
  rfl

/-- Two octets, of which the first is what the rest comes down to. -/
theorem shortest_pair {i : ℤ} {first low : UInt8} (hfirst : from_bytes_signed [first] = i / 256)
    (hlow : (low.toNat : ℤ) = i % 256) (hquot : i / 256 ≠ 0) (hlarge : ¬(-127 ≤ i ∧ i < 0)) :
    Shortest [first, low] ↔ i ≠ -128 := by
  -- The first octet of the pair is the quotient, the second the remainder.
  rw [from_bytes_signed_octet] at hfirst
  have hoctet := first.toNat_lt
  constructor
  · rintro ⟨-, hones⟩ hi
    apply hones
    constructor
    · apply UInt8.toNat_inj.1
      show first.toNat = 255
      split at hfirst <;> omega
    · intro hzero
      have hlt := (top_bit low).1 hzero
      omega
  · intro hi
    constructor
    · rintro ⟨rfl, -⟩
      exact hquot hfirst.symm
    · rintro ⟨rfl, htop⟩
      have hge : ¬low.toNat < 128 := fun hlt => htop ((top_bit low).2 hlt)
      have hvalue : i / 256 = -1 := hfirst.symm
      omega

/-- **The contents are the shortest unless the number comes down to -128**, which the loop takes for
one that needs another octet. -/
theorem shortest_int_octets (i : ℤ) : Shortest (int_octets i).reverse ↔ ¬Falls i := by
  fun_induction int_octets i with
  | case1 i low h =>
    simp [Shortest, not_falls_of_small (show -128 < i by omega)]
  | case2 i low h ih =>
    have hlow : (low.toNat : ℤ) = i % 256 := low_toNat i
    by_cases hquot : i / 256 = 0
    · rw [if_pos hquot, List.append_nil]
      have hsmall := not_falls_of_small (show -128 < i by omega)
      split
      · -- 128 to 255: the zero in front stands before a bit that is set
        have htop : ¬low &&& 0x80 = 0 := fun hzero => by
          have hlt := (top_bit low).1 hzero
          omega
        simp [Shortest, hsmall, htop]
      · simp [Shortest, hsmall]
    · have ih := ih hquot
      obtain ⟨hne, hread⟩ := from_bytes_signed_int_octets (i / 256)
      rw [if_neg hquot, if_neg (by omega), List.reverse_append, List.reverse_singleton]
      cases hrev : (int_octets (i / 256)).reverse with
      | nil => exact absurd (List.reverse_eq_nil_iff.1 hrev) hne
      | cons first rest =>
        rw [hrev] at ih hread
        cases rest with
        | cons second rest =>
          -- two octets already decide
          have hmany : i ≠ -128 := by
            rintro rfl
            rw [show (-128 : ℤ) / 256 = -1 by rfl, int_octets_eq] at hrev
            simp at hrev
          rw [falls_iff, or_iff_right hmany, ← ih]
          rfl
        | nil =>
          have hquiet : ¬Falls (i / 256) := ih.1 trivial
          rw [falls_iff, or_iff_left hquiet]
          exact shortest_pair hread hlow hquot (by omega)

/-- Where the budget has room for an identifier, or no decode is under way. -/
theorem charge_ok {st : Budget} (h : st.left ≠ some 0) : ∃ st', charge st = .ok ((), st') := by
  obtain ⟨left, nesting⟩ := st
  cases left with
  | none => exact ⟨_, rfl⟩
  | some left =>
    have hroom : left ≠ 0 := fun hzero => h (by rw [hzero])
    exact ⟨⟨some (left - 1), nesting⟩, by simp [charge, hroom]⟩

/-- An encoded integer decodes to itself with anything behind it, as long as the budget is not
spent. -/
theorem INTEGER_do_dec_enc {i : ℤ} {size_len : ℕ} {s : Bytes} (h : INTEGER_enc i size_len = .ok s)
    (rest : Bytes) {st : Budget} (hst : st.left ≠ some 0) :
    ∃ st', INTEGER_do_dec (s ++ rest) st = .ok ((i, rest), st') := by
  obtain ⟨st', hcharge⟩ := charge_ok hst
  obtain ⟨-, size, len, hlen, rfl⟩ := isTlv_of_tlv (by decide) h
  refine ⟨st', ?_⟩
  -- one element is charged, whatever follows it
  have hid : BER_id_dec (0x02 :: (len ++ (int_octets i).reverse ++ rest)) st =
      .ok ((2, len ++ (int_octets i).reverse ++ rest), st') := by
    unfold BER_id_dec
    rw [Decoder.and_then_of_ok hcharge]
    rfl
  have hne : len ++ (int_octets i).reverse ++ rest ≠ [] := by
    simp [(from_bytes_signed_int_octets i).1]
  unfold INTEGER_do_dec check_type_check_len check_type_get_len check_type
  simp only [Decoder.and_then, List.cons_append, hid, reduceCtorEq, if_false, ne_eq, not_true_eq_false,
    Decoder.ok, hne]
  rw [List.append_assoc, Decoder.lift, BER_len_dec_enc hlen]
  simp [Except.map, Decoder.ok, (from_bytes_signed_int_octets i).2]

/-- **Every integer is read back, and shortest unless shifting it right by whole octets comes down to
-128.** -/
theorem INTEGER_enc_shortest_iff (i : ℤ) :
    (Shortest (int_octets i).reverse ∧
        ∀ (size_len : ℕ) (s rest : Bytes) (st : Budget), st.left ≠ some 0 →
          INTEGER_enc i size_len = .ok s →
            ∃ st', INTEGER_do_dec (s ++ rest) st = .ok ((i, rest), st')) ↔
      ∀ k : ℕ, i / 256 ^ k ≠ -128 := by
  rw [shortest_int_octets, Falls, not_exists]
  constructor
  · exact And.left
  · intro h
    refine ⟨h, ?_⟩
    intro size_len s rest st hst henc
    exact INTEGER_do_dec_enc henc rest hst

/-- -128 takes one octet, and is given two. -/
theorem INTEGER_enc_min : INTEGER_enc (-128) 0 = .ok [0x02, 0x02, 0xFF, 0x80] ∧
    ¬Shortest (int_octets (-128)).reverse ∧ Shortest [0x80] ∧ from_bytes_signed [0x80] = -128 := by
  have hcontent : int_octets (-128) = [0x80, 0xFF] := by
    rw [int_octets_eq, int_octets_eq]
    decide
  unfold INTEGER_enc
  rw [hcontent]
  decide

/-! ## Identifiers -/

/-- `BER_id_enc`: the three low bits of the leading digit are the top bits of the first octet. -/
def BER_id_enc (n : ℕ) : Bytes :=
  if n < 256 then [UInt8.ofNat n]
  else
    match BER_num_enc n with
    | [] => []
    | first :: rest => ((first &&& 0x07) <<< 5 ||| 0x1F) :: rest

/-- The number `BER_id_dec` makes of the octets, outside of a decode. -/
def id_number (t : Bytes) : Except BerError ℕ := (BER_id_dec t ⟨none, 0⟩).map fun p => p.1.1

/-- The number seven bits an octet spell. -/
def tag_number (ds : Bytes) : ℕ := ds.foldl (fun x c => x * 128 + (c &&& 0x7F).toNat) 0

/-- The subsequent octets of the high tag form: all but the last say that more follow, and the first
is not a zero in front. -/
structure Subsequent (ds : Bytes) : Prop where
  marks : ∃ init last, ds = init ++ [last] ∧ (∀ c ∈ init, c &&& 0x80 ≠ 0) ∧ last &&& 0x80 = 0
  first : ∀ c, ds.head? = some c → c &&& 0x7F ≠ 0

/-- Identifier octets in the shortest form, of a tag below 2^32. -/
inductive Identifier : Bytes → Prop
  | low {x : UInt8} (h : x &&& 0x1F ≠ 0x1F) : Identifier [x]
  | high {x : UInt8} {ds : Bytes} (h : x &&& 0x1F = 0x1F) (hds : Subsequent ds)
      (hlarge : 31 ≤ tag_number ds) (hfits : tag_number ds < 2 ^ 32) : Identifier (x :: ds)

/-- The low form, or a class that is not universal, or a universal constructed tag above 127. -/
def Kept (t : Bytes) : Prop :=
  t.length = 1 ∨ 64 ≤ (t.headD 0).toNat ∨ 32 ≤ (t.headD 0).toNat ∧ 3 ≤ t.length

instance (t : Bytes) : Decidable (Kept t) := by unfold Kept; infer_instance

theorem tag_number_concat (ds : Bytes) (c : UInt8) :
    tag_number (ds ++ [c]) = tag_number ds * 128 + (c &&& 0x7F).toNat := by
  simp [tag_number]

theorem seven_bits (c : UInt8) : (c &&& 0x7F).toNat < 128 := by
  revert c
  apply Bits.forall_octet
  decide +kernel

theorem foldl_tag (x : ℕ) (ds : Bytes) :
    ds.foldl (fun x c => x * 128 + (c &&& 0x7F).toNat) x = x * 128 ^ ds.length + tag_number ds := by
  induction ds using List.reverseRecOn with
  | nil => simp [tag_number]
  | append_singleton ds c ih =>
    rw [List.foldl_append, ih, tag_number_concat]
    simp [pow_succ]
    ring

theorem tag_number_cons (c : UInt8) (ds : Bytes) :
    tag_number (c :: ds) = (c &&& 0x7F).toNat * 128 ^ ds.length + tag_number ds := by
  have h := foldl_tag (c &&& 0x7F).toNat ds
  rw [← h, tag_number, List.foldl_cons, Nat.zero_mul, Nat.zero_add]

/-- A digit under the mark is the octet itself. -/
theorem octet_of_marked {c : UInt8} (h : c &&& 0x80 ≠ 0) :
    UInt8.ofNat ((c &&& 0x7F).toNat ||| 0x80) = c := by
  revert c
  apply Bits.forall_octet
  decide +kernel

theorem octet_of_plain {c : UInt8} (h : c &&& 0x80 = 0) : UInt8.ofNat (c &&& 0x7F).toNat = c := by
  revert c
  apply Bits.forall_octet
  decide +kernel

/-- The decoder's loop over the subsequent octets. -/
theorem num_dec_loop_marks {init : Bytes} {last : UInt8} (hmarks : ∀ c ∈ init, c &&& 0x80 ≠ 0)
    (hlast : last &&& 0x80 = 0) {i : ℕ} (hi : i + init.length ≤ 33) (x : ℕ) :
    num_dec_loop (init ++ [last]) i x =
      .ok ((init ++ [last]).foldl (fun x c => x * 128 + (c &&& 0x7F).toNat) x, []) := by
  induction init generalizing i x with
  | nil => simp [num_dec_loop, hlast]
  | cons c init ih =>
    obtain ⟨hc, hmarks⟩ := List.forall_mem_cons.1 hmarks
    simp only [List.length_cons] at hi
    rw [List.cons_append, num_dec_loop, List.foldl_cons]
    simp only [if_neg hc]
    -- the bound on the octets of a number is not reached
    rw [if_neg (by omega), ih hmarks (by omega)]

/-- The encoder's loop writes the digits as they were. -/
theorem num_octets_marks {init : Bytes} (hmarks : ∀ c ∈ init, c &&& 0x80 ≠ 0)
    (hfirst : ∀ c, init.head? = some c → c &&& 0x7F ≠ 0) :
    num_octets (tag_number init) 0 true = init := by
  induction init using List.reverseRecOn with
  | nil =>
    rw [num_octets]
    rfl
  | append_singleton init c ih =>
    have hbits := seven_bits c
    have hc : c &&& 0x80 ≠ 0 := hmarks c (by simp)
    have hinit := ih (fun d hd => hmarks d (by simp [hd]))
      (fun d hd => hfirst d (by simp [List.head?_append, hd]))
    -- the number is not zero, since the first digit is not
    have hpos : ¬(tag_number (init ++ [c]) = 0 ∧ 0 = 0) := by
      rintro ⟨hzero, -⟩
      rw [tag_number_concat] at hzero
      have hnum : tag_number init = 0 := by omega
      rw [hnum, num_octets] at hinit
      simp at hinit
      subst hinit
      apply hfirst c rfl
      apply UInt8.toNat_inj.1
      show (c &&& 0x7F).toNat = 0
      omega
    rw [num_octets, if_neg hpos, tag_number_concat, Nat.mul_comm, Nat.mul_add_div (by decide),
      Nat.div_eq_of_lt hbits, Nat.add_zero, Nat.zero_sub, hinit, Nat.mul_add_mod,
      Nat.mod_eq_of_lt hbits, if_pos rfl, octet_of_marked hc]

theorem BER_num_enc_marks {init : Bytes} {last : UInt8} (hmarks : ∀ c ∈ init, c &&& 0x80 ≠ 0)
    (hlast : last &&& 0x80 = 0) (hfirst : ∀ c, init.head? = some c → c &&& 0x7F ≠ 0) :
    BER_num_enc (tag_number (init ++ [last])) = init ++ [last] := by
  have hbits := seven_bits last
  unfold BER_num_enc
  rw [num_octets, if_neg (by simp), tag_number_concat, Nat.mul_comm, Nat.mul_add_div (by decide),
    Nat.div_eq_of_lt hbits, Nat.add_zero, num_octets_marks hmarks hfirst, Nat.mul_add_mod,
    Nat.mod_eq_of_lt hbits, if_neg (by decide), octet_of_plain hlast]

namespace Subsequent

variable {ds : Bytes}

theorem ne_nil (h : Subsequent ds) : ds ≠ [] := by
  obtain ⟨init, last, rfl, -, -⟩ := h.marks
  simp

/-- The first digit counts. -/
theorem pow_le (h : Subsequent ds) : 128 ^ (ds.length - 1) ≤ tag_number ds := by
  cases ds with
  | nil => exact absurd rfl h.ne_nil
  | cons c ds =>
    have hc := h.first c rfl
    have hpos : 0 < (c &&& 0x7F).toNat := by
      apply Nat.pos_of_ne_zero
      intro hzero
      exact hc (UInt8.toNat_inj.1 hzero)
    rw [tag_number_cons, List.length_cons, Nat.add_sub_cancel]
    exact (Nat.le_mul_of_pos_left _ hpos).trans (Nat.le_add_right _ _)

/-- So many digits of seven bits. -/
theorem tag_lt (ds : Bytes) : tag_number ds < 128 ^ ds.length := by
  induction ds using List.reverseRecOn with
  | nil => simp [tag_number]
  | append_singleton ds c ih =>
    have hbits := seven_bits c
    rw [tag_number_concat, List.length_append, List.length_singleton, pow_succ]
    omega

theorem length_le (h : Subsequent ds) (hfits : tag_number ds < 2 ^ 32) : ds.length ≤ 5 := by
  by_contra hlong
  have hpow := h.pow_le
  have hmany : 128 ^ 5 ≤ 128 ^ (ds.length - 1) := Nat.pow_le_pow_right (by decide) (by omega)
  omega

end Subsequent

theorem id_number_low {x : UInt8} (h : x &&& 0x1F ≠ 0x1F) : id_number [x] = .ok x.toNat := by
  simp [id_number, BER_id_dec, charge, Decoder.and_then, Decoder.ok, h, Except.map]

theorem id_number_high {x : UInt8} {ds : Bytes} (h : x &&& 0x1F = 0x1F) (hds : Subsequent ds)
    (hfits : tag_number ds < 2 ^ 32) :
    id_number (x :: ds) = .ok (x.toNat / 32 * 128 ^ ds.length + tag_number ds) := by
  have hlen := hds.length_le hfits
  obtain ⟨init, last, rfl, hmarks, hlast⟩ := hds.marks
  simp only [List.length_append, List.length_singleton] at hlen
  have hloop := num_dec_loop_marks hmarks hlast (show 0 + init.length ≤ 33 by omega) (x.toNat / 32)
  rw [foldl_tag] at hloop
  simp [id_number, BER_id_dec, charge, Decoder.and_then, h, BER_num_dec, Decoder.lift, hloop, Except.map]

/-- The first octet from its own top bits. -/
theorem first_octet {x : UInt8} (h : x &&& 0x1F = 0x1F) :
    (UInt8.ofNat (x.toNat / 32 ||| 0x80) &&& 0x07) <<< 5 ||| 0x1F = x := by
  revert x
  apply Bits.forall_octet
  decide +kernel

/-- The class and constructed bits as a digit in front. -/
theorem BER_num_enc_class {k : ℕ} {ds : Bytes} (hk : 0 < k) (hk8 : k < 8) (hds : Subsequent ds) :
    BER_num_enc (k * 128 ^ ds.length + tag_number ds) = UInt8.ofNat (k ||| 0x80) :: ds := by
  obtain ⟨init, last, rfl, hmarks, hlast⟩ := hds.marks
  obtain ⟨hmark, hdigit⟩ := marked_octet (show k < 128 by omega)
  have hnum : k * 128 ^ (init ++ [last]).length + tag_number (init ++ [last]) =
      tag_number ((UInt8.ofNat (k ||| 0x80) :: init) ++ [last]) := by
    rw [List.cons_append, tag_number_cons, hdigit]
  rw [hnum]
  refine BER_num_enc_marks ?_ hlast ?_
  · intro c hc
    rcases List.mem_cons.1 hc with rfl | hc
    · exact hmark
    · exact hmarks c hc
  · -- the digit in front is not zero, so it is not one too many
    intro c hc hzero
    simp only [List.head?_cons, Option.some.injEq] at hc
    subst hc
    rw [hzero] at hdigit
    exact hk.ne hdigit

theorem BER_num_enc_tag {ds : Bytes} (hds : Subsequent ds) : BER_num_enc (tag_number ds) = ds := by
  obtain ⟨init, last, rfl, hmarks, hlast⟩ := hds.marks
  refine BER_num_enc_marks hmarks hlast ?_
  intro c hc
  exact hds.first c (by simp [List.head?_append, hc])

theorem length_id_enc_le (n : ℕ) : (BER_id_enc n).length = 1 ∨
    256 ≤ n ∧ (BER_id_enc n).length = (BER_num_enc n).length := by
  by_cases hn : n < 256
  · left
    simp [BER_id_enc, hn]
  · right
    refine ⟨by omega, ?_⟩
    unfold BER_id_enc
    rw [if_neg hn]
    cases BER_num_enc n <;> rfl

/-- With the constructed bit alone and one digit the number of a high form is that of a low one. -/
theorem folded_iff {c k v : ℕ} (hc : 1 ≤ c) (hk : 0 < k) (hv : v < 128 ^ k) :
    c * 128 ^ k + v < 256 ↔ c = 1 ∧ k = 1 := by
  constructor
  · intro hsmall
    by_contra hno
    rcases (by omega : 2 ≤ c ∨ 2 ≤ k) with hc2 | hk2
    · have hmul := Nat.mul_le_mul hc2 (Nat.pow_le_pow_right (show 0 < 128 by decide) hk)
      omega
    · have hmul := Nat.mul_le_mul hc (Nat.pow_le_pow_right (show 0 < 128 by decide) hk2)
      omega
  · rintro ⟨rfl, rfl⟩
    omega

/-- An identifier comes back from its number exactly where it is kept apart. -/
theorem id_enc_dec_iff {t : Bytes} (ht : Identifier t) :
    (∃ n, id_number t = .ok n ∧ BER_id_enc n = t) ↔ Kept t := by
  cases ht with
  | @low x h =>
    have hx := x.toNat_lt
    rw [id_number_low h]
    simp [Kept, BER_id_enc, show x.toNat < 256 from hx]
  | @high x ds h hds hlarge hfits =>
    have hx := x.toNat_lt
    have hlen : 0 < ds.length := List.length_pos_iff.2 hds.ne_nil
    have hlt := Subsequent.tag_lt ds
    rw [id_number_high h hds hfits]
    simp only [Except.ok.injEq, exists_eq_left', Kept, List.length_cons, List.headD_cons]
    rcases Nat.eq_zero_or_pos (x.toNat / 32) with hclass | hclass
    · -- universal and primitive: the number is the tag alone, one octet short
      have hno : ¬(ds.length + 1 = 1 ∨ 64 ≤ x.toNat ∨ 32 ≤ x.toNat ∧ 3 ≤ ds.length + 1) := by omega
      rw [hclass, Nat.zero_mul, Nat.zero_add, iff_false_right hno]
      intro heq
      have hlength := length_id_enc_le (tag_number ds)
      rw [heq, BER_num_enc_tag hds, List.length_cons] at hlength
      omega
    · have hnum := BER_num_enc_class hclass (by omega) hds
      have hfolded := folded_iff hclass hlen hlt
      by_cases hsmall : x.toNat / 32 * 128 ^ ds.length + tag_number ds < 256
      · -- one digit behind the constructed bit: what is left is a low form
        have hone : ¬(ds.length + 1 = 1 ∨ 64 ≤ x.toNat ∨ 32 ≤ x.toNat ∧ 3 ≤ ds.length + 1) := by
          obtain ⟨hclass1, hlen1⟩ := hfolded.1 hsmall
          omega
        rw [iff_false_right hone]
        intro heq
        have hlength := congrArg List.length heq
        unfold BER_id_enc at hlength
        rw [if_pos hsmall, List.length_singleton, List.length_cons] at hlength
        omega
      · have hyes : ds.length + 1 = 1 ∨ 64 ≤ x.toNat ∨ 32 ≤ x.toNat ∧ 3 ≤ ds.length + 1 := by
          rw [hfolded] at hsmall
          omega
        rw [iff_true_right hyes]
        unfold BER_id_enc
        rw [if_neg hsmall, hnum]
        dsimp only
        rw [first_octet h]

/-- **Identifiers that are kept apart come back, and have numbers of their own; in any set with
another one some identifier does not.** -/
theorem id_numbers_iff (S : Set Bytes) (hS : ∀ t ∈ S, Identifier t) :
    ((∀ t ∈ S, ∃ n, id_number t = .ok n ∧ BER_id_enc n = t) ∧ Set.InjOn id_number S) ↔
      ∀ t ∈ S, Kept t := by
  constructor
  · rintro ⟨hback, -⟩ t ht
    exact (id_enc_dec_iff (hS t ht)).1 (hback t ht)
  · intro hkept
    have hback : ∀ t ∈ S, ∃ n, id_number t = .ok n ∧ BER_id_enc n = t :=
      fun t ht => (id_enc_dec_iff (hS t ht)).2 (hkept t ht)
    refine ⟨hback, ?_⟩
    intro t ht u hu heq
    obtain ⟨n, hn, rfl⟩ := hback t ht
    obtain ⟨m, hm, rfl⟩ := hback u hu
    rw [hn, hm, Except.ok.injEq] at heq
    rw [heq]

theorem subsequent_one {c : UInt8} (h : c &&& 0x80 = 0) (hc : c &&& 0x7F ≠ 0) : Subsequent [c] where
  marks := ⟨[], c, rfl, by simp, h⟩
  first := by simpa using hc

/-- A set of two application tags, one of them in the high form. -/
theorem id_numbers_apart :
    ((∀ t ∈ ({[0x42], [0x5F, 0x22]} : Set Bytes), ∃ n, id_number t = .ok n ∧ BER_id_enc n = t) ∧
      Set.InjOn id_number {[0x42], [0x5F, 0x22]}) := by
  refine (id_numbers_iff {[0x42], [0x5F, 0x22]} ?_).2 ?_
  · rintro t (rfl | rfl)
    · exact .low (by decide)
    · exact .high (by decide) (subsequent_one (by decide) (by decide)) (by decide) (by decide)
  · rintro t (rfl | rfl) <;> decide

/-- Tag 34 in the high form has the number of the constructed tag 2, and is written as that. -/
theorem id_number_folded : Identifier [0x1F, 0x22] ∧ Identifier [0x22] ∧
    id_number [0x1F, 0x22] = id_number [0x22] ∧ id_number [0x1F, 0x22] = .ok 0x22 ∧
    BER_id_enc 0x22 = [0x22] :=
  ⟨.high (by decide) (subsequent_one (by decide) (by decide)) (by decide) (by decide),
    .low (by decide), by decide, by decide, by decide⟩

end Wiry.Ber
