/-
Lengths and contents as the encoders of `python/wiry/asn1/ber.py` write them, read back:
each encoder's loop beside the decoder's, by the encoder's own recursion.
-/
import Wiry.Ber.Agree
import Wiry.Ber.Codec

set_option autoImplicit false

namespace Wiry.Ber

open Packet (Bytes slice)

/-! ## Numbers -/

theorem from_bytes_concat (b : Bytes) (x : UInt8) :
    from_bytes (b ++ [x]) = from_bytes b * 256 + x.toNat := by
  unfold from_bytes
  rw [List.foldl_append]
  rfl

theorem toNat_ofNat_mod (n : ℕ) : (UInt8.ofNat (n % 256)).toNat = n % 256 := by
  rw [UInt8.toNat_ofNat']
  exact Nat.mod_mod n 256

theorem from_bytes_len_octets (ll size : ℕ) : from_bytes (len_octets ll size) = ll := by
  fun_induction len_octets ll size with
  | case1 ll size h => rw [h.1]; rfl
  | case2 ll size h ih =>
    rw [from_bytes_concat, ih, toNat_ofNat_mod]
    omega

/-- An octet of seven bits. -/
theorem plain_octet {n : ℕ} (h : n < 128) :
    UInt8.ofNat n &&& 0x80 = 0 ∧ (UInt8.ofNat n &&& 0x7F).toNat = n ∧ (UInt8.ofNat n).toNat = n := by
  have hall : ∀ n < 128, UInt8.ofNat n &&& 0x80 = 0 ∧ (UInt8.ofNat n &&& 0x7F).toNat = n
      ∧ (UInt8.ofNat n).toNat = n := by
    decide +kernel
  exact hall n h

/-- Seven bits under the mark of a long length, or of more octets to come. -/
theorem marked_octet {n : ℕ} (h : n < 128) :
    UInt8.ofNat (n ||| 0x80) &&& 0x80 ≠ 0 ∧ (UInt8.ofNat (n ||| 0x80) &&& 0x7F).toNat = n := by
  have hall : ∀ n < 128, UInt8.ofNat (n ||| 0x80) &&& 0x80 ≠ 0
      ∧ (UInt8.ofNat (n ||| 0x80) &&& 0x7F).toNat = n := by
    decide +kernel
  exact hall n h

/-- **A length is read back** in either form. -/
theorem BER_len_dec_enc {n size : ℕ} {b : Bytes} (h : BER_len_enc n size = .ok b) (r : Bytes) :
    BER_len_dec (b ++ r) = .ok (n, r) := by
  unfold BER_len_enc at h
  split at h
  · next hshort =>
    cases h
    obtain ⟨htop, -, hnat⟩ := plain_octet (show n < 128 by omega)
    unfold BER_len_dec
    simp only [List.cons_append, List.nil_append, if_pos htop, hnat]
  · dsimp only at h
    split at h
    · cases h
    · next hfits =>
      cases h
      obtain ⟨htop, hnat⟩ := marked_octet (show (len_octets n size).length < 128 by omega)
      unfold BER_len_dec
      simp only [List.cons_append, if_neg htop, hnat]
      rw [if_neg (by simp only [List.length_cons, List.length_append]; omega), List.take_left,
        List.drop_left, from_bytes_len_octets]

/-- The signed reading of one octet more. -/
theorem from_bytes_signed_concat {b : Bytes} (hb : b ≠ []) (x : UInt8) :
    from_bytes_signed (b ++ [x]) = from_bytes_signed b * 256 + x.toNat := by
  cases b with
  | nil => exact absurd rfl hb
  | cons first rest =>
    have hnat := from_bytes_concat (first :: rest) x
    rw [List.cons_append] at hnat ⊢
    unfold from_bytes_signed
    dsimp only
    rw [hnat, ← List.cons_append, List.length_append, List.length_singleton, Nat.mul_add, pow_add]
    split
    · push_cast
      rfl
    · push_cast
      ring

theorem low_toNat (i : ℤ) : ((UInt8.ofNat (i % 256).toNat).toNat : ℤ) = i % 256 := by
  rw [UInt8.toNat_ofNat', Nat.mod_eq_of_lt (by omega)]
  omega

/-- **Two's complement is read back**, of any integer. -/
theorem from_bytes_signed_int_octets (i : ℤ) :
    int_octets i ≠ [] ∧ from_bytes_signed (int_octets i).reverse = i := by
  fun_induction int_octets i with
  | case1 i low h =>
    refine ⟨List.cons_ne_nil _ _, ?_⟩
    have hlow : (low.toNat : ℤ) = i % 256 := low_toNat i
    -- -127 to -1 is one octet whose top bit is set
    have htop : ¬low &&& 0x80 = 0 := fun hzero => by
      have hlt := (top_bit low).1 hzero
      omega
    show (if low &&& 0x80 = 0 then _ else _) = i
    rw [if_neg htop]
    show ((0 * 256 + low.toNat : ℕ) : ℤ) - 2 ^ (8 * 1) = i
    omega
  | case2 i low h ih =>
    have hlow : (low.toNat : ℤ) = i % 256 := low_toNat i
    refine ⟨by split <;> exact List.append_ne_nil_of_left_ne_nil (List.cons_ne_nil _ _) _, ?_⟩
    -- 128 to 255 takes a zero in front, anything larger goes on with what is above the low octet
    by_cases hquot : i / 256 = 0
    · rw [if_pos hquot, List.append_nil]
      split
      · show ((((0 * 256 + 0) * 256 + low.toNat : ℕ)) : ℤ) = i
        omega
      · have htop : low &&& 0x80 = 0 := (top_bit low).2 (by omega)
        show (if low &&& 0x80 = 0 then _ else _) = i
        rw [if_pos htop]
        show ((0 * 256 + low.toNat : ℕ) : ℤ) = i
        omega
    · obtain ⟨hne, hread⟩ := ih hquot
      rw [if_neg hquot, if_neg (by omega), List.reverse_append, List.reverse_singleton,
        from_bytes_signed_concat (List.reverse_ne_nil_iff.2 hne), hread]
      omega

/-! ## Bit strings -/

theorem bits_of_octet (b7 b6 b5 b4 b3 b2 b1 b0 : Bool) :
    bits_of (UInt8.ofNat ([b7, b6, b5, b4, b3, b2, b1, b0].foldl (fun a b => 2 * a + b.toNat) 0))
      = [b7, b6, b5, b4, b3, b2, b1, b0] := by
  revert b7 b6 b5 b4 b3 b2 b1 b0
  decide +kernel

/-- Unpacking the packed bits gives the bits back when they fill whole octets. -/
theorem flatMap_pack {s : List Bool} (h : s.length % 8 = 0) : (pack s).flatMap bits_of = s := by
  fun_induction pack s with
  | case1 b7 b6 b5 b4 b3 b2 b1 b0 rest ih =>
    rw [List.flatMap_cons, bits_of_octet, ih (by simp only [List.length_cons] at h; omega)]
    rfl
  | case2 s hshort =>
    cases s with
    | nil => rfl
    | cons b7 s =>
      obtain ⟨b6, b5, b4, b3, b2, b1, b0, rest, rfl⟩ : ∃ b6 b5 b4 b3 b2 b1 b0 rest,
          s = b6 :: b5 :: b4 :: b3 :: b2 :: b1 :: b0 :: rest := by
        match s, h with
        | b6 :: b5 :: b4 :: b3 :: b2 :: b1 :: b0 :: rest, _ => exact ⟨_, _, _, _, _, _, _, _, rfl⟩
        | [], h | [_], h | [_, _], h | [_, _, _], h | [_, _, _, _], h | [_, _, _, _, _], h
        | [_, _, _, _, _, _], h =>
          simp only [List.length_cons, List.length_nil] at h
          omega
      exact absurd rfl (hshort _ _ _ _ _ _ _ _ _)

/-- **Bits are read back**, whatever the last octet leaves unused. -/
theorem bit_string_contents_octets (s : List Bool) :
    bit_string_contents (bit_string_octets s) = .ok s := by
  obtain ⟨unused, hunused⟩ : ∃ n, n = if s.length % 8 = 0 then 0 else 8 - s.length % 8 := ⟨_, rfl⟩
  have hlt : unused < 8 := by
    rw [hunused]
    split <;> omega
  have hfull : (s ++ List.replicate unused false).length % 8 = 0 := by
    rw [List.length_append, List.length_replicate, hunused]
    split <;> omega
  have hnat : (UInt8.ofNat unused).toNat = unused := by
    rw [UInt8.toNat_ofNat', Nat.mod_eq_of_lt (by omega)]
  unfold bit_string_octets bit_string_contents
  rw [← hunused]
  dsimp only
  rw [flatMap_pack hfull, hnat]
  split
  · rw [List.length_append, List.length_replicate, Nat.add_sub_cancel, List.take_left]
  · next hzero =>
    rw [show unused = 0 from by omega, List.replicate_zero, List.append_nil]

/-! ## Object identifiers -/

theorem decimal_int_decimal (n : ℕ) : decimal_int (decimal n) = .ok n := by
  have htext : decimal n = Nat.toDigits 10 n := by
    unfold decimal
    rw [Nat.toString_eq_ofList_toDigits, String.toList_ofList]
  rw [htext, decimal_int, if_pos, Nat.ofDigitChars_ten_toDigits]
  refine ⟨Nat.toDigits_ne_nil, ?_⟩
  rw [List.all_eq_true]
  exact fun c hc => Nat.isDigit_of_mem_toDigits (by decide) (by decide) hc

theorem decimal_digits (n : ℕ) : decimal n ≠ [] ∧ ∀ c ∈ decimal n, c ≠ '.' := by
  have htext : decimal n = Nat.toDigits 10 n := by
    unfold decimal
    rw [Nat.toString_eq_ofList_toDigits, String.toList_ofList]
  rw [htext]
  refine ⟨Nat.toDigits_ne_nil, fun c hc hdot => ?_⟩
  have hdigit := Nat.isDigit_of_mem_toDigits (by decide) (by decide) hc
  rw [hdot] at hdigit
  exact absurd hdigit (by decide)

/-- Dotted text has no dots to strip. -/
theorem dotted_ends (a : ℕ) (rest : List ℕ) :
    ∃ first last : Char, first ≠ '.' ∧ last ≠ '.' ∧ (dotted (a :: rest)).head? = some first
      ∧ (dotted (a :: rest)).getLast? = some last := by
  -- The first digit is the first number's, the last one is found behind the last dot.
  induction rest generalizing a with
  | nil =>
    obtain ⟨hne, hdigits⟩ := decimal_digits a
    have hone : dotted [a] = decimal a := List.intercalate_singleton
    rw [hone]
    exact ⟨_, _, hdigits _ (List.head_mem hne), hdigits _ (List.getLast_mem hne),
      List.head?_eq_some_head hne, List.getLast?_eq_some_getLast hne⟩
  | cons b rest ih =>
    obtain ⟨hne, hdigits⟩ := decimal_digits a
    obtain ⟨-, last, -, hlast, -, hget⟩ := ih b
    have hmore : dotted (a :: b :: rest) = decimal a ++ '.' :: dotted (b :: rest) := by
      unfold dotted
      rw [List.map_cons, List.map_cons, List.intercalate_cons_cons, List.append_assoc]
      rfl
    have hrest : dotted (b :: rest) ≠ [] := fun h => by
      rw [h] at hget
      exact absurd hget (Option.some_ne_none _).symm
    rw [hmore]
    refine ⟨_, last, hdigits _ (List.head_mem hne), hlast, ?_, ?_⟩
    · rw [List.head?_append, List.head?_eq_some_head hne]
      rfl
    · rw [List.getLast?_append, List.getLast?_cons, hget]
      rfl

/-- **The numbers of dotted text are the arcs it was made of.** -/
theorem oid_numbers_dotted (a : ℕ) (rest : List ℕ) :
    oid_numbers (dotted (a :: rest)) = .ok (a :: rest) := by
  obtain ⟨first, last, hfirst, hlast, hhead, hget⟩ := dotted_ends a rest
  -- The text has digits at both ends, so stripping the dots leaves it as it is.
  have hne : dotted (a :: rest) ≠ [] := fun h => by
    rw [h] at hhead
    exact absurd hhead (Option.some_ne_none _).symm
  have hleft : (dotted (a :: rest)).dropWhile (· = '.') = dotted (a :: rest) := by
    cases htext : dotted (a :: rest) with
    | nil => rfl
    | cons c text =>
      rw [htext, List.head?_cons, Option.some.injEq] at hhead
      rw [List.dropWhile_cons_of_neg]
      rw [hhead]
      exact fun h => hfirst (of_decide_eq_true h)
  have hright : (dotted (a :: rest)).rdropWhile (· = '.') = dotted (a :: rest) := by
    rw [List.rdropWhile_eq_self_iff]
    intro hl
    rw [List.getLast?_eq_some_getLast hl, Option.some.injEq] at hget
    rw [hget]
    exact fun h => hlast (of_decide_eq_true h)
  -- Between the dots stand the numbers, and none of them holds a dot.
  have hsplit : (dotted (a :: rest)).splitOn '.' = (a :: rest).map decimal := by
    refine List.splitOn_intercalate '.' (fun l hl hdot => ?_) (List.cons_ne_nil _ _)
    obtain ⟨n, -, rfl⟩ := List.mem_map.1 hl
    exact (decimal_digits n).2 '.' hdot rfl
  have hparse : ∀ lst : List ℕ, (lst.map decimal).mapM decimal_int = .ok lst := by
    intro lst
    induction lst with
    | nil => rfl
    | cons n lst ih =>
      rw [List.map_cons, List.mapM_cons, decimal_int_decimal, ih]
      rfl
  unfold oid_numbers
  rw [if_neg hne, hleft, hright, hsplit, hparse]

/-- Octets that say more follow leave their number under way. -/
theorem oid_loop_more {ll : ℕ} (size : ℕ) (hll : ll < 2 ^ 231) (s : Bytes) (lst : List ℕ) :
    oid_loop (num_octets ll size true ++ s) lst 0 = oid_loop s lst ll := by
  obtain ⟨more, hmore⟩ : ∃ more, more = true := ⟨_, rfl⟩
  rw [← hmore]
  fun_induction num_octets ll size more generalizing s with
  | case1 ll size more h => rw [h.1, List.nil_append]
  | case2 ll size more h ih =>
    obtain ⟨hmark, hlow⟩ := marked_octet (Nat.mod_lt ll (by decide))
    -- the octets in front hold what is above these seven bits
    rw [List.append_assoc, ih (by omega) _ rfl, if_pos hmore, List.singleton_append, oid_loop]
    rw [if_neg hmark, hlow, if_neg, Nat.div_add_mod']
    rw [not_not, Nat.shiftRight_eq_div_pow, Nat.div_add_mod']
    exact Nat.div_eq_of_lt hll

/-- **A base-128 number is read back**, with as much room as the decoder gives one. -/
theorem oid_loop_num {k : ℕ} (hk : k < 2 ^ 238) (s : Bytes) (lst : List ℕ) :
    oid_loop (BER_num_enc k ++ s) lst 0 = oid_loop s (lst ++ [k]) 0 := by
  obtain ⟨hlast, hlow, -⟩ := plain_octet (Nat.mod_lt k (by decide))
  unfold BER_num_enc
  rw [num_octets, if_neg (by omega), List.append_assoc, oid_loop_more _ (by omega), if_neg (by decide),
    List.singleton_append, oid_loop]
  rw [if_pos hlast, hlow, Nat.div_add_mod']

theorem oid_loop_nums {lst : List ℕ} (hlst : ∀ k ∈ lst, k < 2 ^ 238) (done : List ℕ) :
    oid_loop (lst.flatMap BER_num_enc) done 0 = .ok (done ++ lst) := by
  induction lst generalizing done with
  | nil => rw [List.flatMap_nil, List.append_nil]; rfl
  | cons k lst ih =>
    rw [List.flatMap_cons, oid_loop_num (hlst k List.mem_cons_self),
      ih fun x hx => hlst x (List.mem_cons_of_mem k hx), List.append_assoc]
    rfl

/-- A base-128 number ends in an octet that says so. -/
theorem num_ends (k : ℕ) : ∃ c, (BER_num_enc k).getLast? = some c ∧ c &&& 0x80 = 0 := by
  refine ⟨UInt8.ofNat (k % 128), ?_, (plain_octet (Nat.mod_lt k (by decide))).1⟩
  unfold BER_num_enc
  rw [num_octets, if_neg (by omega), if_neg (by decide), List.getLast?_concat]

theorem nums_end (lst : List ℕ) : ∀ c, (lst.flatMap BER_num_enc).getLast? = some c → c &&& 0x80 = 0 := by
  obtain rfl | ⟨ks, k, rfl⟩ := List.eq_nil_or_concat' lst
  · exact fun c h => absurd h (Option.some_ne_none c).symm
  · intro c h
    obtain ⟨last, hlast, hzero⟩ := num_ends k
    rw [List.flatMap_append, List.flatMap_singleton, List.getLast?_append, hlast] at h
    rw [← Option.some.inj h]
    exact hzero

/-- Arcs an OBJECT IDENTIFIER can have. -/
structure Arcs where
  x : ℕ
  y : ℕ
  rest : List ℕ
  x_le : x ≤ 2
  y_lt : x ≠ 2 → y < 40
  small : ∀ a ∈ y :: rest, a < 2 ^ 231

/-- The dotted text of its arcs, as an object holds it. -/
def Arcs.text (a : Arcs) : List Char := dotted (a.x :: a.y :: a.rest)

/-- **An OBJECT IDENTIFIER is read back**, the first two arcs out of one number. -/
theorem oid_object_octets (a : Arcs) : ∃ s, oid_octets a.text = .ok s ∧ oid_object s = .ok a.text := by
  have hfirst : a.y + 40 * a.x < 2 ^ 238 := by
    have hy := a.small a.y List.mem_cons_self
    have hx := a.x_le
    omega
  have hsmall : ∀ k ∈ (a.y + 40 * a.x) :: a.rest, k < 2 ^ 238 := by
    intro k hk
    rcases List.mem_cons.1 hk with rfl | hk
    · exact hfirst
    · have hrest := a.small k (List.mem_cons_of_mem _ hk)
      omega
  refine ⟨((a.y + 40 * a.x) :: a.rest).flatMap BER_num_enc, ?_, ?_⟩
  · unfold oid_octets Arcs.text
    rw [oid_numbers_dotted]
    rfl
  · have hend : ((((a.y + 40 * a.x) :: a.rest).flatMap BER_num_enc).getLast?.any
        fun c => c &&& 0x80 ≠ 0) = false := by
      cases hlast : (((a.y + 40 * a.x) :: a.rest).flatMap BER_num_enc).getLast? with
      | none => rfl
      | some c => exact decide_eq_false (not_not.2 (nums_end _ c hlast))
    -- the second arc is 40 or more only under a first arc of 2, and then the number is at least 80
    have harcs : arcs ((a.y + 40 * a.x) :: a.rest) = a.x :: a.y :: a.rest := by
      have hx := a.x_le
      have hy := a.y_lt
      show (if 80 ≤ a.y + 40 * a.x then _ else _) ++ a.rest = _
      by_cases hfar : 80 ≤ a.y + 40 * a.x
      · have hxtwo : a.x = 2 := by
          by_contra hother
          have hlt := hy hother
          omega
        rw [if_pos hfar, hxtwo, Nat.add_sub_cancel]
        rfl
      · have hdiv : (a.y + 40 * a.x) / 40 = a.x := by omega
        have hmod : (a.y + 40 * a.x) % 40 = a.y := by omega
        rw [if_neg hfar, hdiv, hmod]
        rfl
    unfold oid_object oid_contents subidentifiers
    rw [oid_loop_nums hsmall, List.nil_append]
    dsimp only
    rw [hend, if_neg Bool.false_ne_true, Except.map, harcs]
    rfl

end Wiry.Ber
