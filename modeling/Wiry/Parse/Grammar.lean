/-
What the address parsers of `crates/wiry-core/src/parse.rs` accept, beside the grammar of addresses as
text: dotted IPv4 addresses, MAC addresses, and RFC 4291 §2.2.

Each rule of the grammar is given twice over: strictly, and with what the library's number parsers let
through.
-/
import Wiry.Parse.Ipv6

set_option autoImplicit false

namespace Wiry.Parse

open Packet (Bytes)
open Repeat (groups16)

/-- `mac`: six parts of two octets each. -/
def mac (s : List Char) : Option Bytes :=
  let parts := (s.splitOnP fun c => c = ':' ∨ c = '-').mapM fun part =>
    if text_len part ≠ 2 then none else (from_str_radix 255 16 part).map UInt8.ofNat
  parts.bind fun out => if out.length = 6 then some out else none

/-! ## The grammar -/

def decimal_digit (c : Char) : Bool := '0' ≤ c ∧ c ≤ '9'

def hex_digit (c : Char) : Bool := decimal_digit c ∨ 'a' ≤ c ∧ c ≤ 'f' ∨ 'A' ≤ c ∧ c ≤ 'F'

/-- The number decimal digits spell. -/
def decimal_value (ds : List Char) : ℕ := ds.foldl (fun v c => v * 10 + (c.toNat - 48)) 0

/-- Digits that say `P`; where it is `loose`, a sign may stand in front. -/
def Digits (loose : Bool) (digit : Char → Bool) (P : List Char → Prop) (p : List Char) : Prop :=
  ∃ ds, ds ≠ [] ∧ (∀ c ∈ ds, digit c = true) ∧ P ds ∧ (p = ds ∨ loose = true ∧ p = '+' :: ds)

/-- A decimal number 0..255 of one to three digits. -/
def Octet (loose : Bool) (p : List Char) : Prop :=
  p.length ≤ 3 ∧ Digits loose decimal_digit (fun ds => decimal_value ds ≤ 255) p

/-- Two hex digits. -/
def Pair (loose : Bool) (p : List Char) : Prop :=
  p.length = 2 ∧ Digits loose hex_digit (fun _ => True) p

/-- One to four hex digits. -/
def Group (loose : Bool) (p : List Char) : Prop :=
  p.length ≤ 4 ∧ Digits loose hex_digit (fun _ => True) p

/-- A count of parts, a separator between two of them. -/
inductive Parts (P : List Char → Prop) (sep : Char → Bool) : ℕ → List Char → Prop
  | one {p : List Char} (hp : P p) : Parts P sep 1 p
  | more {n : ℕ} {p s : List Char} {c : Char} (hp : P p) (hc : sep c = true)
      (hs : Parts P sep n s) : Parts P sep (n + 1) (p ++ c :: s)

def Ipv4Text (loose : Bool) : List Char → Prop := Parts (Octet loose) (fun c => c = '.') 4

def MacText (loose : Bool) : List Char → Prop :=
  Parts (Pair loose) (fun c => c = ':' ∨ c = '-') 6

/-- Groups between colons; where a `quad` may stand, the last two may be an IPv4 address. -/
inductive Groups (loose quad : Bool) : ℕ → List Char → Prop
  | group {p : List Char} (hp : Group loose p) : Groups loose quad 1 p
  | quad {p : List Char} (hq : quad = true) (hp : Ipv4Text loose p) : Groups loose quad 2 p
  | more {n : ℕ} {p s : List Char} (hp : Group loose p) (hs : Groups loose quad n s) :
      Groups loose quad (n + 1) (p ++ ':' :: s)

/-- Groups, or none at all, on one side of two colons. -/
def Side (loose quad : Bool) (n : ℕ) (t : List Char) : Prop := t = [] ∧ n = 0 ∨ Groups loose quad n t

/-- Eight groups, or fewer with two colons for one or more of them. An IPv4 address is the final 32
bits; where it is `loose`, it may also stand in front of the two colons. -/
inductive Ipv6Text (loose : Bool) : List Char → Prop
  | whole {s : List Char} (hs : Groups loose true 8 s) : Ipv6Text loose s
  | elided {n m : ℕ} {head tail : List Char} (hhead : Side loose loose n head)
      (htail : Side loose true m tail) (hlen : n + m ≤ 7) : Ipv6Text loose (head ++ ':' :: ':' :: tail)

/-! ## Numbers -/

/-- The number digits spell after `v`. -/
def value (radix v : ℕ) (ds : List Char) : ℕ :=
  ds.foldl (fun v c => v * radix + (to_digit radix c).getD 0) v

theorem le_value {radix : ℕ} (hradix : 0 < radix) (v : ℕ) (ds : List Char) : v ≤ value radix v ds := by
  induction ds generalizing v with
  | nil => exact le_rfl
  | cons c ds ih =>
    have hmul : v ≤ v * radix := Nat.le_mul_of_pos_right v hradix
    exact (hmul.trans (Nat.le_add_right _ _)).trans (ih _)

/-- What has failed stays failed. -/
theorem foldl_push_digit_none (max radix : ℕ) (ds : List Char) :
    ds.foldl (push_digit max radix) none = none := by
  induction ds with
  | nil => rfl
  | cons c ds ih => exact ih

/-- The number parsers take digits of a number that is not too large. -/
theorem foldl_push_digit_isSome {max radix : ℕ} (hradix : 0 < radix) (v : ℕ) (ds : List Char)
    (hv : v ≤ max) : (ds.foldl (push_digit max radix) (some v)).isSome = true ↔
      (∀ c ∈ ds, (to_digit radix c).isSome = true) ∧ value radix v ds ≤ max := by
  induction ds generalizing v with
  | nil => simp [value, hv]
  | cons c ds ih =>
    rw [List.foldl_cons]
    cases hc : to_digit radix c with
    | none => simp [push_digit, hc, foldl_push_digit_none]
    | some d =>
      have hvalue : value radix v (c :: ds) = value radix (v * radix + d) ds := by simp [value, hc]
      have hle := le_value hradix (v * radix + d) ds
      -- the value only grows: one that is too large stays so
      by_cases hfits : v * radix + d ≤ max
      · rw [hvalue]
        simp [push_digit, hc, hfits, ih _ hfits]
      · rw [hvalue]
        simp [push_digit, hc, hfits, foldl_push_digit_none]
        omega

/-! ## Digits -/

/-- The digit a character is, by its code point. -/
theorem to_digit_eq (radix : ℕ) (c : Char) : to_digit radix c =
    (if 48 ≤ c.toNat ∧ c.toNat ≤ 57 then some (c.toNat - 48)
      else if 97 ≤ c.toNat ∧ c.toNat ≤ 102 then some (c.toNat - 87)
      else if 65 ≤ c.toNat ∧ c.toNat ≤ 70 then some (c.toNat - 55)
      else none).filter fun d => d < radix := rfl

theorem decimal_digit_iff (c : Char) : decimal_digit c = true ↔ 48 ≤ c.toNat ∧ c.toNat ≤ 57 := by
  unfold decimal_digit
  rw [decide_eq_true_eq]
  exact Iff.rfl

theorem hex_digit_iff (c : Char) : hex_digit c = true ↔ 48 ≤ c.toNat ∧ c.toNat ≤ 57 ∨
    97 ≤ c.toNat ∧ c.toNat ≤ 102 ∨ 65 ≤ c.toNat ∧ c.toNat ≤ 70 := by
  unfold hex_digit
  rw [decide_eq_true_eq, decimal_digit_iff]
  exact Iff.rfl

theorem decimal_digit_isSome (c : Char) : decimal_digit c = (to_digit 10 c).isSome := by
  rw [Bool.eq_iff_iff, decimal_digit_iff, to_digit_eq]
  split
  · simp
    omega
  · split
    · simp
      omega
    · split <;> simp <;> omega

theorem hex_digit_isSome (c : Char) : hex_digit c = (to_digit 16 c).isSome := by
  rw [Bool.eq_iff_iff, hex_digit_iff, to_digit_eq]
  split
  · simp
    omega
  · split
    · simp
      omega
    · split <;> simp <;> omega

/-- The value of decimal digits, one after the other. -/
theorem value_decimal {ds : List Char} (hds : ∀ c ∈ ds, decimal_digit c = true) (v : ℕ) :
    value 10 v ds = ds.foldl (fun v c => v * 10 + (c.toNat - 48)) v := by
  induction ds generalizing v with
  | nil => rfl
  | cons c ds ih =>
    obtain ⟨hc, hds⟩ := List.forall_mem_cons.1 hds
    rw [decimal_digit_iff] at hc
    have hdigit : to_digit 10 c = some (c.toNat - 48) := by
      rw [to_digit_eq, if_pos hc]
      simp
      omega
    have hstep : value 10 v (c :: ds) = value 10 (v * 10 + (c.toNat - 48)) ds := by simp [value, hdigit]
    rw [hstep, ih hds]
    rfl

/-- A digit is one octet, and no character that stands between parts. -/
theorem hex_digit_plain {c : Char} (h : hex_digit c = true) :
    c ≠ ':' ∧ c ≠ '.' ∧ c ≠ '-' ∧ c ≠ '+' ∧ c.utf8Size = 1 := by
  rw [hex_digit_iff] at h
  refine ⟨?_, ?_, ?_, ?_, ?_⟩
  · rintro rfl
    revert h
    decide
  · rintro rfl
    revert h
    decide
  · rintro rfl
    revert h
    decide
  · rintro rfl
    revert h
    decide
  · have hsmall : c.val ≤ 0x7F := by
      rw [UInt32.le_iff_toNat_le]
      show c.toNat ≤ 127
      omega
    simp [Char.utf8Size, hsmall]

theorem hex_of_decimal {c : Char} (h : decimal_digit c = true) : hex_digit c = true :=
  (hex_digit_iff c).2 (.inl ((decimal_digit_iff c).1 h))

/-- Digits carry no sign. -/
theorem skip_plus_of_digits {ds : List Char} (h : ∀ c ∈ ds, hex_digit c = true) : skip_plus ds = ds := by
  unfold skip_plus
  split
  · rename_i rest
    exact absurd rfl (hex_digit_plain (h '+' List.mem_cons_self)).2.2.2.1
  · rfl

/-- With a sign let through, what counts is what stands behind it. -/
theorem digits_loose_iff {digit : Char → Bool} (hdigit : ∀ c, digit c = true → hex_digit c = true)
    (P : List Char → Prop) (p : List Char) : Digits true digit P p ↔
      skip_plus p ≠ [] ∧ (∀ c ∈ skip_plus p, digit c = true) ∧ P (skip_plus p) := by
  constructor
  · rintro ⟨ds, hne, hds, hP, rfl | ⟨-, rfl⟩⟩
    · rw [skip_plus_of_digits fun c hc => hdigit c (hds c hc)]
      exact ⟨hne, hds, hP⟩
    · exact ⟨hne, hds, hP⟩
  · rintro ⟨hne, hds, hP⟩
    refine ⟨skip_plus p, hne, hds, hP, ?_⟩
    unfold skip_plus
    split
    · exact .inr ⟨rfl, rfl⟩
    · exact .inl rfl

theorem from_str_radix_isSome {max radix : ℕ} (hradix : 0 < radix) (p : List Char) :
    (from_str_radix max radix p).isSome = true ↔ skip_plus p ≠ [] ∧
      (∀ c ∈ skip_plus p, (to_digit radix c).isSome = true) ∧ value radix 0 (skip_plus p) ≤ max := by
  unfold from_str_radix
  split
  · rename_i hempty
    simp [hempty]
  · rename_i hne
    rw [foldl_push_digit_isSome hradix 0 _ (Nat.zero_le max)]
    exact (and_iff_right hne).symm

/-- Digits, and a sign in front of them, are one octet each. -/
theorem text_len_of_digits {p : List Char} (h : ∀ c ∈ skip_plus p, hex_digit c = true) :
    text_len p = p.length := by
  have hsizes : ∀ c ∈ p, c.utf8Size = 1 := by
    intro c hc
    unfold skip_plus at h
    split at h
    · rcases List.mem_cons.1 hc with rfl | hc
      · rfl
      · exact (hex_digit_plain (h c hc)).2.2.2.2
    · exact (hex_digit_plain (h c hc)).2.2.2.2
  unfold text_len
  rw [List.map_congr_left hsizes]
  simp

/-! ## Parts -/

/-- An octet of a dotted quad, as the parser guards it. -/
theorem octet_iff (p : List Char) : (if p = [] ∨ text_len p > 3 then none
    else (from_str_radix 255 10 p).map UInt8.ofNat).isSome = true ↔ Octet true p := by
  unfold Octet
  rw [digits_loose_iff fun _ => hex_of_decimal]
  have hnil : skip_plus p ≠ [] → p ≠ [] := by
    rintro hne rfl
    exact hne rfl
  constructor
  · intro h
    split at h
    · cases h
    · rename_i hlen
      rw [Option.isSome_map, from_str_radix_isSome (by decide)] at h
      obtain ⟨hne, hds, hvalue⟩ := h
      have hdec : ∀ c ∈ skip_plus p, decimal_digit c = true := fun c hc => by
        rw [decimal_digit_isSome, hds c hc]
      rw [value_decimal hdec] at hvalue
      -- the parser counts octets, and a digit is one
      rw [text_len_of_digits fun c hc => hex_of_decimal (hdec c hc)] at hlen
      exact ⟨by omega, hne, hdec, hvalue⟩
  · rintro ⟨hlen, hne, hdec, hvalue⟩
    have hlen' := text_len_of_digits fun c hc => hex_of_decimal (hdec c hc)
    rw [if_neg (by simp [hnil hne, hlen', hlen]), Option.isSome_map, from_str_radix_isSome (by decide),
      value_decimal hdec]
    exact ⟨hne, fun c hc => by rw [← decimal_digit_isSome, hdec c hc], hvalue⟩

/-- Hex digits that fit the number read from them, by their count. -/
theorem value_hex_lt {ds : List Char} (hds : ∀ c ∈ ds, hex_digit c = true) (v : ℕ) :
    value 16 v ds < (v + 1) * 16 ^ ds.length := by
  induction ds generalizing v with
  | nil => simp [value]
  | cons c ds ih =>
    obtain ⟨hc, hds⟩ := List.forall_mem_cons.1 hds
    rw [hex_digit_isSome] at hc
    obtain ⟨d, hd⟩ := Option.isSome_iff_exists.1 hc
    have hlow : d < 16 := by
      unfold to_digit at hd
      exact of_decide_eq_true (Option.filter_eq_some_iff.1 hd).2
    have hstep : value 16 v (c :: ds) = value 16 (v * 16 + d) ds := by simp [value, hd]
    have hnext := ih hds (v * 16 + d)
    have hmul : (v * 16 + d + 1) * 16 ^ ds.length ≤ (v + 1) * 16 * 16 ^ ds.length :=
      Nat.mul_le_mul_right _ (by omega)
    rw [hstep, List.length_cons, Nat.pow_succ', ← Nat.mul_assoc]
    exact hnext.trans_le hmul

theorem hex_digits_of_isSome {max : ℕ} {p : List Char} (h : (from_str_radix max 16 p).isSome = true) :
    Digits true hex_digit (fun _ => True) p := by
  rw [from_str_radix_isSome (by decide)] at h
  rw [digits_loose_iff fun _ h => h]
  obtain ⟨hne, hds, -⟩ := h
  exact ⟨hne, fun c hc => by rw [hex_digit_isSome, hds c hc], trivial⟩

/-- Hexadecimal digits of the right width are always in range. -/
theorem isSome_of_hex_digits {max width : ℕ} (hmax : 16 ^ width ≤ max + 1) {p : List Char}
    (hlen : p.length ≤ width) (h : Digits true hex_digit (fun _ => True) p) :
    (from_str_radix max 16 p).isSome = true := by
  rw [digits_loose_iff fun _ h => h] at h
  rw [from_str_radix_isSome (by decide)]
  obtain ⟨hne, hds, -⟩ := h
  refine ⟨hne, fun c hc => by rw [← hex_digit_isSome, hds c hc], ?_⟩
  have hskip : (skip_plus p).length ≤ p.length := by
    unfold skip_plus
    split <;> simp
  have hlt := value_hex_lt hds 0
  have hpow : 16 ^ (skip_plus p).length ≤ 16 ^ width := Nat.pow_le_pow_right (by decide) (by omega)
  omega

theorem Digits.text_len_eq {p : List Char} (h : Digits true hex_digit (fun _ => True) p) :
    text_len p = p.length := by
  rw [digits_loose_iff fun _ h => h] at h
  exact text_len_of_digits h.2.1

/-- A pair of a MAC address, as the parser guards it. -/
theorem pair_iff (p : List Char) : (if text_len p ≠ 2 then none
    else (from_str_radix 255 16 p).map UInt8.ofNat).isSome = true ↔ Pair true p := by
  constructor
  · intro h
    split at h
    · cases h
    · rename_i hlen
      rw [Option.isSome_map] at h
      have hdigits := hex_digits_of_isSome h
      rw [hdigits.text_len_eq, not_not] at hlen
      exact ⟨hlen, hdigits⟩
  · rintro ⟨hlen, hdigits⟩
    rw [hdigits.text_len_eq, if_neg (by simp [hlen]), Option.isSome_map]
    exact isSome_of_hex_digits (by decide) hlen.le hdigits

/-- A group of an IPv6 address, as the parser guards it. -/
theorem group_iff (p : List Char) : (if p = [] ∨ text_len p > 4 then none
    else (from_str_radix 65535 16 p).map fun v => [v]).isSome = true ↔ Group true p := by
  constructor
  · intro h
    split at h
    · cases h
    · rename_i hlen
      rw [Option.isSome_map] at h
      have hdigits := hex_digits_of_isSome h
      rw [hdigits.text_len_eq] at hlen
      exact ⟨by omega, hdigits⟩
  · rintro ⟨hlen, hdigits⟩
    have hne : p ≠ [] := by
      rintro rfl
      obtain ⟨ds, hds, -, -, h | ⟨-, h⟩⟩ := hdigits
      · exact hds h.symm
      · cases h
    rw [hdigits.text_len_eq, if_neg (by simp [hne, hlen]), Option.isSome_map]
    exact isSome_of_hex_digits (by decide) hlen hdigits

/-- Parts of a number hold no separator. -/
theorem Digits.plain {loose : Bool} {digit : Char → Bool} {P : List Char → Prop} {p : List Char}
    (hdigit : ∀ c, digit c = true → hex_digit c = true) (h : Digits loose digit P p) :
    ∀ c ∈ p, c ≠ ':' ∧ c ≠ '.' ∧ c ≠ '-' := by
  obtain ⟨ds, -, hds, -, rfl | ⟨-, rfl⟩⟩ := h
  · intro c hc
    obtain ⟨h1, h2, h3, -⟩ := hex_digit_plain (hdigit c (hds c hc))
    exact ⟨h1, h2, h3⟩
  · intro c hc
    rcases List.mem_cons.1 hc with rfl | hc
    · decide
    · obtain ⟨h1, h2, h3, -⟩ := hex_digit_plain (hdigit c (hds c hc))
      exact ⟨h1, h2, h3⟩

/-- A text has no separator, or a first one. -/
theorem split_cases (sep : Char → Bool) (s : List Char) : (∀ c ∈ s, sep c = false) ∨
    ∃ p c rest, s = p ++ c :: rest ∧ sep c = true ∧ ∀ c ∈ p, sep c = false := by
  induction s with
  | nil => exact .inl nofun
  | cons d s ih =>
    cases hd : sep d with
    | true => exact .inr ⟨[], d, s, rfl, hd, nofun⟩
    | false =>
      rcases ih with hnone | ⟨p, c, rest, rfl, hc, hp⟩
      · exact .inl (List.forall_mem_cons.2 ⟨hd, hnone⟩)
      · exact .inr ⟨d :: p, c, rest, rfl, hc, List.forall_mem_cons.2 ⟨hd, hp⟩⟩

/-- Parts are what a text is split into. -/
theorem parts_iff {P : List Char → Prop} {sep : Char → Bool} (hP : ∀ p, P p → ∀ c ∈ p, sep c = false)
    {n : ℕ} {s : List Char} : Parts P sep n s ↔
      (s.splitOnP sep).length = n ∧ ∀ p ∈ s.splitOnP sep, P p := by
  constructor
  · intro h
    induction h with
    | @one p hp =>
      rw [List.splitOnP_eq_singleton (hP p hp)]
      simpa using hp
    | @more n p s c hp hc hs ih =>
      rw [List.splitOnP_append_cons_of_forall_mem (hP p hp) c hc]
      simpa [ih.1] using ⟨hp, ih.2⟩
  · rintro ⟨rfl, hall⟩
    -- by the length of the text: its first part, and what follows the separator
    induction hlen : s.length using Nat.strongRecOn generalizing s with
    | ind k ih =>
      rcases split_cases sep s with hnone | ⟨p, c, rest, rfl, hc, hp⟩
      · rw [List.splitOnP_eq_singleton hnone] at hall ⊢
        exact .one (hall s List.mem_cons_self)
      · rw [List.splitOnP_append_cons_of_forall_mem hp c hc] at hall ⊢
        obtain ⟨hfirst, hall⟩ := List.forall_mem_cons.1 hall
        simp only [List.length_append, List.length_cons] at hlen
        exact .more hfirst hc (ih rest.length (by omega) hall rfl)

theorem length_of_mapM {α β : Type} {f : α → Option β} {l : List α} {out : List β}
    (h : l.mapM f = some out) : out.length = l.length := by
  induction l generalizing out with
  | nil =>
    simp at h
    simp [h]
  | cons a l ih =>
    simp only [List.mapM_cons, Option.bind_eq_bind, Option.bind_eq_some_iff] at h
    obtain ⟨b, -, bs, hbs, heq⟩ := h
    rw [← Option.some.inj heq, List.length_cons, List.length_cons, ih hbs]

theorem mapM_isSome {α β : Type} (f : α → Option β) (l : List α) :
    (l.mapM f).isSome = true ↔ ∀ a ∈ l, (f a).isSome = true := by
  induction l with
  | nil => simp
  | cons a l ih =>
    rw [List.forall_mem_cons, ← ih, List.mapM_cons]
    cases f a <;> cases l.mapM f <;> simp

/-- A parser that takes `n` parts accepts where each part is accepted. -/
theorem parts_isSome {f : List Char → Option UInt8} (l : List (List Char)) (n : ℕ) :
    ((l.mapM f).bind fun out => if out.length = n then some out else none).isSome = true ↔
      l.length = n ∧ ∀ p ∈ l, (f p).isSome = true := by
  rw [← mapM_isSome]
  cases hout : l.mapM f with
  | none => simp
  | some out => simp [length_of_mapM hout]

/-- **`ipv4` accepts four octets**, each with a sign or without. -/
theorem ipv4_isSome (s : List Char) : (ipv4 s).isSome = true ↔ Ipv4Text true s := by
  have hplain : ∀ p, Octet true p → ∀ c ∈ p, decide (c = '.') = false := by
    intro p hp c hc
    exact decide_eq_false (hp.2.plain (fun _ => hex_of_decimal) c hc).2.1
  unfold ipv4 Ipv4Text
  dsimp only
  rw [parts_isSome, parts_iff hplain]
  have hsplit : s.splitOn '.' = s.splitOnP fun c => decide (c = '.') := rfl
  rw [hsplit]
  simp only [octet_iff]

theorem mac_isSome (s : List Char) : (mac s).isSome = true ↔ MacText true s := by
  have hplain : ∀ p, Pair true p → ∀ c ∈ p, decide (c = ':' ∨ c = '-') = false := by
    intro p hp c hc
    obtain ⟨hcolon, -, hdash⟩ := hp.2.plain (fun _ h => h) c hc
    simp [hcolon, hdash]
  unfold mac MacText
  dsimp only
  rw [parts_isSome, parts_iff hplain]
  simp only [pair_iff]

/-! ## Groups -/

theorem Group.plain {loose : Bool} {p : List Char} (h : Group loose p) :
    ∀ c ∈ p, c ≠ ':' ∧ c ≠ '.' ∧ c ≠ '-' := h.2.plain fun _ h => h

theorem Octet.plain {loose : Bool} {p : List Char} (h : Octet loose p) :
    ∀ c ∈ p, c ≠ ':' ∧ c ≠ '.' ∧ c ≠ '-' := h.2.plain fun _ => hex_of_decimal

/-- A dotted quad has a dot. -/
theorem Ipv4Text.dot_mem {loose : Bool} {p : List Char} (h : Ipv4Text loose p) : '.' ∈ p := by
  cases h with
  | more hp hc hs =>
    rw [of_decide_eq_true hc]
    simp

/-- A dotted quad has no colon. -/
theorem Ipv4Text.no_colon {loose : Bool} {n : ℕ} {p : List Char}
    (h : Parts (Octet loose) (fun c => c = '.') n p) : ':' ∉ p := by
  induction h with
  | one hp => exact fun hc => (hp.plain ':' hc).1 rfl
  | more hp hc hs ih =>
    have hdot := of_decide_eq_true hc
    subst hdot
    intro hmem
    rcases List.mem_append.1 hmem with hmem | hmem
    · exact (hp.plain ':' hmem).1 rfl
    · rcases List.mem_cons.1 hmem with heq | hmem
      · cases heq
      · exact ih hmem

theorem length_groups16_ipv4 {p : List Char} {b : Bytes} (h : ipv4 p = some b) :
    (groups16 b).length = 2 := by
  unfold ipv4 at h
  obtain ⟨out, -, hout⟩ := Option.bind_eq_some_iff.1 h
  split at hout
  · rename_i hlen
    obtain rfl := Option.some.inj hout
    have hhalf := (groups16_octets (b := out) (by omega)).1
    omega
  · cases hout

/-- A piece in front is one group. -/
theorem length_chunk_front {p : List Char} {gs : List ℕ} (h : chunk_groups false p = some gs) :
    gs.length = 1 := by
  unfold chunk_groups at h
  rw [if_neg (by simp)] at h
  split at h
  · cases h
  · obtain ⟨v, -, rfl⟩ := Option.map_eq_some_iff.1 h
    rfl

/-- A chunk in front of another one is a group. -/
theorem chunk_groups_front (p : List Char) :
    (∃ gs, chunk_groups false p = some gs ∧ gs.length = 1) ↔ Group true p := by
  rw [← group_iff]
  unfold chunk_groups
  rw [if_neg (by simp)]
  split
  · simp
  · cases from_str_radix 65535 16 p <;> simp

/-- The last chunk is a group or an IPv4 address. -/
theorem chunk_groups_last (p : List Char) (n : ℕ) :
    (∃ gs, chunk_groups true p = some gs ∧ gs.length = n) ↔
      n = 1 ∧ Group true p ∨ n = 2 ∧ Ipv4Text true p := by
  by_cases hdot : '.' ∈ p
  · -- a dot decides, since a group has none and an IPv4 address has three
    have hgroup : ¬Group true p := fun h => (h.plain '.' hdot).2.1 rfl
    have hchunk : chunk_groups true p = (ipv4 p).map groups16 := if_pos ⟨rfl, hdot⟩
    rw [hchunk, ← ipv4_isSome]
    cases hp : ipv4 p with
    | none => simp [hgroup]
    | some b => simp [hgroup, length_groups16_ipv4 hp, eq_comm]
  · have hquad : ¬Ipv4Text true p := fun h => hdot h.dot_mem
    have hchunk : chunk_groups true p = chunk_groups false p := by
      simp [chunk_groups, hdot]
    rw [hchunk]
    constructor
    · rintro ⟨gs, hgs, rfl⟩
      have hone := length_chunk_front hgs
      exact .inl ⟨hone, (chunk_groups_front p).1 ⟨gs, hgs, hone⟩⟩
    · rintro (⟨rfl, hp⟩ | ⟨-, hp⟩)
      · exact (chunk_groups_front p).2 hp
      · exact absurd hp hquad

/-- Pieces in front of others. -/
theorem chunks_groups_cons (p : List Char) {cs : List (List Char)} (hcs : cs ≠ []) :
    chunks_groups (p :: cs) =
      (chunk_groups false p).bind fun v => (chunks_groups cs).map fun vs => v ++ vs := by
  cases cs with
  | nil => exact absurd rfl hcs
  | cons c cs => rfl

/-- **`groups` takes what the grammar lets stand on one side of two colons.** -/
theorem chunks_groups_iff (s : List Char) (n : ℕ) :
    (∃ gs, chunks_groups (s.splitOn ':') = some gs ∧ gs.length = n) ↔ Groups true true n s := by
  constructor
  · intro h
    induction hlen : s.length using Nat.strongRecOn generalizing s n with
    | ind k ih =>
      rcases split_cases (fun c => c == ':') s with hnone | ⟨p, c, rest, rfl, hc, hp⟩
      · have hsplit : s.splitOn ':' = [s] := List.splitOnP_eq_singleton hnone
        rw [hsplit] at h
        rcases (chunk_groups_last s n).1 h with ⟨rfl, hs⟩ | ⟨rfl, hs⟩
        · exact .group hs
        · exact .quad rfl hs
      · have hsplit : (p ++ c :: rest).splitOn ':' = p :: rest.splitOn ':' :=
          List.splitOnP_append_cons_of_forall_mem hp c hc rest
        obtain rfl := eq_of_beq hc
        -- in front of another chunk no IPv4 address is taken
        rw [hsplit, chunks_groups_cons p (List.splitOn_ne_nil ':' rest)] at h
        obtain ⟨gs, hgs, rfl⟩ := h
        obtain ⟨v, hv, hgs⟩ := Option.bind_eq_some_iff.1 hgs
        obtain ⟨vs, hvs, rfl⟩ := Option.map_eq_some_iff.1 hgs
        have hone := length_chunk_front hv
        simp only [List.length_append, List.length_cons] at hlen
        have hrest := ih rest.length (by omega) rest vs.length ⟨vs, hvs, rfl⟩ rfl
        rw [List.length_append, hone, Nat.add_comm]
        exact .more ((chunk_groups_front p).1 ⟨v, hv, hone⟩) hrest
  · intro h
    induction h with
    | @group p hp =>
      have hsplit : p.splitOn ':' = [p] := List.splitOn_eq_singleton fun h => (hp.plain ':' h).1 rfl
      rw [hsplit]
      exact (chunk_groups_last p 1).2 (.inl ⟨rfl, hp⟩)
    | @quad p _ hp =>
      have hsplit : p.splitOn ':' = [p] := List.splitOn_eq_singleton (Ipv4Text.no_colon hp)
      rw [hsplit]
      exact (chunk_groups_last p 2).2 (.inr ⟨rfl, hp⟩)
    | @more n p s hp hs ih =>
      obtain ⟨gs, hgs, rfl⟩ := ih
      obtain ⟨v, hv, hone⟩ := (chunk_groups_front p).2 hp
      rw [List.splitOn_append_cons_self_of_not_mem fun h => (hp.plain ':' h).1 rfl,
        chunks_groups_cons p (List.splitOn_ne_nil ':' s)]
      exact ⟨v ++ gs, by simp [hv, hgs], by simp [hone, Nat.add_comm]⟩

/-- One side of an address, as the parser takes it. -/
theorem groups_iff (t : List Char) (n : ℕ) :
    (∃ gs, groups t = some gs ∧ gs.length = n) ↔ Side true true n t := by
  unfold groups Side
  split
  · rename_i hempty
    have hnone : ¬Groups true true n t := by
      rw [hempty, ← chunks_groups_iff]
      simp [chunks_groups, chunk_groups]
    rw [hempty] at hnone ⊢
    simp [hnone, eq_comm]
  · rename_i hne
    rw [chunks_groups_iff]
    simp [hne]

/-! ## Two colons -/

/-- The address is split at its first double colon. -/
theorem split_once_some {s head tail : List Char} (h : split_once s = some (head, tail)) :
    s = head ++ ':' :: ':' :: tail := by
  induction s using split_once.induct generalizing head with
  | case1 rest =>
    rw [split_once] at h
    cases h
    rfl
  | case2 c rest hfree ih =>
    rw [split_once] at h
    · obtain ⟨⟨head', tail'⟩, hrest, heq⟩ := Option.map_eq_some_iff.1 h
      cases heq
      rw [ih hrest]
      rfl
    · exact hfree
  | case3 => cases h

/-- A group is not empty. -/
theorem Group.ne_nil {loose : Bool} {p : List Char} (h : Group loose p) : p ≠ [] := by
  rintro rfl
  obtain ⟨-, ds, hds, -, -, h | ⟨-, h⟩⟩ := h
  · exact hds h.symm
  · cases h

/-- Groups start with something else than a colon, and have no two colons. -/
theorem Groups.head_ne {loose quad : Bool} {n : ℕ} {s : List Char} (h : Groups loose quad n s) :
    ∃ c rest, s = c :: rest ∧ c ≠ ':' := by
  cases h with
  | group hp =>
    obtain ⟨c, rest, rfl⟩ := List.exists_cons_of_ne_nil hp.ne_nil
    exact ⟨c, rest, rfl, (hp.plain c List.mem_cons_self).1⟩
  | quad _ hp =>
    have hne : s ≠ [] := List.ne_nil_of_mem hp.dot_mem
    obtain ⟨c, rest, rfl⟩ := List.exists_cons_of_ne_nil hne
    exact ⟨c, rest, rfl, fun h => Ipv4Text.no_colon hp (by simp [h])⟩
  | @more _ p s hp hs =>
    obtain ⟨c, rest, rfl⟩ := List.exists_cons_of_ne_nil hp.ne_nil
    exact ⟨c, rest ++ ':' :: s, rfl, (hp.plain c List.mem_cons_self).1⟩

/-- The first two colons are the ones behind the groups. -/
theorem Groups.split_once_append {loose quad : Bool} {n : ℕ} {s : List Char}
    (h : Groups loose quad n s) (tail : List Char) :
    split_once (s ++ ':' :: ':' :: tail) = some (s, tail) ∧ split_once s = none := by
  induction h with
  | @group p hp =>
    have hfree : ∀ c ∈ p, c ≠ ':' := fun c hc => (hp.plain c hc).1
    have halone := Parse.split_once_append hfree []
    rw [Parse.split_once_append hfree]
    simpa [split_once] using halone
  | @quad p _ hp =>
    have hfree : ∀ c ∈ p, c ≠ ':' := fun c hc h => Ipv4Text.no_colon hp (h ▸ hc)
    have halone := Parse.split_once_append hfree []
    rw [Parse.split_once_append hfree]
    simpa [split_once] using halone
  | @more n p s hp hs ih =>
    have hfree : ∀ c ∈ p, c ≠ ':' := fun c hc => (hp.plain c hc).1
    obtain ⟨c, rest, hhead, hc⟩ := hs.head_ne
    -- what follows the colon between two groups is no colon
    have hnext : ∀ t : List Char, split_once (':' :: (s ++ t)) =
        (split_once (s ++ t)).map fun q => (':' :: q.1, q.2) := by
      intro t
      apply split_once_cons
      right
      intro rest' heq
      rw [hhead] at heq
      exact hc (List.cons.inj heq).1
    have hbare := hnext []
    rw [List.append_nil] at hbare
    rw [List.append_assoc, Parse.split_once_append hfree, Parse.split_once_append hfree,
      List.cons_append, hnext, hbare, ih.1, ih.2]
    simp

/-- A side in front of two colons is found as that. -/
theorem Side.split_once_append {loose quad : Bool} {n : ℕ} {head : List Char}
    (h : Side loose quad n head) (tail : List Char) :
    split_once (head ++ ':' :: ':' :: tail) = some (head, tail) := by
  rcases h with ⟨rfl, -⟩ | h
  · rfl
  · exact (h.split_once_append tail).1

/-- **`ipv6` accepts the looser grammar.** -/
theorem ipv6_isSome (s : List Char) : (ipv6 s).isSome = true ↔ Ipv6Text true s := by
  unfold ipv6
  split
  · rename_i hall
    have htext : Ipv6Text true s := by
      rw [hall]
      exact @Ipv6Text.elided true 0 0 [] [] (.inl ⟨rfl, rfl⟩) (.inl ⟨rfl, rfl⟩)
        (by decide)
    simp [htext]
  · constructor
    · intro h
      cases hsplit : split_once s with
      | none =>
        simp only [hsplit] at h
        obtain ⟨b, hb⟩ := Option.isSome_iff_exists.1 h
        obtain ⟨gs, hgs, hlen⟩ := Option.bind_eq_some_iff.1 hb
        split at hlen
        · cases hlen
        · rename_i height
          -- no two colons: all eight groups are there
          rcases (groups_iff s 8).1 ⟨gs, hgs, not_not.1 height⟩ with ⟨-, hzero⟩ | hs
          · cases hzero
          · exact .whole hs
      | some p =>
        obtain ⟨head_s, tail_s⟩ := p
        simp only [hsplit] at h
        obtain ⟨b, hb⟩ := Option.isSome_iff_exists.1 h
        obtain ⟨head, hhead, hb⟩ := Option.bind_eq_some_iff.1 hb
        obtain ⟨tail, htail, hb⟩ := Option.bind_eq_some_iff.1 hb
        split at hb
        · cases hb
        · rename_i hlen
          -- two colons stand for one group at least
          rw [split_once_some hsplit]
          exact .elided ((groups_iff head_s _).1 ⟨head, hhead, rfl⟩)
            ((groups_iff tail_s _).1 ⟨tail, htail, rfl⟩) (by omega)
    · intro h
      cases h with
      | whole hs =>
        obtain ⟨gs, hgs, hlen⟩ := (groups_iff s 8).2 (.inr hs)
        rw [(hs.split_once_append []).2]
        simp [hgs, hlen]
      | @elided n m head tail hhead htail hlen =>
        obtain ⟨hs, hhs, rfl⟩ := (groups_iff head n).2 hhead
        obtain ⟨ts, hts, rfl⟩ := (groups_iff tail m).2 htail
        rw [hhead.split_once_append tail]
        simp [hhs, hts]
        omega

/-! ## The grammar with and without signs -/

theorem Digits.strict_iff {digit : Char → Bool} (hdigit : ∀ c, digit c = true → hex_digit c = true)
    {P : List Char → Prop} {p : List Char} :
    Digits false digit P p ↔ Digits true digit P p ∧ '+' ∉ p := by
  constructor
  · rintro ⟨ds, hne, hds, hP, rfl | ⟨h, -⟩⟩
    · exact ⟨⟨_, hne, hds, hP, .inl rfl⟩, fun h => (hex_digit_plain (hdigit _ (hds _ h))).2.2.2.1 rfl⟩
    · cases h
  · rintro ⟨⟨ds, hne, hds, hP, rfl | ⟨-, rfl⟩⟩, hplus⟩
    · exact ⟨_, hne, hds, hP, .inl rfl⟩
    · exact absurd List.mem_cons_self hplus

theorem Octet.strict_iff {p : List Char} : Octet false p ↔ Octet true p ∧ '+' ∉ p := by
  unfold Octet
  rw [Digits.strict_iff fun _ => hex_of_decimal, and_assoc]

theorem Pair.strict_iff {p : List Char} : Pair false p ↔ Pair true p ∧ '+' ∉ p := by
  unfold Pair
  rw [Digits.strict_iff fun _ h => h, and_assoc]

theorem Group.strict_iff {p : List Char} : Group false p ↔ Group true p ∧ '+' ∉ p := by
  unfold Group
  rw [Digits.strict_iff fun _ h => h, and_assoc]

/-- So are parts, piece by piece. -/
theorem Parts.strict_iff {P Q : List Char → Prop} {sep : Char → Bool} (hsep : sep '+' = false)
    (hPQ : ∀ p, P p ↔ Q p ∧ '+' ∉ p) {n : ℕ} {s : List Char} :
    Parts P sep n s ↔ Parts Q sep n s ∧ '+' ∉ s := by
  constructor
  · intro h
    induction h with
    | one hp => exact ⟨.one ((hPQ _).1 hp).1, ((hPQ _).1 hp).2⟩
    | more hp hc hs ih =>
      obtain ⟨hq, hplus⟩ := (hPQ _).1 hp
      refine ⟨.more hq hc ih.1, ?_⟩
      simp only [List.mem_append, List.mem_cons, not_or]
      refine ⟨hplus, ?_, ih.2⟩
      rintro rfl
      rw [hc] at hsep
      cases hsep
  · rintro ⟨h, hplus⟩
    induction h with
    | one hp => exact .one ((hPQ _).2 ⟨hp, hplus⟩)
    | more hp hc hs ih =>
      simp only [List.mem_append, List.mem_cons, not_or] at hplus
      exact .more ((hPQ _).2 ⟨hp, hplus.1⟩) hc (ih hplus.2.2)

theorem Ipv4Text.strict_iff {s : List Char} : Ipv4Text false s ↔ Ipv4Text true s ∧ '+' ∉ s :=
  Parts.strict_iff (by decide) fun _ => Octet.strict_iff

theorem MacText.strict_iff {s : List Char} : MacText false s ↔ MacText true s ∧ '+' ∉ s :=
  Parts.strict_iff (by decide) fun _ => Pair.strict_iff

/-- So are groups. -/
theorem Groups.strict_iff {quad : Bool} {n : ℕ} {s : List Char} :
    Groups false quad n s ↔ Groups true quad n s ∧ '+' ∉ s := by
  constructor
  · intro h
    induction h with
    | group hp => exact ⟨.group (Group.strict_iff.1 hp).1, (Group.strict_iff.1 hp).2⟩
    | quad hq hp => exact ⟨.quad hq (Ipv4Text.strict_iff.1 hp).1, (Ipv4Text.strict_iff.1 hp).2⟩
    | more hp hs ih =>
      obtain ⟨hg, hplus⟩ := Group.strict_iff.1 hp
      exact ⟨.more hg ih.1, by simp [hplus, ih.2]⟩
  · rintro ⟨h, hplus⟩
    induction h with
    | group hp => exact .group (Group.strict_iff.2 ⟨hp, hplus⟩)
    | quad hq hp => exact .quad hq (Ipv4Text.strict_iff.2 ⟨hp, hplus⟩)
    | more hp hs ih =>
      simp only [List.mem_append, List.mem_cons, not_or] at hplus
      exact .more (Group.strict_iff.2 ⟨hp, hplus.1⟩) (ih hplus.2.2)

/-- Without an IPv4 address there is no dot. -/
theorem Groups.quad_iff {loose : Bool} {n : ℕ} {s : List Char} :
    Groups loose false n s ↔ Groups loose true n s ∧ '.' ∉ s := by
  constructor
  · intro h
    induction h with
    | group hp => exact ⟨.group hp, fun h => (hp.plain '.' h).2.1 rfl⟩
    | quad hq hp => cases hq
    | more hp hs ih =>
      have hdot : '.' ∉ _ := fun h => (hp.plain '.' h).2.1 rfl
      exact ⟨.more hp ih.1, by simp [hdot, ih.2]⟩
  · rintro ⟨h, hdot⟩
    induction h with
    | group hp => exact .group hp
    | quad hq hp => exact absurd hp.dot_mem hdot
    | more hp hs ih =>
      simp only [List.mem_append, List.mem_cons, not_or] at hdot
      exact .more hp (ih hdot.2.2)

/-- So is a side. -/
theorem Side.strict_iff {quad : Bool} {n : ℕ} {t : List Char} :
    Side false quad n t ↔ Side true quad n t ∧ '+' ∉ t := by
  unfold Side
  rw [Groups.strict_iff]
  constructor
  · rintro (⟨rfl, rfl⟩ | ⟨h, hplus⟩)
    · simp
    · exact ⟨.inr h, hplus⟩
  · rintro ⟨h | h, hplus⟩
    · exact .inl h
    · exact .inr ⟨h, hplus⟩

theorem Side.quad_iff {loose : Bool} {n : ℕ} {t : List Char} :
    Side loose false n t ↔ Side loose true n t ∧ '.' ∉ t := by
  unfold Side
  rw [Groups.quad_iff]
  constructor
  · rintro (⟨rfl, rfl⟩ | ⟨h, hdot⟩)
    · simp
    · exact ⟨.inr h, hdot⟩
  · rintro ⟨h | h, hdot⟩
    · exact .inl h
    · exact .inr ⟨h, hdot⟩

/-- A dot in front of the first two colons. -/
def DotInFront (s : List Char) : Prop := ∃ head tail, split_once s = some (head, tail) ∧ '.' ∈ head

/-- An address is strict when it has no sign and no dotted quad in front of the double colon: the
two points on which the parser is more lenient than the grammar. -/
theorem Ipv6Text.strict_iff {s : List Char} :
    Ipv6Text false s ↔ Ipv6Text true s ∧ '+' ∉ s ∧ ¬DotInFront s := by
  constructor
  · intro h
    cases h with
    | whole hs =>
      obtain ⟨hloose, hplus⟩ := Groups.strict_iff.1 hs
      refine ⟨.whole hloose, hplus, ?_⟩
      rintro ⟨head, tail, hsplit, -⟩
      rw [(hs.split_once_append []).2] at hsplit
      cases hsplit
    | elided hhead htail hlen =>
      -- the first two colons are these, so the dot would be in front of them
      have hsplit := hhead.split_once_append
      obtain ⟨hhead, hdot⟩ := Side.quad_iff.1 hhead
      obtain ⟨hhead, hplus⟩ := Side.strict_iff.1 hhead
      obtain ⟨htail, hplus'⟩ := Side.strict_iff.1 htail
      refine ⟨.elided hhead htail hlen, by simp [hplus, hplus'], ?_⟩
      rintro ⟨head', tail', hsplit', hmem⟩
      rw [hsplit] at hsplit'
      cases hsplit'
      exact hdot hmem
  · rintro ⟨h, hplus, hfront⟩
    cases h with
    | whole hs => exact .whole (Groups.strict_iff.2 ⟨hs, hplus⟩)
    | elided hhead htail hlen =>
      simp only [List.mem_append, List.mem_cons, not_or] at hplus
      refine .elided (Side.quad_iff.2 ⟨Side.strict_iff.2 ⟨hhead, hplus.1⟩, ?_⟩)
        (Side.strict_iff.2 ⟨htail, hplus.2.2.2⟩) hlen
      intro hdot
      exact hfront ⟨_, _, hhead.split_once_append _, hdot⟩

/-- **The parsers accept their grammar exactly**, but for what the looser grammar takes with a sign in
it, or with an IPv4 address in front of two colons. -/
theorem accepts_grammar_iff (s : List Char) :
    (((ipv4 s).isSome = true ↔ Ipv4Text false s) ∧ ((mac s).isSome = true ↔ MacText false s) ∧
        ((ipv6 s).isSome = true ↔ Ipv6Text false s)) ↔
      ('+' ∈ s → ¬Ipv4Text true s ∧ ¬MacText true s ∧ ¬Ipv6Text true s) ∧
        (DotInFront s → ¬Ipv6Text true s) := by
  rw [ipv4_isSome, mac_isSome, ipv6_isSome, Ipv4Text.strict_iff, MacText.strict_iff,
    Ipv6Text.strict_iff]
  tauto

/-- Signs in front of numbers, and an IPv4 address in front of two colons. -/
theorem accepts_more :
    (ipv4 "+1.2.3.4".toList = some [1, 2, 3, 4] ∧ ¬Ipv4Text false "+1.2.3.4".toList) ∧
      (mac "+1:2a:3b:4c:5d:6e".toList = some [1, 0x2A, 0x3B, 0x4C, 0x5D, 0x6E] ∧
        ¬MacText false "+1:2a:3b:4c:5d:6e".toList) ∧
      ipv6 "1.2.3.4::".toList = some [1, 2, 3, 4, 0, 0, 0, 0, 0, 0, 0, 0, 0, 0, 0, 0] ∧
        ¬Ipv6Text false "1.2.3.4::".toList := by
  refine ⟨⟨by decide, ?_⟩, ⟨by decide, ?_⟩, by decide, ?_⟩
  · rw [Ipv4Text.strict_iff]
    exact fun h => h.2 (by decide)
  · rw [MacText.strict_iff]
    exact fun h => h.2 (by decide)
  · rw [Ipv6Text.strict_iff]
    exact fun h => h.2.2 ⟨"1.2.3.4".toList, [], by decide, by decide⟩

example : (ipv6 "::ffff:192.0.2.1".toList).isSome = true ∧ ipv6 "1::2::3".toList = none ∧
    ipv4 " 1.2.3.4".toList = none := by decide

end Wiry.Parse
