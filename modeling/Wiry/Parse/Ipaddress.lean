/-
Addresses as text the way Python's library takes and writes them: `ipaddress.IPv4Address` and
`IPv6Address` without a scope, and `socket.inet_pton` on an IPv6 address.

The library refuses what `parse.rs` lets through: signs, zeros in front of an octet's digits, and an
IPv4 address that is not the final 32 bits.
-/
import Wiry.Parse.Grammar

set_option autoImplicit false

namespace Wiry.Ipaddress

open Packet (Bytes octets_of)
open Parse
open Repeat (groups16 render_ipv6)

/-- A zero in front of another digit. -/
def padded (part : List Char) : Bool := 1 < part.length ∧ part.head? = some '0'

/-- Four decimal numbers 0..255, without zeros in front. -/
def dotted_quad (s : List Char) : Option Bytes :=
  if '+' ∈ s ∨ (s.splitOn '.').any padded = true then none else ipv4 s

/-- RFC 4291 §2.2 text. -/
def hextets (s : List Char) : Option Bytes :=
  let last := (s.splitOn ':').getLastD []
  if '+' ∈ s ∨ (split_once s).any (fun p => '.' ∈ p.1) = true ∨
      '.' ∈ last ∧ dotted_quad last = none then none
  else ipv6 s

/-- `str` of an IPv4 address. -/
def quad_text (b : Bytes) : List Char := ['.'].intercalate (b.map fun x => Nat.toDigits 10 x.toNat)

/-! ## What is accepted -/

theorem dotted_quad_some {s : List Char} {b : Bytes} (h : dotted_quad s = some b) : ipv4 s = some b := by
  unfold dotted_quad at h
  split at h
  · cases h
  · exact h

/-- The same for IPv6. -/
theorem hextets_some {s : List Char} {b : Bytes} (h : hextets s = some b) : ipv6 s = some b := by
  unfold hextets at h
  dsimp only at h
  split at h
  · cases h
  · exact h

/-- An IPv4 address is four octets. -/
theorem length_ipv4 {s : List Char} {b : Bytes} (h : ipv4 s = some b) : b.length = 4 := by
  unfold ipv4 at h
  obtain ⟨out, -, hout⟩ := Option.bind_eq_some_iff.1 h
  split at hout
  · rename_i hlen
    rw [← Option.some.inj hout]
    exact hlen
  · cases hout

/-- An address is sixteen octets. -/
theorem length_address {head tail : List ℕ} (h : head.length + tail.length ≤ 8) :
    (address head tail).length = 16 := by
  have hoctets : ∀ gs : List ℕ, (gs.flatMap (octets_of 2)).length = 2 * gs.length := by
    intro gs
    induction gs with
    | nil => rfl
    | cons g gs ih =>
      rw [List.flatMap_cons, List.length_append, ih, Packet.length_octets_of, List.length_cons]
      omega
  unfold address
  rw [hoctets]
  simp
  omega

/-- Whatever is accepted is sixteen octets. -/
theorem length_ipv6 {s : List Char} {b : Bytes} (h : ipv6 s = some b) : b.length = 16 := by
  unfold ipv6 at h
  split at h
  · rw [← Option.some.inj h]
    rfl
  · cases hsplit : split_once s with
    | none =>
      simp only [hsplit] at h
      obtain ⟨gs, -, hgs⟩ := Option.bind_eq_some_iff.1 h
      split at hgs
      · cases hgs
      · rename_i hlen
        rw [← Option.some.inj hgs]
        exact length_address (by simp; omega)
    | some p =>
      obtain ⟨head_s, tail_s⟩ := p
      simp only [hsplit] at h
      obtain ⟨head, -, hb⟩ := Option.bind_eq_some_iff.1 h
      obtain ⟨tail, -, hb⟩ := Option.bind_eq_some_iff.1 hb
      split at hb
      · cases hb
      · rw [← Option.some.inj hb]
        exact length_address (by omega)

/-- An IPv4 address has no colon. -/
theorem dotted_quad_no_colon {s : List Char} {b : Bytes} (h : dotted_quad s = some b) : ':' ∉ s :=
  Ipv4Text.no_colon ((ipv4_isSome s).1 (by rw [dotted_quad_some h]; rfl))

theorem colon_mem_of_groups {loose quad : Bool} {n : ℕ} {s : List Char} (h : Groups loose quad n s)
    (hn : 3 ≤ n) : ':' ∈ s := by
  cases h with
  | group hp => omega
  | quad hq hp => omega
  | more hp hs => simp

/-- An IPv6 address has one. -/
theorem hextets_colon {s : List Char} {b : Bytes} (h : hextets s = some b) : ':' ∈ s := by
  have htext := (ipv6_isSome s).1 (by rw [hextets_some h]; rfl)
  cases htext with
  | whole hs => exact colon_mem_of_groups hs (by decide)
  | elided => simp

/-! ## What is written is read back -/

/-- The digits of an octet. -/
theorem octet_digits (x : UInt8) :
    let t := Nat.toDigits 10 x.toNat
    (t ≠ [] ∧ text_len t ≤ 3 ∧ from_str_radix 255 10 t = some x.toNat ∧ padded t = false) ∧
      t.all hex_digit = true := by
  have hall : ∀ n < 256, let t := Nat.toDigits 10 n
      (t ≠ [] ∧ text_len t ≤ 3 ∧ from_str_radix 255 10 t = some n ∧ padded t = false) ∧
        t.all hex_digit = true := by
    decide +kernel
  exact hall x.toNat x.toNat_lt

/-- A character of joined pieces is the separator or in a piece. -/
theorem mem_intercalate {α : Type} {sep c : α} {ls : List (List α)} (h : c ∈ [sep].intercalate ls) :
    c = sep ∨ ∃ l ∈ ls, c ∈ l := by
  induction ls with
  | nil => simp at h
  | cons l ls ih =>
    cases ls with
    | nil =>
      right
      simpa using h
    | cons m ls =>
      simp only [List.intercalate_cons_cons, List.mem_append, List.mem_singleton] at h
      rcases h with (hc | hc) | hc
      · exact .inr ⟨l, List.mem_cons_self, hc⟩
      · exact .inl hc
      · rcases ih hc with hc | ⟨k, hk, hc⟩
        · exact .inl hc
        · exact .inr ⟨k, List.mem_cons_of_mem l hk, hc⟩

/-- And every character of a piece is there. -/
theorem mem_intercalate_of_mem {α : Type} {sep c : α} {ls : List (List α)} {l : List α} (hl : l ∈ ls)
    (hc : c ∈ l) : c ∈ [sep].intercalate ls := by
  induction ls with
  | nil => cases hl
  | cons m ls ih =>
    cases ls with
    | nil =>
      rw [List.mem_singleton.1 hl] at hc
      simpa using hc
    | cons k ls =>
      rw [List.intercalate_cons_cons, List.mem_append, List.mem_append]
      rcases List.mem_cons.1 hl with rfl | hl
      · exact .inl (.inl hc)
      · exact .inr (ih hl)

/-- What dotted text is made of. -/
theorem mem_quad_text {b : Bytes} {c : Char} (h : c ∈ quad_text b) : c = '.' ∨ hex_digit c = true := by
  rcases mem_intercalate h with rfl | ⟨l, hl, hc⟩
  · exact .inl rfl
  · obtain ⟨x, -, rfl⟩ := List.mem_map.1 hl
    exact .inr (List.all_eq_true.1 (octet_digits x).2 c hc)

/-- A dotted quad that was written is read back. -/
theorem dotted_quad_text {b : Bytes} (hb : b.length = 4) : dotted_quad (quad_text b) = some b := by
  have hne : b ≠ [] := by
    rintro rfl
    cases hb
  have hsplit : (quad_text b).splitOn '.' = b.map fun x => Nat.toDigits 10 x.toNat := by
    apply List.splitOn_intercalate
    · intro l hl hdot
      obtain ⟨x, -, rfl⟩ := List.mem_map.1 hl
      have hdigit := List.all_eq_true.1 (octet_digits x).2 '.' hdot
      exact (hex_digit_plain hdigit).2.1 rfl
    · simpa using hne
  have hplus : '+' ∉ quad_text b := fun h => by
    rcases mem_quad_text h with heq | hdigit
    · cases heq
    · exact (hex_digit_plain hdigit).2.2.2.1 rfl
  -- no octet is written with a zero in front
  have hpadded : ((quad_text b).splitOn '.').any padded = false := by
    rw [hsplit, List.any_map]
    rw [List.any_eq_false]
    intro x _
    simp [(octet_digits x).1.2.2.2]
  have hparts : ∀ b : Bytes, (b.map fun x => Nat.toDigits 10 x.toNat).mapM (fun part =>
      if part = [] ∨ text_len part > 3 then none
      else (from_str_radix 255 10 part).map UInt8.ofNat) = some b := by
    intro b
    induction b with
    | nil => rfl
    | cons x b ih =>
      obtain ⟨⟨hdigits, hlen, hvalue, -⟩, -⟩ := octet_digits x
      rw [List.map_cons, List.mapM_cons, ih, if_neg (by simp [hdigits]; omega), hvalue]
      simp
  unfold dotted_quad ipv4
  rw [if_neg (by simp [hplus, hpadded])]
  dsimp only
  rw [hsplit, hparts]
  simp [hb]

theorem hex_digit_of_digits16 {c : Char} (h : c ∈ digits16) : hex_digit c = true := by
  have hall : ['0', '1', '2', '3', '4', '5', '6', '7', '8', '9', 'a', 'b', 'c', 'd', 'e', 'f'].all
      hex_digit = true := by decide
  rw [digits16_eq] at h
  exact List.all_eq_true.1 hall c h

theorem mem_join {c : Char} {gs : List ℕ} (h : c ∈ join gs) : c = ':' ∨ hex_digit c = true := by
  rcases mem_intercalate h with rfl | ⟨l, hl, hc⟩
  · exact .inl rfl
  · obtain ⟨g, -, rfl⟩ := List.mem_map.1 hl
    exact .inr (hex_digit_of_digits16 ((spelled_hex g).digits c hc))

/-- What `render_ipv6` writes is made of digits and colons. -/
theorem mem_render_ipv6 {b : Bytes} {c : Char} (h : c ∈ render_ipv6 b) :
    c = ':' ∨ hex_digit c = true := by
  rcases render_ipv6_cases b with ⟨-, hrender⟩ | ⟨i, k, -, -, -, -, hrender⟩
  · rw [hrender] at h
    exact mem_join h
  · rw [hrender, List.mem_append, List.mem_append] at h
    rcases h with (h | h) | h
    · exact mem_join h
    · left
      simpa using h
    · exact mem_join h

/-- Text of digits and colons is taken as `parse.rs` takes it. -/
theorem hextets_eq_ipv6 {s : List Char} (h : ∀ c ∈ s, c = ':' ∨ hex_digit c = true) :
    hextets s = ipv6 s := by
  -- With colons and digits only, none of the three leniencies applies.
  have hplus : '+' ∉ s := fun hmem => by
    rcases h _ hmem with heq | hdigit
    · cases heq
    · exact (hex_digit_plain hdigit).2.2.2.1 rfl
  have hdot : '.' ∉ s := fun hmem => by
    rcases h _ hmem with heq | hdigit
    · cases heq
    · exact (hex_digit_plain hdigit).2.1 rfl
  have hfront : (split_once s).any (fun p => '.' ∈ p.1) = false := by
    cases hsplit : split_once s with
    | none => rfl
    | some p =>
      have hmem : '.' ∉ p.1 := fun h => hdot (by rw [split_once_some hsplit]; simp [h])
      simp [hmem]
  have hlast : '.' ∉ (s.splitOn ':').getLastD [] := by
    intro hmem
    rw [List.getLastD_eq_getLast?, List.getLast?_eq_some_getLast (List.splitOn_ne_nil _ _)] at hmem
    have hin := @mem_intercalate_of_mem Char ':' _ _ _
      (List.getLast_mem (List.splitOn_ne_nil _ _)) hmem
    rw [List.intercalate_splitOn] at hin
    exact hdot hin
  unfold hextets
  dsimp only
  rw [if_neg]
  rintro (hmem | hmem | hmem)
  · exact hplus hmem
  · rw [hfront] at hmem
    cases hmem
  · exact hlast hmem.1

theorem hextets_render_ipv6 {b : Bytes} (hb : b.length = 16) : hextets (render_ipv6 b) = some b := by
  rw [hextets_eq_ipv6 fun c hc => mem_render_ipv6 hc]
  exact ipv6_render_ipv6 hb

end Wiry.Ipaddress
