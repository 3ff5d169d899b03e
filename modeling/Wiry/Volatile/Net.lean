/-
Address ranges: `Net` and `Net6` of `python/wiry/volatile.py`.

A range carries that its first address is not above its last one and that both fit the family; the
constructor is the only place that has to show it. Its exceptions are all the value `none`.
-/
import Mathlib.Data.Nat.Log
import Wiry.Ldap.Rfc2254
import Wiry.Parse.Ipaddress

set_option autoImplicit false

namespace Wiry.Volatile

open Ipaddress
open Ldap.Rfc2254 (strip isspace)
open Packet (octets_of)
open Parse (hex_digit hex_digit_iff)
open Repeat (render_ipv6)

inductive Family where
  | v4
  | v6
deriving DecidableEq

/-- `_bits`. -/
def Family.bits : Family → ℕ
  | .v4 => 32
  | .v6 => 128

/-! ## Python's library -/

/-- `str.partition`: what is in front of the separator, and what follows it if it is there. -/
def partition (sep : Char) (s : List Char) : List Char × Option (List Char) :=
  (s.takeWhile (· ≠ sep), if sep ∈ s then some (s.dropWhile (· ≠ sep)).tail else none)

/-- `int` of a text of ASCII digits. Python's also takes the decimal digits of other scripts, which no
prefix length is written in. -/
def py_int (s : List Char) : Option ℤ :=
  let (sign, digits) : ℤ × List Char :=
    match strip s with
    | '-' :: rest => (-1, rest)
    | '+' :: rest => (1, rest)
    | rest => (1, rest)
  let groups := digits.splitOn '_'
  if groups.any (fun g => g = [] ∨ !g.all Char.isDigit) then none
  else some (sign * Nat.ofDigitChars 10 groups.flatten 0)

/-- `ipaddress.IPv4Address` and `IPv6Address` of a text: the latter may name a scope. -/
def address_octets : Family → List Char → Option (List UInt8)
  | .v4, s => dotted_quad s
  | .v6, s =>
    let (addr, scope_id) := partition '%' s
    if '/' ∈ s ∨ scope_id.any (fun id => id = [] ∨ '%' ∈ id) = true then none else hextets addr

/-! ## Ranges -/

/-- `_addr_int`. -/
def addr_int (family : Family) (text : List Char) : Option ℕ :=
  (address_octets family (strip text)).map Endian.big

structure Net where
  family : Family
  lo : ℕ
  hi : ℕ
  scope : Option (List Char)
  ordered : lo ≤ hi
  fits : hi < 2 ^ family.bits

/-- `base & ~host`. -/
def clear (base host : ℕ) : ℕ := base - (base &&& host)

/-- `_parse_cidr`. -/
def parse_cidr (family : Family) (text : List Char) : Option (ℕ × ℕ) :=
  let (addr, plen) := partition '/' text
  (addr_int family addr).bind fun base =>
    match plen with
    | none => some (base, base)
    | some plen =>
      (py_int plen).bind fun bits =>
        if 0 ≤ bits ∧ bits ≤ family.bits then
          let host := (1 <<< (family.bits - bits.toNat)) - 1
          some (clear base host, clear base host ||| host)
        else none

theorem clear_eq (base k : ℕ) : clear base ((1 <<< k) - 1) = 2 ^ k * (base / 2 ^ k) := by
  unfold clear
  rw [Nat.one_shiftLeft, Nat.and_two_pow_sub_one_eq_mod]
  have hdiv := Nat.div_add_mod base (2 ^ k)
  omega

theorem clear_or_eq (base k : ℕ) :
    clear base ((1 <<< k) - 1) ||| ((1 <<< k) - 1) = 2 ^ k * (base / 2 ^ k) + (2 ^ k - 1) := by
  have hpos := Nat.two_pow_pos k
  -- the host's bits are clear in the base, so the union is a sum
  rw [clear_eq, Nat.one_shiftLeft, ← Nat.two_pow_add_eq_or_of_lt (by omega)]

/-- An address is a number of its family's width. -/
theorem addr_int_lt {family : Family} {text : List Char} {n : ℕ} (h : addr_int family text = some n) :
    n < 2 ^ family.bits := by
  obtain ⟨b, hb, rfl⟩ := Option.map_eq_some_iff.1 h
  have hlt := Endian.big_lt b
  cases family with
  | v4 =>
    rw [length_ipv4 (dotted_quad_some hb)] at hlt
    exact hlt
  | v6 =>
    simp only [address_octets] at hb
    split at hb
    · cases hb
    · rw [length_ipv6 (hextets_some hb)] at hlt
      exact hlt

/-- What a block's prefix makes of its base. -/
theorem parse_cidr_some {family : Family} {text : List Char} {lo hi : ℕ}
    (h : parse_cidr family text = some (lo, hi)) :
    ∃ base p, addr_int family (partition '/' text).1 = some base ∧ p ≤ family.bits ∧
      (match (partition '/' text).2 with
        | none => p = family.bits
        | some plen => py_int plen = some (p : ℤ)) ∧
      lo = 2 ^ (family.bits - p) * (base / 2 ^ (family.bits - p)) ∧
      hi = 2 ^ (family.bits - p) * (base / 2 ^ (family.bits - p)) + (2 ^ (family.bits - p) - 1) := by
  unfold parse_cidr at h
  dsimp only at h
  obtain ⟨base, hbase, h⟩ := Option.bind_eq_some_iff.1 h
  -- Without a prefix length the whole address counts; with one it must be in range.
  cases hplen : (partition '/' text).2 with
  | none =>
    simp only [hplen] at h
    cases h
    exact ⟨lo, family.bits, hbase, le_rfl, rfl, by simp, by simp⟩
  | some plen =>
    simp only [hplen] at h
    obtain ⟨bits, hbits, h⟩ := Option.bind_eq_some_iff.1 h
    split at h
    · rename_i hrange
      rw [clear_or_eq, clear_eq] at h
      obtain ⟨p, rfl⟩ := Int.eq_ofNat_of_zero_le hrange.1
      cases h
      exact ⟨base, p, hbase, by omega, hbits, rfl, rfl⟩
    · cases h

/-- The ends of a network are in order and in range. -/
theorem parse_cidr_bounds {family : Family} {text : List Char} {lo hi : ℕ}
    (h : parse_cidr family text = some (lo, hi)) : lo ≤ hi ∧ hi < 2 ^ family.bits := by
  obtain ⟨base, p, hbase, hp, -, rfl, rfl⟩ := parse_cidr_some h
  have hlt := addr_int_lt hbase
  have hpos := Nat.two_pow_pos (family.bits - p)
  refine ⟨Nat.le_add_right _ _, ?_⟩
  -- the last address of a block is below the first one of the next
  have hquot : base / 2 ^ (family.bits - p) < 2 ^ p := by
    rw [Nat.div_lt_iff_lt_mul hpos, ← Nat.pow_add]
    rwa [show p + (family.bits - p) = family.bits by omega]
  have hnext := Nat.mul_le_mul_left (2 ^ (family.bits - p)) hquot
  rw [Nat.mul_succ, ← Nat.pow_add, show family.bits - p + p = family.bits by omega] at hnext
  omega

/-- `Net.__init__`. -/
def Net.new (family : Family) (net : List Char) (stop scope : Option (List Char)) : Option Net :=
  match stop with
  | some stop =>
    match h1 : addr_int family net, h2 : addr_int family stop with
    | some a, some b =>
      some ⟨family, min a b, max a b, scope, min_le_max, max_lt (addr_int_lt h1) (addr_int_lt h2)⟩
    | _, _ => none
  | none =>
    let (text, inline) := partition '%' net
    let scope := if scope = none then inline else scope
    match h : parse_cidr family text with
    | some (lo, hi) => some ⟨family, lo, hi, scope, (parse_cidr_bounds h).1, (parse_cidr_bounds h).2⟩
    | none => none

/-- `_str`, as `ipaddress` writes an address up to Python 3.12: from 3.13 on an IPv4-mapped address is
written with a dotted quad. -/
def addr_str : Family → ℕ → List Char
  | .v4, n => quad_text (octets_of 4 n)
  | .v6, n => render_ipv6 (octets_of 16 n)

namespace Net

/-- `__iter__`. -/
def iter (n : Net) : List (List Char) :=
  (List.range' n.lo (n.hi + 1 - n.lo)).map (addr_str n.family)

/-- `__iterlen__`. -/
def iterlen (n : Net) : ℕ := n.hi - n.lo + 1

/-- `__getitem__`. -/
def getitem (n : Net) (i : ℤ) : Option (List Char) :=
  if -n.iterlen ≤ i ∧ i < n.iterlen then some (addr_str n.family (n.lo + (i % n.iterlen).toNat)) else none

/-- What stands left of `in`: a range, or the text of an address or of a range. -/
inductive Other where
  | net (m : Net)
  | text (s : List Char)

/-- `_as_net`. -/
def as_net (n : Net) : Other → Option Net
  | .net m => if m.family = n.family then some m else none
  | .text s => Net.new n.family s none none

/-- `__contains__`. -/
def contains (n : Net) (other : Other) : Bool :=
  match n.as_net other with
  | some net => n.lo ≤ net.lo ∧ net.hi ≤ n.hi
  | none => false

/-- `__eq__`. -/
def eq (n m : Net) : Bool := n.family = m.family ∧ n.lo = m.lo ∧ n.hi = m.hi

/-- The class's name. -/
def class_name : Family → List Char
  | .v4 => "Net".toList
  | .v6 => "Net6".toList

/-- `__repr__`: a block's prefix where the range is one. -/
def repr (n : Net) : List Char :=
  let span := n.iterlen
  let bits := Nat.log 2 span
  if span = 1 <<< bits ∧ n.lo &&& (span - 1) = 0 then
    class_name n.family ++ "(\"".toList ++ addr_str n.family n.lo ++ "/".toList ++
      Nat.toDigits 10 (n.family.bits - bits) ++ "\")".toList
  else
    class_name n.family ++ "(\"".toList ++ addr_str n.family n.lo ++ "\", \"".toList ++
      addr_str n.family n.hi ++ "\")".toList

/-- `eval` of a call of either class on string literals without escapes. -/
def eval (text : List Char) : Option Net :=
  match text.splitOn '"' with
  | [call, net, close] =>
    if close ≠ [')'] then none
    else if call = class_name .v4 ++ ['('] then Net.new .v4 net none none
    else if call = class_name .v6 ++ ['('] then Net.new .v6 net none none
    else none
  | [call, net, between, stop, close] =>
    if close ≠ [')'] ∨ between ≠ [',', ' '] then none
    else if call = class_name .v4 ++ ['('] then Net.new .v4 net (some stop) none
    else if call = class_name .v6 ++ ['('] then Net.new .v6 net (some stop) none
    else none
  | _ => none

end Net

/-! ## Text and number -/

theorem strip_eq_self {s : List Char} (h : ∀ c ∈ s, isspace c = false) : strip s = s := by
  have hleft : ∀ t : List Char, (∀ c ∈ t, isspace c = false) → Ldap.Rfc2254.lstrip t = t := by
    intro t ht
    unfold Ldap.Rfc2254.lstrip
    cases t with
    | nil => rfl
    | cons c t => rw [List.dropWhile_cons_of_neg (by simp [ht c List.mem_cons_self])]
  unfold strip
  rw [hleft s h, hleft s.reverse (by simpa using h), List.reverse_reverse]

theorem partition_of_not_mem {sep : Char} {s : List Char} (h : sep ∉ s) : partition sep s = (s, none) := by
  have hall : ∀ c ∈ s, decide (c ≠ sep) = true := by
    intro c hc
    exact decide_eq_true fun heq => h (heq ▸ hc)
  unfold partition
  have htake : (s ++ []).takeWhile (fun c => decide (c ≠ sep)) = s ++ [].takeWhile _ :=
    List.takeWhile_append_of_pos hall
  rw [List.append_nil, List.takeWhile_nil, List.append_nil] at htake
  rw [htake, if_neg h]

theorem partition_append {sep : Char} {s : List Char} (h : sep ∉ s) (rest : List Char) :
    partition sep (s ++ sep :: rest) = (s, some rest) := by
  have hall : ∀ c ∈ s, decide (c ≠ sep) = true := by
    intro c hc
    exact decide_eq_true fun heq => h (heq ▸ hc)
  unfold partition
  rw [List.takeWhile_append_of_pos hall, List.dropWhile_append_of_pos hall]
  simp

/-- What an address's text does not hold. -/
theorem addr_str_plain {family : Family} {n : ℕ} {c : Char} (h : c ∈ addr_str family n) :
    c ≠ '%' ∧ c ≠ '/' ∧ c ≠ '"' ∧ isspace c = false := by
  -- Dots, colons and digits are all an address is printed with.
  have hpieces : c = '.' ∨ c = ':' ∨ hex_digit c = true := by
    cases family with
    | v4 =>
      rcases mem_quad_text h with heq | hdigit
      · exact .inl heq
      · exact .inr (.inr hdigit)
    | v6 => exact .inr (mem_render_ipv6 h)
  rcases hpieces with rfl | rfl | hdigit
  · decide
  · decide
  · rw [hex_digit_iff] at hdigit
    refine ⟨?_, ?_, ?_, ?_⟩
    · rintro rfl
      revert hdigit
      decide
    · rintro rfl
      revert hdigit
      decide
    · rintro rfl
      revert hdigit
      decide
    · simp [isspace]
      omega

/-- **The text of an address is read as its number.** -/
theorem addr_int_addr_str {family : Family} {n : ℕ} (hn : n < 2 ^ family.bits) :
    addr_int family (addr_str family n) = some n := by
  have hspace : ∀ c ∈ addr_str family n, isspace c = false := fun c hc => (addr_str_plain hc).2.2.2
  unfold addr_int
  rw [strip_eq_self hspace]
  cases family with
  | v4 =>
    have hb : (octets_of 4 n).length = 4 := Packet.length_octets_of 4 n
    simp only [address_octets, addr_str, dotted_quad_text hb, Option.map_some, Packet.big_octets_of]
    exact congrArg some (Nat.mod_eq_of_lt hn)
  | v6 =>
    have hb : (octets_of 16 n).length = 16 := Packet.length_octets_of 16 n
    have hscope : '%' ∉ render_ipv6 (octets_of 16 n) := fun h =>
      (@addr_str_plain .v6 n _ h).1 rfl
    have hslash : '/' ∉ render_ipv6 (octets_of 16 n) := fun h =>
      (@addr_str_plain .v6 n _ h).2.1 rfl
    simp only [address_octets, addr_str, partition_of_not_mem hscope]
    rw [if_neg (by simp [hslash]), hextets_render_ipv6 hb, Option.map_some, Packet.big_octets_of]
    exact congrArg some (Nat.mod_eq_of_lt hn)

/-- The text of an address of the other family is refused. -/
theorem addr_int_other {family other : Family} (h : family ≠ other) (n : ℕ) :
    addr_int family (addr_str other n) = none := by
  have hspace : ∀ c ∈ addr_str other n, isspace c = false := fun c hc => (addr_str_plain hc).2.2.2
  unfold addr_int
  rw [strip_eq_self hspace, Option.map_eq_none_iff]
  cases family <;> cases other
  · exact absurd rfl h
  · -- an IPv6 address has a colon
    have hb := hextets_render_ipv6 (Packet.length_octets_of 16 n)
    rw [address_octets, Option.eq_none_iff_forall_ne_some]
    intro b hquad
    exact dotted_quad_no_colon hquad (hextets_colon hb)
  · -- and dotted text has none
    have hquad := dotted_quad_text (Packet.length_octets_of 4 n)
    have hscope : '%' ∉ quad_text (octets_of 4 n) := fun h =>
      (@addr_str_plain .v4 n _ h).1 rfl
    simp only [address_octets, addr_str, partition_of_not_mem hscope]
    rw [Option.eq_none_iff_forall_ne_some]
    intro b hb
    split at hb
    · cases hb
    · exact dotted_quad_no_colon hquad (hextets_colon hb)
  · exact absurd rfl h

/-- A prefix length as text. -/
theorem py_int_toDigits {p : ℕ} (hp : p ≤ 128) : py_int (Nat.toDigits 10 p) = some (p : ℤ) := by
  have hall : ∀ p < 129, py_int (Nat.toDigits 10 p) = some (p : ℤ) := by decide +kernel
  exact hall p (by omega)

theorem toDigits_plain {p : ℕ} (hp : p ≤ 128) {c : Char} (hc : c ∈ Nat.toDigits 10 p) :
    c ≠ '%' ∧ c ≠ '"' := by
  have hall : ∀ p < 129, (Nat.toDigits 10 p).all (fun c => c ≠ '%' ∧ c ≠ '"') = true := by
    decide +kernel
  exact of_decide_eq_true (List.all_eq_true.1 (hall p (by omega)) c hc)

theorem Family.bits_le (family : Family) : family.bits ≤ 128 := by cases family <;> decide

namespace Net

/-! ## What the constructor builds -/

/-- A range of two addresses, in either order. -/
theorem new_pair {family : Family} {net stop : List Char} {a b : ℕ} (ha : addr_int family net = some a)
    (hb : addr_int family stop = some b) (scope : Option (List Char)) :
    ∃ m, Net.new family net (some stop) scope = some m ∧ m.family = family ∧ m.lo = min a b ∧
      m.hi = max a b := by
  unfold Net.new
  dsimp only
  split
  · rename_i a' b' ha' hb'
    rw [ha] at ha'
    rw [hb] at hb'
    cases ha'
    cases hb'
    exact ⟨_, rfl, rfl, rfl, rfl⟩
  · rename_i hnone
    exact absurd hb (hnone a b ha)

/-- A range from a network in text. -/
theorem new_text {family : Family} {text : List Char} {lo hi : ℕ}
    (h : parse_cidr family (partition '%' text).1 = some (lo, hi)) (scope : Option (List Char)) :
    ∃ m, Net.new family text none scope = some m ∧ m.family = family ∧ m.lo = lo ∧ m.hi = hi := by
  unfold Net.new
  dsimp only
  split
  · rename_i lo' hi' h'
    rw [h] at h'
    cases h'
    exact ⟨_, rfl, rfl, rfl, rfl⟩
  · rename_i hnone
    rw [h] at hnone
    cases hnone

theorem new_text_some {family : Family} {text : List Char} {scope : Option (List Char)} {m : Net}
    (h : Net.new family text none scope = some m) :
    m.family = family ∧ parse_cidr family (partition '%' text).1 = some (m.lo, m.hi) := by
  unfold Net.new at h
  dsimp only at h
  split at h
  · rename_i lo hi hparse
    cases h
    exact ⟨rfl, hparse⟩
  · cases h

/-- One address. -/
theorem new_addr {family : Family} {x : ℕ} (hx : x < 2 ^ family.bits) :
    ∃ m, Net.new family (addr_str family x) none none = some m ∧ m.family = family ∧ m.lo = x ∧
      m.hi = x := by
  have hscope : '%' ∉ addr_str family x := fun h => (addr_str_plain h).1 rfl
  have hslash : '/' ∉ addr_str family x := fun h => (addr_str_plain h).2.1 rfl
  apply new_text
  rw [partition_of_not_mem hscope]
  unfold parse_cidr
  rw [partition_of_not_mem hslash]
  simp [addr_int_addr_str hx]

theorem new_addr_other {family other : Family} (h : family ≠ other) (x : ℕ) :
    Net.new family (addr_str other x) none none = none := by
  have hscope : '%' ∉ addr_str other x := fun h => (addr_str_plain h).1 rfl
  have hslash : '/' ∉ addr_str other x := fun h => (addr_str_plain h).2.1 rfl
  rw [Option.eq_none_iff_forall_ne_some]
  intro m hm
  obtain ⟨-, hparse⟩ := new_text_some hm
  rw [partition_of_not_mem hscope] at hparse
  unfold parse_cidr at hparse
  rw [partition_of_not_mem hslash] at hparse
  simp [addr_int_other h x] at hparse

/-- A block, by its first address and prefix. -/
theorem new_block {family : Family} {x p : ℕ} (hx : x < 2 ^ family.bits) (hp : p ≤ family.bits)
    (haligned : x % 2 ^ (family.bits - p) = 0) :
    ∃ m, Net.new family (addr_str family x ++ '/' :: Nat.toDigits 10 p) none none = some m ∧
      m.family = family ∧ m.lo = x ∧ m.hi = x + (2 ^ (family.bits - p) - 1) := by
  have hp128 : p ≤ 128 := hp.trans family.bits_le
  have hscope : '%' ∉ addr_str family x ++ '/' :: Nat.toDigits 10 p := by
    rw [List.mem_append, List.mem_cons]
    rintro (h | h | h)
    · exact (addr_str_plain h).1 rfl
    · cases h
    · exact (toDigits_plain hp128 h).1 rfl
  have hslash : '/' ∉ addr_str family x := fun h => (addr_str_plain h).2.1 rfl
  -- the base is aligned: clearing its host bits leaves it
  have hwhole : 2 ^ (family.bits - p) * (x / 2 ^ (family.bits - p)) = x := by
    have hdiv := Nat.div_add_mod x (2 ^ (family.bits - p))
    omega
  apply new_text
  rw [partition_of_not_mem hscope]
  unfold parse_cidr
  rw [partition_append hslash]
  simp only [addr_int_addr_str hx, py_int_toDigits hp128, Option.bind_some]
  rw [if_pos (by omega), Int.toNat_natCast, clear_or_eq, clear_eq, hwhole]

/-! ## Reading back -/

theorem call_plain (family : Family) : '"' ∉ class_name family ++ ['('] := by cases family <;> decide

/-- A call on one literal. -/
theorem eval_one (family : Family) {net : List Char} (hnet : '"' ∉ net) :
    eval (class_name family ++ ['('] ++ '"' :: (net ++ '"' :: [')'])) = Net.new family net none none := by
  have hother : class_name .v6 ++ ['('] ≠ class_name .v4 ++ ['('] := by decide
  unfold eval
  rw [List.splitOn_append_cons_self_of_not_mem (call_plain family),
    List.splitOn_append_cons_self_of_not_mem hnet, List.splitOn_eq_singleton (by decide)]
  cases family <;> simp [hother]

/-- A call on two literals. -/
theorem eval_two (family : Family) {net stop : List Char} (hnet : '"' ∉ net) (hstop : '"' ∉ stop) :
    eval (class_name family ++ ['('] ++ '"' :: (net ++ '"' :: ([',', ' '] ++ '"' ::
      (stop ++ '"' :: [')'])))) = Net.new family net (some stop) none := by
  have hother : class_name .v6 ++ ['('] ≠ class_name .v4 ++ ['('] := by decide
  unfold eval
  rw [List.splitOn_append_cons_self_of_not_mem (call_plain family),
    List.splitOn_append_cons_self_of_not_mem hnet,
    List.splitOn_append_cons_self_of_not_mem (by decide),
    List.splitOn_append_cons_self_of_not_mem hstop, List.splitOn_eq_singleton (by decide)]
  cases family <;> simp [hother]

/-- An aligned span that is a power of two is a block. -/
theorem block_of_span (n : Net) (hspan : n.iterlen = 1 <<< Nat.log 2 n.iterlen)
    (hlow : n.lo &&& (n.iterlen - 1) = 0) :
    ∃ p ≤ n.family.bits, n.family.bits - Nat.log 2 n.iterlen = p ∧
      n.lo % 2 ^ (n.family.bits - p) = 0 ∧ n.hi = n.lo + (2 ^ (n.family.bits - p) - 1) := by
  generalize Nat.log 2 n.iterlen = k at *
  rw [Nat.one_shiftLeft] at hspan
  have hordered := n.ordered
  have hfits := n.fits
  -- no range is larger than its family
  have hk : k ≤ n.family.bits := by
    by_contra hlarge
    have hpow : 2 ^ n.family.bits < 2 ^ k := Nat.pow_lt_pow_right (by decide) (by omega)
    unfold iterlen at hspan
    omega
  refine ⟨n.family.bits - k, Nat.sub_le _ _, rfl, ?_, ?_⟩
  · rw [Nat.sub_sub_self hk, ← Nat.and_two_pow_sub_one_eq_mod, ← hspan]
    exact hlow
  · rw [Nat.sub_sub_self hk, ← hspan]
    unfold iterlen
    omega

/-- **A range's representation evaluates to an equal range.** -/
theorem eval_repr (n : Net) : ∃ m, eval n.repr = some m ∧ m.eq n = true := by
  have hlo : n.lo < 2 ^ n.family.bits := n.ordered.trans_lt n.fits
  have hquote : ∀ x, '"' ∉ addr_str n.family x := fun x h => (addr_str_plain h).2.2.1 rfl
  unfold repr
  dsimp only
  split
  · rename_i hblock
    -- a block is written as its base and prefix
    obtain ⟨p, hp, hplen, haligned, hhi⟩ := n.block_of_span hblock.1 hblock.2
    have hnet : '"' ∉ addr_str n.family n.lo ++ '/' :: Nat.toDigits 10 p := by
      rw [List.mem_append, List.mem_cons]
      rintro (h | h | h)
      · exact hquote _ h
      · cases h
      · exact (toDigits_plain (hp.trans n.family.bits_le) h).2 rfl
    have heval := eval_one n.family hnet
    obtain ⟨m, hm, hfamily, hmlo, hmhi⟩ := new_block hlo hp haligned
    refine ⟨m, ?_, by simp [eq, hfamily, hmlo, hmhi, hhi]⟩
    rw [hplen, ← hm, ← heval]
    simp
  · -- any other range as its two ends, which are in order already
    have heval := eval_two n.family (hquote n.lo) (hquote n.hi)
    obtain ⟨m, hm, hfamily, hmlo, hmhi⟩ :=
      new_pair (addr_int_addr_str hlo) (addr_int_addr_str n.fits) none
    have hordered := n.ordered
    refine ⟨m, ?_, by simp [eq, hfamily, hmlo, hmhi, hordered]⟩
    rw [← hm, ← heval]
    simp

/-! ## Iteration and containment -/

theorem length_iter (n : Net) : n.iter.length = n.iterlen := by
  have hordered := n.ordered
  simp [iter, iterlen]
  omega

theorem iter_getElem? (n : Net) {i : ℕ} (hi : i < n.iterlen) :
    n.iter[i]? = some (addr_str n.family (n.lo + i)) := by
  have hordered := n.ordered
  have hlen : i < n.hi + 1 - n.lo := by
    unfold iterlen at hi
    omega
  simp [iter, hlen]

theorem mem_iter {n : Net} {a : List Char} :
    a ∈ n.iter ↔ ∃ x, n.lo ≤ x ∧ x ≤ n.hi ∧ a = addr_str n.family x := by
  have hordered := n.ordered
  simp only [iter, List.mem_map, List.mem_range'_1]
  constructor
  · rintro ⟨x, hx, rfl⟩
    exact ⟨x, by omega, by omega, rfl⟩
  · rintro ⟨x, hlo, hhi, rfl⟩
    exact ⟨x, by omega, rfl⟩

/-- An index from either end finds what the iteration yields there. -/
theorem getitem_eq (n : Net) (i : ℕ) :
    (i < n.iterlen → n.getitem i = n.iter[i]?) ∧
      (0 < i → i ≤ n.iterlen → n.getitem (-i) = n.iter[n.iterlen - i]?) := by
  constructor
  · intro hi
    unfold getitem
    rw [if_pos (by omega), n.iter_getElem? hi, Int.emod_eq_of_lt (by omega) (by omega), Int.toNat_natCast]
  · intro hpos hi
    -- Python's remainder is not negative
    have hmod : (-(i : ℤ)) % n.iterlen = ((n.iterlen - i : ℕ) : ℤ) := by
      rw [← Int.add_emod_right, Int.emod_eq_of_lt (by omega) (by omega)]
      omega
    unfold getitem
    rw [if_pos (by omega), n.iter_getElem? (by omega), hmod, Int.toNat_natCast]

theorem contains_iff (n : Net) (other : Other) : n.contains other = true ↔
    ∃ m, n.as_net other = some m ∧ n.lo ≤ m.lo ∧ m.hi ≤ n.hi := by
  unfold contains
  cases n.as_net other <;> simp

/-- An address is in a range that reaches over it, and in no range of the other family. -/
theorem contains_addr (n : Net) {family : Family} {x : ℕ} (hx : x < 2 ^ family.bits) :
    n.contains (.text (addr_str family x)) = true ↔ family = n.family ∧ n.lo ≤ x ∧ x ≤ n.hi := by
  rw [contains_iff]
  by_cases hfamily : n.family = family
  · subst hfamily
    obtain ⟨m, hm, -, hlo, hhi⟩ := new_addr hx
    simp [as_net, hm, hlo, hhi]
  · have hnone : n.as_net (.text (addr_str family x)) = none := new_addr_other hfamily x
    simp [hnone, Ne.symm hfamily]

/-- A range of the same family is inside where its addresses are. -/
theorem contains_all (n m : Net) :
    (m.family = n.family ∧ n.lo ≤ m.lo ∧ m.hi ≤ n.hi) ↔ ∀ a ∈ m.iter, n.contains (.text a) = true := by
  have hfits := m.fits
  have hordered := m.ordered
  constructor
  · rintro ⟨hfamily, hlo, hhi⟩ a ha
    obtain ⟨x, hxlo, hxhi, rfl⟩ := mem_iter.1 ha
    exact (n.contains_addr (by omega)).2 ⟨hfamily, by omega, by omega⟩
  · intro hall
    -- its first and its last address say where it lies
    have hfirst := (n.contains_addr (by omega)).1 (hall _ (mem_iter.2 ⟨m.lo, le_rfl, hordered, rfl⟩))
    have hlast := (n.contains_addr hfits).1 (hall _ (mem_iter.2 ⟨m.hi, hordered, le_rfl, rfl⟩))
    exact ⟨hfirst.1, hfirst.2.1, hlast.2.2⟩

/-- **A range is inside where every address of it is**, given as a range or as text. -/
theorem contains_net_iff (n m : Net) :
    n.contains (.net m) = true ↔ ∀ a ∈ m.iter, n.contains (.text a) = true := by
  rw [← contains_all, contains_iff]
  by_cases hfamily : m.family = n.family <;> simp [as_net, hfamily]

theorem contains_text_iff (n : Net) (s : List Char) : n.contains (.text s) = true ↔
    ∃ m, Net.new n.family s none none = some m ∧ ∀ a ∈ m.iter, n.contains (.text a) = true := by
  rw [contains_iff]
  constructor
  · rintro ⟨m, hm, hlo, hhi⟩
    exact ⟨m, hm, (n.contains_all m).1 ⟨(new_text_some hm).1, hlo, hhi⟩⟩
  · rintro ⟨m, hm, hall⟩
    obtain ⟨-, hlo, hhi⟩ := (n.contains_all m).2 hall
    exact ⟨m, hm, hlo, hhi⟩

/-! ## Blocks -/

/-- What stands between two multiples of a power of two shares the bits above it. -/
theorem block_iff (base x k : ℕ) :
    (2 ^ k * (base / 2 ^ k) ≤ x ∧ x ≤ 2 ^ k * (base / 2 ^ k) + (2 ^ k - 1)) ↔ x >>> k = base >>> k := by
  have hpos := Nat.two_pow_pos k
  rw [Nat.shiftRight_eq_div_pow, Nat.shiftRight_eq_div_pow, Nat.div_eq_iff hpos]
  rw [Nat.mul_comm]
  omega

/-- **A block is the addresses that share its first bits.** -/
theorem new_text_block {family : Family} {text : List Char} {scope : Option (List Char)} {n : Net}
    (h : Net.new family text none scope = some n) :
    ∃ base p, addr_int family (partition '/' (partition '%' text).1).1 = some base ∧
      p ≤ family.bits ∧
      (match (partition '/' (partition '%' text).1).2 with
        | none => p = family.bits
        | some plen => py_int plen = some (p : ℤ)) ∧
      ∀ x, n.lo ≤ x ∧ x ≤ n.hi ↔ x >>> (family.bits - p) = base >>> (family.bits - p) := by
  obtain ⟨-, hparse⟩ := new_text_some h
  obtain ⟨base, p, hbase, hp, hplen, hlo, hhi⟩ := parse_cidr_some hparse
  refine ⟨base, p, hbase, hp, hplen, ?_⟩
  intro x
  rw [hlo, hhi]
  exact block_iff base x _

/-- **A range is its addresses**: its representation evaluates to it, iteration and indices yield them
in order, what is in it is what has all its addresses in it, and a block's addresses are those that
share its first bits. -/
theorem range_of_addresses (n : Net) :
    (∃ m, eval n.repr = some m ∧ m.eq n = true) ∧
      (n.iter.length = n.iterlen ∧ ∀ i < n.iterlen,
        ∃ a, n.iter[i]? = some a ∧ addr_int n.family a = some (n.lo + i)) ∧
      (∀ i : ℕ, (i < n.iterlen → n.getitem i = n.iter[i]?) ∧
        (0 < i → i ≤ n.iterlen → n.getitem (-i) = n.iter[n.iterlen - i]?)) ∧
      ((∀ m, n.contains (.net m) = true ↔ ∀ a ∈ m.iter, n.contains (.text a) = true) ∧
        (∀ s, n.contains (.text s) = true ↔
          ∃ m, Net.new n.family s none none = some m ∧ ∀ a ∈ m.iter, n.contains (.text a) = true) ∧
        ∀ (family : Family) (x : ℕ), x < 2 ^ family.bits →
          (n.contains (.text (addr_str family x)) = true ↔ family = n.family ∧ n.lo ≤ x ∧ x ≤ n.hi)) ∧
      ∀ text scope, Net.new n.family text none scope = some n →
        ∃ base p, addr_int n.family (partition '/' (partition '%' text).1).1 = some base ∧
          p ≤ n.family.bits ∧
          (match (partition '/' (partition '%' text).1).2 with
            | none => p = n.family.bits
            | some plen => py_int plen = some (p : ℤ)) ∧
          ∀ x, n.lo ≤ x ∧ x ≤ n.hi ↔ x >>> (n.family.bits - p) = base >>> (n.family.bits - p) := by
  refine ⟨n.eval_repr, ⟨n.length_iter, ?_⟩, n.getitem_eq,
    ⟨n.contains_net_iff, n.contains_text_iff, fun _ _ hx => n.contains_addr hx⟩,
    fun _ _ h => new_text_block h⟩
  intro i hi
  have hordered := n.ordered
  have hfits := n.fits
  -- an address of the range is one of the family
  have hlt : n.lo + i < 2 ^ n.family.bits := by
    unfold iterlen at hi
    omega
  exact ⟨_, n.iter_getElem? hi, addr_int_addr_str hlt⟩

example : (Net.new .v4 "10.0.0.9/30".toList none none).map repr = some "Net(\"10.0.0.8/30\")".toList := by
  decide +kernel

end Net

end Wiry.Volatile
