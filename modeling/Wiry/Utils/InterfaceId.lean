/-
Interface identifiers of `python/wiry/utils6.py` as text: the modified EUI-64 of a MAC and the way
back, and the randomized identifiers of RFC 4941.

`inet_ntop` and `inet_pton` are RFC 5952's printer and its parser. Text is ASCII, and an exception is
`none`.
-/
import Wiry.Ldap.Rfc2254
import Wiry.Parse.Halves

set_option autoImplicit false

namespace Wiry.Utils6

open Ipaddress (hextets hextets_some hextets_eq_ipv6 hextets_render_ipv6 mem_join)
open Ldap.Rfc2254 (strip)
open Packet (Bytes octets_of)
open Parse
open Repeat (groups16 hex hex2 render_ipv6)

/-- `int(s, 16)`. -/
def py_int16 (s : List Char) : Option ℤ :=
  let (sign, rest) : ℤ × List Char :=
    match strip s with
    | '-' :: rest => (-1, rest)
    | '+' :: rest => (1, rest)
    | rest => (1, rest)
  let digits :=
    match rest with
    | '0' :: 'x' :: '_' :: digits | '0' :: 'X' :: '_' :: digits => digits
    | '0' :: 'x' :: digits | '0' :: 'X' :: digits => digits
    | digits => digits
  let runs := digits.splitOn '_'
  if runs.any (fun r => r = [] ∨ !r.all hex_digit) then none
  else some (sign * value 16 0 runs.flatten)

/-- `in6_mactoifaceid`. -/
def in6_mactoifaceid (mac : List Char) (ulbit : Option ℤ) : Option (List Char) :=
  if mac.length ≠ 17 then none
  else
    let m := (mac.splitOn ':').flatten
    if m.length ≠ 12 then none
    else (py_int16 (m.take 2)).map fun (first : ℤ) =>
      -- the masks take in the low eight bits only
      let first := (first % 256).toNat
      let ulbit :=
        match ulbit with
        | some 0 => 0
        | some 1 => 1
        | _ => if first &&& 0x02 ≠ 0 then 0 else 1
      let first_b := hex2 (first &&& 0xFD ||| ulbit * 2)
      let eui64 := first_b ++ (m.drop 2).take 2 ++ [':'] ++ (m.drop 4).take 2 ++ "FF:FE".toList ++
        (m.drop 6).take 2 ++ [':'] ++ (m.drop 8).take 4
      eui64.map Char.toUpper

/-- `in6_ifaceidtomac`. -/
def in6_ifaceidtomac (ifaceid_s : List Char) : Option (List Char) :=
  (hextets ("::".toList ++ ifaceid_s)).bind fun addr =>
    let ifaceid := (addr.drop 8).take 8
    if (ifaceid.drop 3).take 2 ≠ [0xFF, 0xFE] then none
    else
      let first := (ifaceid.take 1).map (· ^^^ 0x02)
      some ([':'].intercalate
        ((first ++ (ifaceid.drop 1).take 2 ++ ifaceid.drop 5).map fun b => hex2 b.toNat))

/-- `in6_and`. -/
def in6_and (a1 a2 : Bytes) : Bytes := List.zipWith (· &&& ·) a1 a2

/-- `in6_addrtomac`: an address that does not parse raises. -/
def in6_addrtomac (addr : List Char) : Option (Option (List Char)) :=
  (hextets "::ffff:ffff:ffff:ffff".toList).bind fun mask => (hextets addr).map fun a =>
    in6_ifaceidtomac ((render_ipv6 (in6_and mask a)).drop 2)

/-- What `hashlib.md5` may give. -/
abbrev Digest : Type := { s : Bytes // s.length = 16 }

/-- The octets `in6_getRandomizedIfaceId` writes out: the identifier and the history value. `urandom`
is drawn where no history value is passed in. -/
def randomized_octets (md5 : Bytes → Digest) (urandom : Bytes) (ifaceid : List Char)
    (previous : Option (List Char)) : Option (Bytes × Bytes) :=
  let b_previous :=
    match previous with
    | none => some urandom
    | some previous => (hextets ("::".toList ++ previous)).map (List.drop 8)
  b_previous.bind fun b_previous => (hextets ("::".toList ++ ifaceid)).map fun addr =>
    let s := (md5 (addr.drop 8 ++ b_previous)).1
    ((s.take 1).map (· &&& 0xFD) ++ (s.drop 1).take 7, s.drop 8)

/-- The text of an identifier: what follows the four groups it is printed behind. -/
def printed_id (b : Bytes) : List Char := (render_ipv6 (List.replicate 8 0xFF ++ b)).drop 20

/-- `in6_getRandomizedIfaceId`. -/
def in6_getRandomizedIfaceId (md5 : Bytes → Digest) (urandom : Bytes) (ifaceid : List Char)
    (previous : Option (List Char)) : Option (List Char × List Char) :=
  (randomized_octets md5 urandom ifaceid previous).map fun s => (printed_id s.1, printed_id s.2)

/-- The octets an identifier is read as where one is passed in. -/
def passed_in (id : List Char) : Option Bytes := (hextets ("::".toList ++ id)).map (List.drop 8)

/-! ## Printed identifiers -/

theorem groups16_ones (b : Bytes) :
    groups16 (List.replicate 8 0xFF ++ b) = [65535, 65535, 65535, 65535] ++ groups16 b := by
  rw [groups16_append rfl]
  rfl

/-- Four groups of ones and a colon are twenty characters. -/
theorem join_ones {gs : List ℕ} (hgs : gs ≠ []) :
    join ([65535, 65535, 65535, 65535] ++ gs) = "ffff:ffff:ffff:ffff:".toList ++ join gs := by
  obtain ⟨g, gs, rfl⟩ := List.exists_cons_of_ne_nil hgs
  have hhex : hex 65535 = ['f', 'f', 'f', 'f'] := by decide
  simp only [List.cons_append, List.nil_append, join_cons_cons, hhex]
  rfl

/-- Without two adjacent zero groups all four are written out and read back. -/
theorem passed_in_of_no_zeros {b : Bytes} (hb : b.length = 8) (h : ¬[0, 0] <:+: groups16 b) :
    passed_in (printed_id b) = some b := by
  obtain ⟨hlen, hflat⟩ := groups16_octets (b := b) (by omega)
  rw [hb] at hlen
  have hne : groups16 b ≠ [] := List.ne_nil_of_length_eq_add_one hlen
  have htext : printed_id b = join (groups16 b) := by
    unfold printed_id
    rcases render_ipv6_cases (List.replicate 8 0xFF ++ b) with ⟨-, hrender⟩ |
      ⟨i, k, hk, hrun, -⟩
    · rw [hrender, groups16_ones, join_ones hne]
      rfl
    · -- a run of zeros is one of the identifier's own groups
      exfalso
      have hzeros := (zeros_infix_iff _).2 ⟨i, k, hk, hrun⟩
      rw [groups16_ones] at hzeros
      apply h
      have hskip : ∀ gs : List ℕ, [0, 0] <:+: 65535 :: gs → [0, 0] <:+: gs := by
        intro gs hgs
        rcases List.infix_cons_iff.1 hgs with hpre | hgs
        · have := (List.cons_prefix_cons.1 hpre).1
          omega
        · exact hgs
      exact hskip _ (hskip _ (hskip _ (hskip _ hzeros)))
  have helided := @ipv6_join_elided [] (groups16 b) (by simp) (groups16_lt b) (by simp; omega)
  unfold passed_in
  rw [htext, hextets_eq_ipv6]
  · simp only [join, List.map_nil, List.intercalate_nil, List.nil_append] at helided
    have haddress : (address [] (groups16 b)).drop 8 = b := by
      unfold address
      rw [hlen, List.nil_append, List.flatMap_append, hflat]
      rfl
    rw [show "::".toList ++ join (groups16 b) = [':', ':'] ++ join (groups16 b) from rfl]
    rw [show join (groups16 b) = [':'].intercalate ((groups16 b).map hex) from rfl, helided]
    simp [haddress]
  · intro c hc
    rcases List.mem_append.1 hc with hc | hc
    · left
      simpa using hc
    · exact mem_join hc

/-- Two colons in what was cut out cannot follow two more. -/
theorem passed_in_of_zeros {b : Bytes} (h : [0, 0] <:+: groups16 b) :
    passed_in (printed_id b) = none := by
  have hone : ∀ i k, ZeroRun ([65535, 65535, 65535, 65535] ++ groups16 b) i k → 2 ≤ k → 4 ≤ i := by
    intro i k hrun hk
    by_contra hlow
    obtain ⟨x, hx, hzero⟩ := hrun.2 i le_rfl (by omega)
    have hcases : i = 0 ∨ i = 1 ∨ i = 2 ∨ i = 3 := by omega
    rcases hcases with rfl | rfl | rfl | rfl <;> simp at hx <;> simp [← hx] at hzero
  suffices hcut : printed_id b ≠ [] ∧
      ((∃ rest, printed_id b = ':' :: rest) ∨ split_once (printed_id b) ≠ none) by
    unfold passed_in
    rw [Option.map_eq_none_iff]
    apply Option.eq_none_iff_forall_ne_some.2
    intro addr haddr
    have hread := hextets_some haddr
    rw [ipv6_colons_none hcut.1 hcut.2] at hread
    cases hread
  unfold printed_id
  rcases render_ipv6_cases (List.replicate 8 0xFF ++ b) with ⟨hshort, -⟩ |
    ⟨i, k, hk, hrun, -, -, hrender⟩
  · exfalso
    obtain ⟨front, back, hfront⟩ := h
    have hzeros : [0, 0] <:+: groups16 (List.replicate 8 0xFF ++ b) := by
      rw [groups16_ones, ← hfront]
      exact ⟨[65535, 65535, 65535, 65535] ++ front, back, by simp⟩
    obtain ⟨i, k, hk, hrun⟩ := (zeros_infix_iff _).1 hzeros
    exact absurd (hshort i k hrun) (by omega)
  · rw [hrender]
    rw [groups16_ones] at hrun ⊢
    obtain ⟨j, rfl⟩ := Nat.exists_eq_add_of_le (hone i k hrun hk)
    have htake : ([65535, 65535, 65535, 65535] ++ groups16 b).take (4 + j) =
        [65535, 65535, 65535, 65535] ++ (groups16 b).take j := by
      rw [List.take_append, List.take_of_length_le (by simp)]
      simp
    rw [htake]
    generalize join (([65535, 65535, 65535, 65535] ++ groups16 b).drop (4 + j + k)) = post
    cases hfront : (groups16 b).take j with
    | nil =>
      -- the run comes first: one of the two colons is cut off
      have hjoin : join ([65535, 65535, 65535, 65535] ++ []) = "ffff:ffff:ffff:ffff".toList := by
        decide
      rw [hjoin]
      exact ⟨by simp, .inl ⟨post, rfl⟩⟩
    | cons g front =>
      rw [join_ones (List.cons_ne_nil g front)]
      have hdrop : ("ffff:ffff:ffff:ffff:".toList ++ join (g :: front) ++ [':', ':'] ++ post).drop 20 =
          join (g :: front) ++ [':', ':'] ++ post := rfl
      rw [hdrop, split_once_join_append]
      exact ⟨by simp, .inr (by simp)⟩

/-- **A printed identifier is read back where no two adjacent groups are zero.** -/
theorem passed_in_iff {b : Bytes} (hb : b.length = 8) :
    passed_in (printed_id b) = some b ↔ ¬[0, 0] <:+: groups16 b := by
  constructor
  · intro hread hzeros
    rw [passed_in_of_zeros hzeros] at hread
    cases hread
  · exact passed_in_of_no_zeros hb

/-! ## The MAC behind an identifier -/

/-- Six pairs of hex digits, a colon between two of them. -/
def ColonMac (mac : List Char) : Prop := Parts (Pair false) (fun c => c = ':') 6 mac

def hex_digits : List Char := "0123456789abcdefABCDEF".toList

/-- The hexadecimal digits, listed. -/
theorem mem_hex_digits {c : Char} (h : hex_digit c = true) : c ∈ hex_digits := by
  rcases (hex_digit_iff c).1 h with hc | hc | hc
  all_goals
    obtain ⟨hlow, hhigh⟩ := hc
    rw [← Char.ofNat_toNat c]
    generalize c.toNat = n at hlow hhigh
    interval_cases n <;> decide

/-- What two digits say, in either case. -/
theorem pair_facts {a b : Char} (ha : hex_digit a = true) (hb : hex_digit b = true) :
    (py_int16 [a, b] = some (value 16 0 [a, b] : ℤ) ∧ value 16 0 [a, b] < 256) ∧
      hex2 (value 16 0 [a, b]) = [a.toLower, b.toLower] ∧
      value 16 0 [a.toUpper, b.toUpper] = value 16 0 [a, b] ∧
      hex_digit a.toUpper = true ∧ hex_digit b.toUpper = true := by
  have hall : (hex_digits.all fun a => hex_digits.all fun b => decide
      ((py_int16 [a, b] = some (value 16 0 [a, b] : ℤ) ∧ value 16 0 [a, b] < 256) ∧
        hex2 (value 16 0 [a, b]) = [a.toLower, b.toLower] ∧
        value 16 0 [a.toUpper, b.toUpper] = value 16 0 [a, b] ∧
        hex_digit a.toUpper = true ∧ hex_digit b.toUpper = true)) = true := by
    decide +kernel
  have hb' := List.all_eq_true.1 (List.all_eq_true.1 hall a (mem_hex_digits ha)) b (mem_hex_digits hb)
  exact of_decide_eq_true hb'

/-- The first octet of an identifier: the U/L bit is inverted, and the text is two digits. -/
theorem first_facts {v : ℕ} (hv : v < 256) :
    (v &&& 0xFD ||| (if v &&& 0x02 ≠ 0 then 0 else 1) * 2) = v ^^^ 2 ∧ v ^^^ 2 < 256 ∧
      ∃ c d, (hex2 (v ^^^ 2)).map Char.toUpper = [c, d] ∧ hex_digit c = true ∧ hex_digit d = true ∧
        value 16 0 [c, d] = v ^^^ 2 := by
  have hmask : ∀ v < 256,
      (v &&& 0xFD ||| (if v &&& 0x02 ≠ 0 then 0 else 1) * 2) = v ^^^ 2 ∧ v ^^^ 2 < 256 := by
    decide +kernel
  have htext : ∀ w < 256, ((hex2 w).map Char.toUpper).length = 2 ∧
      ((hex2 w).map Char.toUpper).all hex_digit = true ∧
      value 16 0 ((hex2 w).map Char.toUpper) = w := by
    decide +kernel
  obtain ⟨hfirst, hlt⟩ := hmask v hv
  obtain ⟨hlen, hdigits, hvalue⟩ := htext _ hlt
  refine ⟨hfirst, hlt, ?_⟩
  obtain ⟨c, d, hcd⟩ := List.length_eq_two.1 hlen
  rw [hcd] at hdigits hvalue ⊢
  simp only [List.all_cons, List.all_nil, Bool.and_true, Bool.and_eq_true] at hdigits
  exact ⟨c, d, rfl, hdigits.1, hdigits.2, hvalue⟩

/-- A MAC address with colons is six pairs of hexadecimal digits. -/
theorem ColonMac.pairs {n : ℕ} {s : List Char} (h : Parts (Pair false) (fun c => c = ':') n s) :
    ∃ ps : List (Char × Char), ps.length = n ∧ ps ≠ [] ∧
      (∀ p ∈ ps, hex_digit p.1 = true ∧ hex_digit p.2 = true) ∧
      s = [':'].intercalate (ps.map fun p => [p.1, p.2]) := by
  have hpair : ∀ {p : List Char}, Pair false p → ∃ a b, p = [a, b] ∧ hex_digit a = true ∧
      hex_digit b = true := by
    rintro p ⟨hlen, ds, -, hds, -, rfl | ⟨hloose, -⟩⟩
    · obtain ⟨a, b, rfl⟩ := List.length_eq_two.1 hlen
      exact ⟨a, b, rfl, hds a (by simp), hds b (by simp)⟩
    · cases hloose
  induction h with
  | one hp =>
    obtain ⟨a, b, rfl, ha, hb⟩ := hpair hp
    exact ⟨[(a, b)], rfl, by simp, by simp [ha, hb], by simp⟩
  | more hp hc hs ih =>
    obtain ⟨a, b, rfl, ha, hb⟩ := hpair hp
    obtain ⟨ps, hlen, hne, hps, rfl⟩ := ih
    obtain rfl := of_decide_eq_true hc
    refine ⟨(a, b) :: ps, by simp [hlen], by simp, by simpa [ha, hb] using hps, ?_⟩
    obtain ⟨p, ps, rfl⟩ := List.exists_cons_of_ne_nil hne
    simp

/-- The octet two digits spell. -/
def octet (p : Char × Char) : UInt8 := UInt8.ofNat (value 16 0 [p.1, p.2])

theorem octet_toNat {p : Char × Char} (ha : hex_digit p.1 = true) (hb : hex_digit p.2 = true) :
    (octet p).toNat = value 16 0 [p.1, p.2] := by
  unfold octet
  rw [UInt8.toNat_ofNat']
  exact Nat.mod_eq_of_lt (pair_facts ha hb).1.2

/-- A group of two pairs. -/
theorem value_pairs (a b c d : Char) :
    value 16 0 [a, b, c, d] = value 16 0 [a, b] * 256 + value 16 0 [c, d] := by
  simp only [value, List.foldl_cons, List.foldl_nil]
  omega

/-- The octets of a modified EUI-64. -/
def eui64 (a b c d e f : UInt8) : Bytes := [a ^^^ 0x02, b, c, 0xFF, 0xFE, d, e, f]

/-- The join of a MAC's pairs. -/
theorem flatten_mac {ps : List (Char × Char)} (hne : ps ≠ [])
    (hps : ∀ p ∈ ps, hex_digit p.1 = true ∧ hex_digit p.2 = true) :
    (([':'].intercalate (ps.map fun p => [p.1, p.2])).splitOn ':').flatten =
      ps.flatMap fun p => [p.1, p.2] := by
  rw [List.splitOn_intercalate, List.flatMap_def]
  · intro l hl hcolon
    obtain ⟨p, hp, rfl⟩ := List.mem_map.1 hl
    obtain ⟨ha, hb⟩ := hps p hp
    rcases List.mem_pair.1 hcolon with heq | heq
    · exact (hex_digit_plain ha).1 heq.symm
    · exact (hex_digit_plain hb).1 heq.symm
  · simpa using hne

/-- The identifier's text: `c` and `d` are the digits of the first octet. -/
def eui64_text (c d : Char) (p1 p2 p3 p4 p5 : Char × Char) : List Char :=
  [c, d, p1.1.toUpper, p1.2.toUpper] ++ ':' :: ([p2.1.toUpper, p2.2.toUpper, 'F', 'F'] ++ ':' ::
    (['F', 'E', p3.1.toUpper, p3.2.toUpper] ++ ':' ::
      [p4.1.toUpper, p4.2.toUpper, p5.1.toUpper, p5.2.toUpper]))

/-- The text of the identifier, digit by digit, with the universal bit turned. -/
theorem mactoifaceid_text {p0 p1 p2 p3 p4 p5 : Char × Char}
    (hps : ∀ p ∈ [p0, p1, p2, p3, p4, p5], hex_digit p.1 = true ∧ hex_digit p.2 = true) :
    ∃ c d, hex_digit c = true ∧ hex_digit d = true ∧
      value 16 0 [c, d] = value 16 0 [p0.1, p0.2] ^^^ 2 ∧
      in6_mactoifaceid ([':'].intercalate ([p0, p1, p2, p3, p4, p5].map fun p => [p.1, p.2])) none =
        some (eui64_text c d p1 p2 p3 p4 p5) := by
  have h0 := hps p0 List.mem_cons_self
  obtain ⟨⟨hint, hlt⟩, -⟩ := pair_facts h0.1 h0.2
  obtain ⟨hfirst, -, c, d, htext, hc, hd, hvalue⟩ := first_facts hlt
  refine ⟨c, d, hc, hd, hvalue, ?_⟩
  have hcast : ((value 16 0 [p0.1, p0.2] : ℤ) % 256).toNat = value 16 0 [p0.1, p0.2] := by omega
  unfold in6_mactoifaceid
  rw [flatten_mac (List.cons_ne_nil _ _) hps]
  rw [if_neg (by simp)]
  have hm : ([p0, p1, p2, p3, p4, p5].flatMap fun p => [p.1, p.2]) =
      [p0.1, p0.2, p1.1, p1.2, p2.1, p2.2, p3.1, p3.2, p4.1, p4.2, p5.1, p5.2] := rfl
  dsimp only
  rw [hm, if_neg (by simp)]
  simp only [List.take_succ_cons, List.take_zero, hint, Option.map_some, hcast, hfirst,
    List.map_append, htext]
  rfl

/-- A MAC as text, and the text of its identifier. -/
theorem mactoifaceid_eq {mac : List Char} (h : ColonMac mac) :
    ∃ iid a b c d e f, in6_mactoifaceid mac none = some iid ∧
      (groups iid = some (groups16 (eui64 a b c d e f)) ∧ ∀ x ∈ iid, x = ':' ∨ hex_digit x = true) ∧
      mac.map Char.toLower = [':'].intercalate ([a, b, c, d, e, f].map fun x => hex2 x.toNat) := by
  -- Six pairs of digits, each an octet; the first has its universal bit turned.
  obtain ⟨ps, hlen, -, hps, rfl⟩ := ColonMac.pairs h
  match ps, hlen with
  | [p0, p1, p2, p3, p4, p5], _ =>
  obtain ⟨c, d, hc, hd, hfirst, htext⟩ := mactoifaceid_text hps
  have hupper : ∀ p ∈ [p0, p1, p2, p3, p4, p5],
      value 16 0 [p.1.toUpper, p.2.toUpper] = (octet p).toNat ∧
        hex_digit p.1.toUpper = true ∧ hex_digit p.2.toUpper = true := by
    intro p hp
    obtain ⟨-, -, hvalue, hdigits⟩ := pair_facts (hps p hp).1 (hps p hp).2
    exact ⟨hvalue.trans (octet_toNat (hps p hp).1 (hps p hp).2).symm, hdigits⟩
  simp only [List.forall_mem_cons] at hupper
  obtain ⟨-, h1, h2, h3, h4, h5, -⟩ := hupper
  refine ⟨_, octet p0, octet p1, octet p2, octet p3, octet p4, octet p5, htext, ⟨?_, ?_⟩, ?_⟩
  -- The four groups of the text are those of the identifier's octets.
  · have h0' := octet_toNat (hps p0 (by simp)).1 (hps p0 (by simp)).2
    unfold eui64_text
    rw [groups_of_four]
    · have hfirst' : (octet p0 ^^^ 0x02).toNat = value 16 0 [c, d] := by
        rw [hfirst, ← h0']
        exact UInt8.toNat_xor _ _
      have hff : value 16 0 ['F', 'F'] = 255 := by decide
      have hfe : value 16 0 ['F', 'E'] = 254 := by decide
      simp only [value_pairs, h1.1, h2.1, h3.1, h4.1, h5.1, ← hfirst', hff, hfe]
      rfl
    · simp [hc, hd, h1.2, h2.2, h3.2, h4.2, h5.2]
      decide
  · have hF : hex_digit 'F' = true ∧ hex_digit 'E' = true := by decide
    simp [eui64_text, hc, hd, hF, h1, h2, h3, h4, h5]
  · simp only [List.forall_mem_cons] at hps
    obtain ⟨h0, h1, h2, h3, h4, h5, -⟩ := hps
    simp [octet_toNat, h0, h1, h2, h3, h4, h5, pair_facts]

/-- Masking keeps the lower half. -/
theorem and_mask {addr : Bytes} (h : addr.length = 16) :
    in6_and (List.replicate 8 0 ++ List.replicate 8 0xFF) addr =
      List.replicate 8 0 ++ addr.drop 8 := by
  -- the two halves of the mask
  have hzero : ∀ a : Bytes, List.zipWith (· &&& ·) (List.replicate a.length (0 : UInt8)) a =
      List.replicate a.length 0 := by
    intro a
    induction a with
    | nil => rfl
    | cons x a ih => simp [List.replicate_succ, ih]
  have hones : ∀ a : Bytes, List.zipWith (· &&& ·) (List.replicate a.length (0xFF : UInt8)) a = a := by
    intro a
    induction a with
    | nil => rfl
    | cons x a ih =>
      have hx : 0xFF &&& x = x := by
        apply UInt8.toNat_inj.1
        rw [UInt8.toNat_and, Nat.and_comm]
        have := x.toNat_lt
        exact (Nat.and_two_pow_sub_one_eq_mod x.toNat 8).trans (Nat.mod_eq_of_lt this)
      simp [List.replicate_succ, ih, hx]
  have hlow := hzero (addr.take 8)
  have hhigh := hones (addr.drop 8)
  rw [List.length_take_of_le (by omega)] at hlow
  rw [List.length_drop, h] at hhigh
  unfold in6_and
  nth_rewrite 1 [← List.take_append_drop 8 addr]
  rw [List.zipWith_append (by simp; omega), hlow, hhigh]

/-- The MAC of an address whose low half is a modified EUI-64. -/
theorem addrtomac_eui64 {addr : List Char} {b : Bytes} (haddr : hextets addr = some b)
    {a0 a1 a2 a3 a4 a5 : UInt8} (hlow : b.drop 8 = eui64 a0 a1 a2 a3 a4 a5) :
    in6_addrtomac addr =
      some (some ([':'].intercalate ([a0, a1, a2, a3, a4, a5].map fun x => hex2 x.toNat))) := by
  have hmask : hextets "::ffff:ffff:ffff:ffff".toList =
      some (List.replicate 8 0 ++ List.replicate 8 0xFF) := by
    decide +kernel
  have hsixth : a2.toNat * 256 + 255 ≠ 0 := by omega
  have htext := @ntop_low_half (eui64 a0 a1 a2 a3 a4 a5) _ _ _ _ rfl hsixth
  have hread : hextets (render_ipv6 (List.replicate 8 0 ++ eui64 a0 a1 a2 a3 a4 a5)) =
      some (List.replicate 8 0 ++ eui64 a0 a1 a2 a3 a4 a5) := hextets_render_ipv6 rfl
  have hfirst : a0 ^^^ 0x02 ^^^ 0x02 = a0 := by
    rw [UInt8.xor_assoc, UInt8.xor_self, UInt8.xor_zero]
  unfold in6_addrtomac
  rw [hmask, haddr, Option.bind_some, Option.map_some,
    and_mask (Ipaddress.length_ipv6 (hextets_some haddr)), hlow]
  unfold in6_ifaceidtomac
  rw [htext, hread, Option.bind_some]
  simp [eui64, hfirst]

/-- **Identifiers survive their text form, the randomized ones where no two adjacent groups are zero.**
A MAC comes back from behind any prefix, in lower case: one of four groups, or any text that ends in a
colon and that an identifier completes. -/
theorem identifiers_survive_iff (md5 : Bytes → Digest) (urandom : Bytes) (ifaceid : List Char)
    (previous : Option (List Char)) {s1 s2 : Bytes}
    (hs : randomized_octets md5 urandom ifaceid previous = some (s1, s2)) :
    ((∃ id history, in6_getRandomizedIfaceId md5 urandom ifaceid previous = some (id, history) ∧
        passed_in id = some s1 ∧ passed_in history = some s2) ↔
      ¬[0, 0] <:+: groups16 s1 ∧ ¬[0, 0] <:+: groups16 s2) ∧
    ∀ mac, ColonMac mac → ∃ iid, in6_mactoifaceid mac none = some iid ∧
      (∀ p : Bytes, p.length = 8 →
        in6_addrtomac (join (groups16 p) ++ ':' :: iid) = some (some (mac.map Char.toLower))) ∧
      ∀ pre addr, pre.getLast? = some ':' → hextets (pre ++ iid) = some addr →
        in6_addrtomac (pre ++ iid) = some (some (mac.map Char.toLower)) := by
  constructor
  -- Both strings that come out have eight octets.
  · have hlens : s1.length = 8 ∧ s2.length = 8 := by
      unfold randomized_octets at hs
      obtain ⟨b_previous, -, hs⟩ := Option.bind_eq_some_iff.1 hs
      obtain ⟨addr, -, heq⟩ := Option.map_eq_some_iff.1 hs
      have hdigest := (md5 (addr.drop 8 ++ b_previous)).2
      obtain ⟨rfl, rfl⟩ := Prod.mk.inj heq
      simp [hdigest]
    -- They pass through the text exactly when it has no run of zeros.
    have htexts : in6_getRandomizedIfaceId md5 urandom ifaceid previous =
        some (printed_id s1, printed_id s2) := by
      unfold in6_getRandomizedIfaceId
      rw [hs]
      rfl
    rw [htexts, ← passed_in_iff hlens.1, ← passed_in_iff hlens.2]
    constructor
    · rintro ⟨id, history, heq, hread⟩
      obtain ⟨rfl, rfl⟩ := Prod.mk.inj (Option.some.inj heq)
      exact hread
    · intro hread
      exact ⟨_, _, rfl, hread⟩
  -- The identifier of a MAC address never has one, because of its two fixed octets.
  · intro mac hmac
    obtain ⟨iid, a, b, c, d, e, f, hiid, ⟨hgroups, hplain⟩, hlower⟩ := mactoifaceid_eq hmac
    rw [hlower]
    refine ⟨iid, hiid, ?_, ?_⟩
    · intro p hp
      apply addrtomac_eui64 (hextets_joined hp rfl hgroups hplain)
      exact List.drop_left' hp
    · intro pre addr hpre haddr
      apply addrtomac_eui64 haddr
      rw [drop_of_joined hgroups rfl hpre (hextets_some haddr)]
      exact (groups16_octets (by simp [eui64])).2

/-- An identifier with the history value `1:2:3:4`, and its MD5. -/
theorem identifiers_survive_sample :
    ∃ id history,
      in6_getRandomizedIfaceId
          (fun _ => ⟨[151, 239, 16, 212, 245, 132, 206, 189, 89, 205, 24, 122, 27, 213, 133, 198], rfl⟩)
          [] "3656:78ff:fe9a:bcde".toList (some "1:2:3:4".toList) = some (id, history) ∧
        passed_in id = some [149, 239, 16, 212, 245, 132, 206, 189] ∧
        passed_in history = some [89, 205, 24, 122, 27, 213, 133, 198] :=
  (identifiers_survive_iff
    (fun _ => ⟨[151, 239, 16, 212, 245, 132, 206, 189, 89, 205, 24, 122, 27, 213, 133, 198], rfl⟩)
    [] "3656:78ff:fe9a:bcde".toList (some "1:2:3:4".toList) (by decide +kernel)).1.2 (by decide +kernel)

/-- The history value after `1:1:d9e:56f2`, whose MD5 ends in `f049 0000 0000 6246`, cannot be passed
back in. -/
theorem history_refused :
    in6_getRandomizedIfaceId
        (fun _ => ⟨[227, 239, 235, 206, 49, 2, 56, 26, 240, 73, 0, 0, 0, 0, 98, 70], rfl⟩)
        [] "3656:78ff:fe9a:bcde".toList (some "1:1:d9e:56f2".toList) =
        some ("e1ef:ebce:3102:381a".toList, "f049::6246".toList) ∧
      passed_in "f049::6246".toList = none ∧
      in6_getRandomizedIfaceId
        (fun _ => ⟨[227, 239, 235, 206, 49, 2, 56, 26, 240, 73, 0, 0, 0, 0, 98, 70], rfl⟩)
        [] "3656:78ff:fe9a:bcde".toList (some "f049::6246".toList) = none := by
  refine ⟨?_, ?_, ?_⟩
  · decide +kernel
  · decide +kernel
  · decide +kernel

end Wiry.Utils6
