/-
Source address selection of `python/wiry/utils6.py`: `construct_source_candidate_set` and
`get_source_addr_from_candidate_set`, with the predicates on IPv6 addresses they go by.

What `list.sort` makes of a comparator that is no order is not specified; where it is one, the sort is
stable.
-/
import Mathlib.Data.Nat.Size
import Wiry.Lib.Comparator
import Wiry.Lib.Endian
import Wiry.Parse.Ipaddress

set_option autoImplicit false

namespace Wiry.Utils6

open Comparator
open Packet (Bytes)
open Ipaddress (hextets)

/-- An address in printable form that `_pton` takes, with its octets. -/
structure Address where
  text : List Char
  octets : Bytes
  valid : hextets text = some octets

theorem Address.ext_text {a b : Address} (h : a.text = b.text) : a = b := by
  obtain ⟨s, bs, hs⟩ := a
  obtain ⟨t, bt, ht⟩ := b
  obtain rfl : s = t := h
  obtain rfl : bs = bt := Option.some.inj (hs.symm.trans ht)
  rfl

instance : DecidableEq Address := fun a b =>
  decidable_of_iff (a.text = b.text) ⟨Address.ext_text, fun h => h ▸ rfl⟩

theorem Address.length_octets (a : Address) : a.octets.length = 16 :=
  Ipaddress.length_ipv6 (Ipaddress.hextets_some a.valid)

/-! ## Predicates -/

def IPV6_ADDR_GLOBAL : ℤ := 0x00
def IPV6_ADDR_LOOPBACK : ℤ := 0x10
def IPV6_ADDR_LINKLOCAL : ℤ := 0x20
def IPV6_ADDR_SITELOCAL : ℤ := 0x40

/-- `in6_cidr2mask`, of a prefix length in its domain. -/
def in6_cidr2mask (m : ℕ) : ℕ := ((1 <<< m) - 1) <<< (128 - m)

/-- `in6_isincluded`, of the octets. -/
def in6_isincluded (addr : Address) (pre : String) (plen : ℕ) : Bool :=
  (hextets pre.toList).map Endian.big = some (Endian.big addr.octets &&& in6_cidr2mask plen)

def in6_islladdr (a : Address) : Bool := in6_isincluded a "fe80::" 10
def in6_issladdr (a : Address) : Bool := in6_isincluded a "fec0::" 10
def in6_isuladdr (a : Address) : Bool := in6_isincluded a "fc00::" 7
def in6_isgladdr (a : Address) : Bool := in6_isincluded a "2000::" 3
def in6_ismaddr (a : Address) : Bool := in6_isincluded a "ff00::" 8
def in6_ismnladdr (a : Address) : Bool := in6_isincluded a "ff01::" 16
def in6_ismgladdr (a : Address) : Bool := in6_isincluded a "ff0e::" 16
def in6_ismlladdr (a : Address) : Bool := in6_isincluded a "ff02::" 16
def in6_ismsladdr (a : Address) : Bool := in6_isincluded a "ff05::" 16

/-- `in6_isaddr6to4`. -/
def in6_isaddr6to4 (a : Address) : Bool := a.octets.take 2 = [0x20, 0x02]

/-- `in6_getscope`. -/
def in6_getscope (a : Address) : ℤ :=
  if in6_isgladdr a ∨ in6_isuladdr a then IPV6_ADDR_GLOBAL
  else if in6_islladdr a then IPV6_ADDR_LINKLOCAL
  else if in6_issladdr a then IPV6_ADDR_SITELOCAL
  else if in6_ismaddr a then
    if in6_ismgladdr a then IPV6_ADDR_GLOBAL
    else if in6_ismlladdr a then IPV6_ADDR_LINKLOCAL
    else if in6_ismsladdr a then IPV6_ADDR_SITELOCAL
    else if in6_ismnladdr a then IPV6_ADDR_LOOPBACK
    else -1
  else if a.text = "::1".toList then IPV6_ADDR_LOOPBACK
  else -1

/-- `in6_get_common_plen`: `int.bit_length` of what differs, from the right. -/
def in6_get_common_plen (a b : Address) : ℕ :=
  128 - (Endian.big a.octets ^^^ Endian.big b.octets).size

/-- `_SCOPE_RANK`. -/
def SCOPE_RANK (scope : ℤ) : ℕ :=
  if scope = IPV6_ADDR_GLOBAL then 4
  else if scope = IPV6_ADDR_SITELOCAL then 3
  else if scope = IPV6_ADDR_LINKLOCAL then 2
  else 1

/-- `_scope_rank`. -/
def scope_rank (a : Address) : ℕ :=
  SCOPE_RANK (if in6_getscope a = -1 then IPV6_ADDR_LOOPBACK else in6_getscope a)

/-! ## The two comparators -/

/-- `cset_sort` of `construct_source_candidate_set`: negative where `x` comes first. -/
def cset_sort (x y : Address) : ℤ :=
  let x_global : ℤ := if in6_isgladdr x then 1 else 0
  let y_global : ℤ := if in6_isgladdr y then 1 else 0
  let res := y_global - x_global
  if res ≠ 0 ∨ y_global ≠ 1 then res
  else if !in6_isaddr6to4 x then -1
  else -res

/-- `::1`. -/
def loopback : Address :=
  ⟨"::1".toList, [0, 0, 0, 0, 0, 0, 0, 0, 0, 0, 0, 0, 0, 0, 0, 1], by decide +kernel⟩

/-- The local addresses `construct_source_candidate_set` keeps, by the scope they are given with. -/
def source_candidates (addr : Address) (plen : ℕ) (laddr : List (Address × ℤ)) : List Address :=
  let kept (scope : ℤ) := (laddr.filter fun x => x.2 = scope).map Prod.fst
  if in6_isgladdr addr ∨ in6_isuladdr addr then kept IPV6_ADDR_GLOBAL
  else if in6_islladdr addr then kept IPV6_ADDR_LINKLOCAL
  else if in6_issladdr addr then kept IPV6_ADDR_SITELOCAL
  else if in6_ismaddr addr then
    if in6_ismnladdr addr then [loopback]
    else if in6_ismgladdr addr then kept IPV6_ADDR_GLOBAL
    else if in6_ismlladdr addr then kept IPV6_ADDR_LINKLOCAL
    else if in6_ismsladdr addr then kept IPV6_ADDR_SITELOCAL
    else []
  else if addr.text = "::".toList ∧ plen = 0 then kept IPV6_ADDR_GLOBAL
  else if addr.text = "::1".toList then kept IPV6_ADDR_LOOPBACK
  else []

/-- `construct_source_candidate_set`. Where `cset_sort` is no order of the candidates (two global ones of
which one is native), `list.sort` promises no sequence, and `best_first` takes one of its own:
`construct_global_first` leaves that case out. -/
def construct_source_candidate_set (addr : Address) (plen : ℕ) (laddr : List (Address × ℤ)) :
    List Address :=
  best_first (fun x y => -cset_sort x y) (source_candidates addr plen laddr)

/-- `better` of `get_source_addr_from_candidate_set`. -/
def better (dst a b : Address) : ℤ :=
  if a.text = dst.text then 1
  else if b.text = dst.text then -1
  else
    let sa := scope_rank a
    let sb := scope_rank b
    let sd := scope_rank dst
    if sa < sb then (if sa < sd then -1 else 1)
    else if sb < sa then (if sb < sd then 1 else -1)
    else
      let pa := in6_get_common_plen a dst
      let pb := in6_get_common_plen b dst
      (if pb < pa then 1 else 0) - (if pa < pb then 1 else 0)

/-- `get_source_addr_from_candidate_set`. -/
def get_source_addr_from_candidate_set (dst : Address) (candidate_set : List Address) : List Char :=
  match best_first (better dst) candidate_set with
  | [] => []
  | source :: _ => source.text

/-! ## RFC 6724 -/

/-- Rules 1, 2 and 8 of §5, in their order, take `x` before `y` as the source for `d`. -/
def Prefers (d x y : Address) : Prop :=
  -- rule 1: the destination itself
  (x.octets = d.octets ∧ y.octets ≠ d.octets) ∨
    (x.octets = d.octets ↔ y.octets = d.octets) ∧
      -- rule 2: an appropriate scope
      ((scope_rank x < scope_rank y ∧ ¬scope_rank x < scope_rank d ∨
          scope_rank y < scope_rank x ∧ scope_rank y < scope_rank d) ∨
        -- rule 8: the longest matching prefix
        scope_rank x = scope_rank y ∧ in6_get_common_plen y d < in6_get_common_plen x d)

/-- The rank of the scope beside the destination's: none too small before those that are. -/
def scope_key (d x : Address) : ℕ :=
  if scope_rank d ≤ scope_rank x then 10 - scope_rank x else scope_rank x

/-- What `better` goes by: the destination's own text, the scope, the prefix. -/
def source_key (d x : Address) : ℕ :=
  in6_get_common_plen x d + 129 * (scope_key d x + 10 * if x.text = d.text then 1 else 0)

/-- The four ranks of a scope. -/
theorem SCOPE_RANK_bounds (scope : ℤ) : 1 ≤ SCOPE_RANK scope ∧ SCOPE_RANK scope ≤ 4 := by
  unfold SCOPE_RANK
  split
  · decide
  · split
    · decide
    · split <;> decide

theorem scope_rank_bounds (a : Address) : 1 ≤ scope_rank a ∧ scope_rank a ≤ 4 := SCOPE_RANK_bounds _

theorem common_plen_le (a b : Address) : in6_get_common_plen a b ≤ 128 := Nat.sub_le _ _

/-- No scope ranks with the loopback's. -/
theorem scope_rank_eq (a : Address) : scope_rank a = SCOPE_RANK (in6_getscope a) := by
  unfold scope_rank
  split
  · rename_i hnone
    rw [hnone]
    decide
  · rfl

/-- Two texts of one address are of one scope. -/
theorem scope_rank_congr {a b : Address} (h : a.octets = b.octets) : scope_rank a = scope_rank b := by
  have hincluded : ∀ pre plen, in6_isincluded a pre plen = in6_isincluded b pre plen := by
    intro pre plen
    unfold in6_isincluded
    rw [h]
  have hunscoped : SCOPE_RANK IPV6_ADDR_LOOPBACK = SCOPE_RANK (-1) := by decide
  rw [scope_rank_eq, scope_rank_eq]
  unfold in6_getscope in6_isgladdr in6_isuladdr in6_islladdr in6_issladdr in6_ismaddr
    in6_ismgladdr in6_ismlladdr in6_ismsladdr in6_ismnladdr
  -- only `::1` is told by its text, and what has no scope ranks with it
  simp only [hincluded, apply_ite SCOPE_RANK, hunscoped, ite_self]

/-- Only the address itself shares all its bits. -/
theorem common_plen_eq_iff (a b : Address) : in6_get_common_plen a b = 128 ↔ a.octets = b.octets := by
  constructor
  · intro h
    unfold in6_get_common_plen at h
    have hsize : (Endian.big a.octets ^^^ Endian.big b.octets).size = 0 := by omega
    apply Endian.big_inj (by rw [a.length_octets, b.length_octets])
    exact Nat.xor_eq_zero_iff.1 (Nat.size_eq_zero.1 hsize)
  · intro h
    simp [in6_get_common_plen, h]

/-- `better` tells two addresses apart by their keys. -/
theorem better_iff (dst : Address) {a b : Address} (hab : a ≠ b) :
    (0 < better dst a b ↔ source_key dst b < source_key dst a) ∧
      (better dst a b < 0 ↔ source_key dst a < source_key dst b) := by
  have hpa := common_plen_le a dst
  have hpb := common_plen_le b dst
  have ha := scope_rank_bounds a
  have hb := scope_rank_bounds b
  have hd := scope_rank_bounds dst
  unfold better source_key scope_key
  by_cases hta : a.text = dst.text
  · have htb : b.text ≠ dst.text := fun h => hab (Address.ext_text (hta.trans h.symm))
    rw [if_pos hta, if_pos hta, if_neg htb]
    split <;> split <;> omega
  · rw [if_neg hta, if_neg hta]
    by_cases htb : b.text = dst.text
    · rw [if_pos htb, if_pos htb]
      split <;> split <;> omega
    · rw [if_neg htb, if_neg htb]
      dsimp only
      -- what is left is arithmetic on three ranks and two prefixes
      generalize scope_rank a = sa at *
      generalize scope_rank b = sb at *
      generalize scope_rank dst = sd at *
      split_ifs <;> omega

/-- What the rules take first has the larger key. -/
theorem source_key_lt {d x y : Address} (h : Prefers d x y) : source_key d y < source_key d x := by
  have hpx := common_plen_le x d
  have hpy := common_plen_le y d
  have hx := scope_rank_bounds x
  have hy := scope_rank_bounds y
  have hd := scope_rank_bounds d
  have htext : ∀ z : Address, z.text = d.text → z.octets = d.octets :=
    fun z hz => congrArg Address.octets (Address.ext_text hz)
  unfold source_key scope_key
  rcases h with ⟨hxd, hyd⟩ | ⟨hiff, hrules⟩
  · -- the destination itself has the best scope and all the bits
    have hsx := scope_rank_congr hxd
    have hfull := (common_plen_eq_iff x d).2 hxd
    have hpart : in6_get_common_plen y d ≠ 128 := fun h => hyd ((common_plen_eq_iff y d).1 h)
    have hty : y.text ≠ d.text := fun h => hyd (htext y h)
    rw [if_neg hty, hsx, if_pos le_rfl]
    split <;> split <;> omega
  · by_cases hxd : x.octets = d.octets
    · -- two texts of the destination, which no rule tells apart
      have hsx := scope_rank_congr hxd
      have hsy := scope_rank_congr (hiff.1 hxd)
      have hfx := (common_plen_eq_iff x d).2 hxd
      have hfy := (common_plen_eq_iff y d).2 (hiff.1 hxd)
      omega
    · -- neither is the destination: the scope counts before the prefix
      have htx : x.text ≠ d.text := fun h => hxd (htext x h)
      have hty : y.text ≠ d.text := fun h => hxd (hiff.2 (htext y h))
      rw [if_neg htx, if_neg hty]
      split <;> split <;> omega

/-- **The source is one the rules put no other before**, whatever the order of the candidates. -/
theorem best_source (dst : Address) {cs : List Address} (hne : cs ≠ []) :
    ∃ r ∈ cs, get_source_addr_from_candidate_set dst cs = r.text ∧
      ∀ b ∈ cs, source_key dst b ≤ source_key dst r := by
  have hnonneg : ∀ a ∈ cs, ∀ b ∈ cs, 0 ≤ better dst a b ↔ source_key dst b ≤ source_key dst a := by
    intro a _ b _
    by_cases hab : a = b
    · subst hab
      have hself : 0 ≤ better dst a a := by
        unfold better
        split_ifs <;> simp
      simp [hself]
    · obtain ⟨-, hneg⟩ := better_iff dst hab
      omega
  obtain ⟨r, rest, hsort, hr, hmax⟩ := best_first_head (source_key dst) hnonneg hne
  refine ⟨r, hr, ?_, hmax⟩
  unfold get_source_addr_from_candidate_set
  rw [hsort]

theorem better_consistent (dst : Address) (cs : List Address) : Consistent (better dst) cs :=
  consistent_of_key (source_key dst) (fun _ _ _ _ hab => (better_iff dst hab).1)
    fun _ _ _ _ hab => (better_iff dst hab).2

/-- Two global addresses of which one is native. -/
theorem cset_sort_global {x y : Address} (hx : in6_isgladdr x = true) (hy : in6_isgladdr y = true) :
    cset_sort x y = if in6_isaddr6to4 x = true then 0 else -1 := by
  unfold cset_sort
  cases in6_isaddr6to4 x <;> simp [hx, hy]

theorem cset_sort_local {x y : Address} (h : ¬(in6_isgladdr x = true ∧ in6_isgladdr y = true)) :
    cset_sort x y = (if in6_isgladdr y then 1 else 0) - (if in6_isgladdr x then 1 else 0) := by
  unfold cset_sort
  cases hx : in6_isgladdr x <;> cases hy : in6_isgladdr y <;> simp_all

/-- Global addresses in front, and of those the native ones. -/
structure InOrder (cmp : Address → Address → ℤ) (cs : List Address) : Prop where
  consistent : Consistent cmp cs
  global : ∀ x ∈ cs, ∀ y ∈ cs, in6_isgladdr x = true → in6_isgladdr y = false → cmp x y < 0
  native : ∀ x ∈ cs, ∀ y ∈ cs, in6_isgladdr x = true → in6_isgladdr y = true →
    in6_isaddr6to4 x = false → in6_isaddr6to4 y = true → cmp x y < 0

/-- No native global address stands beside another global one. -/
def Unmixed (cs : List Address) : Prop :=
  ∀ x ∈ cs, ∀ y ∈ cs, x ≠ y → in6_isgladdr x = true → in6_isgladdr y = true → in6_isaddr6to4 x = true

theorem cset_sort_eq {cs : List Address} (h : Unmixed cs) : ∀ x ∈ cs, ∀ y ∈ cs, x ≠ y →
    cset_sort x y = (if in6_isgladdr y then 1 else 0) - (if in6_isgladdr x then 1 else 0) := by
  intro x hx y hy hxy
  by_cases hboth : in6_isgladdr x = true ∧ in6_isgladdr y = true
  · rw [cset_sort_global hboth.1 hboth.2, if_pos (h x hx y hy hxy hboth.1 hboth.2)]
    simp [hboth.1, hboth.2]
  · exact cset_sort_local hboth

/-- **The comparator of the candidates is an order exactly where no native global address stands
beside another global one.** -/
theorem cset_sort_inOrder_iff (cs : List Address) : InOrder cset_sort cs ↔ Unmixed cs := by
  constructor
  · intro h x hx y hy hxy hgx hgy
    by_contra hnative
    -- the native one is put first, and asked the other way round it is not put last
    have hfirst : cset_sort x y = -1 := by rw [cset_sort_global hgx hgy, if_neg hnative]
    have hlast := (h.consistent.antisymm y hy x hx hxy.symm).2 (by omega)
    rw [cset_sort_global hgy hgx] at hlast
    split at hlast <;> omega
  · intro hall
    have hcmp := cset_sort_eq hall
    refine ⟨?_, ?_, ?_⟩
    · refine consistent_of_key (fun x => if in6_isgladdr x then (0 : ℤ) else 1) ?_ ?_
      · intro x hx y hy hxy
        rw [hcmp x hx y hy hxy]
        cases in6_isgladdr x <;> cases in6_isgladdr y <;> simp
      · intro x hx y hy hxy
        rw [hcmp x hx y hy hxy]
        cases in6_isgladdr x <;> cases in6_isgladdr y <;> simp
    · intro x hx y hy hgx hgy
      rw [cset_sort_local (by simp [hgy])]
      simp [hgx, hgy]
    · intro x hx y hy hgx hgy hnx hny
      have hxy : x ≠ y := by
        rintro rfl
        rw [hnx] at hny
        cases hny
      have hsix := hall x hx y hy hxy hgx hgy
      rw [hnx] at hsix
      cases hsix

/-- There the candidates come out with the global ones in front. -/
theorem construct_global_first (addr : Address) (plen : ℕ) (laddr : List (Address × ℤ))
    (h : Unmixed (source_candidates addr plen laddr)) :
    (construct_source_candidate_set addr plen laddr).Pairwise fun x y =>
      in6_isgladdr y = true → in6_isgladdr x = true := by
  let key (x : Address) : ℤ := if in6_isgladdr x then 1 else 0
  have hkey : ∀ x ∈ source_candidates addr plen laddr, ∀ y ∈ source_candidates addr plen laddr,
      0 ≤ -cset_sort x y ↔ key y ≤ key x := by
    intro x hx y hy
    by_cases hxy : x = y
    · subst hxy
      have hself : cset_sort x x ≤ 0 := by
        unfold cset_sort
        cases in6_isgladdr x <;> cases in6_isaddr6to4 x <;> simp
      simp [hself]
    · rw [cset_sort_eq h x hx y hy hxy]
      dsimp only [key]
      omega
  refine (best_first_pairwise key hkey).imp ?_
  intro x y hle hy
  by_contra hx
  simp [key, hx, hy] at hle

/-- **Source selection goes by an order throughout, whatever the order of the list**, for the choice
among the candidates; and for the candidates themselves exactly where no native global address stands
beside another global one. -/
theorem source_selection_iff (dst : Address) (cs : List Address) :
    (Consistent (better dst) cs ∧
        (cs ≠ [] → ∀ cs', cs'.Perm cs → ∃ r ∈ cs, get_source_addr_from_candidate_set dst cs' = r.text ∧
          ∀ b ∈ cs, ¬Prefers dst b r) ∧
        InOrder cset_sort cs) ↔ Unmixed cs := by
  rw [cset_sort_inOrder_iff]
  constructor
  · exact fun h => h.2.2
  · intro h
    refine ⟨better_consistent dst cs, ?_, h⟩
    intro hne cs' hperm
    have hne' : cs' ≠ [] := by
      rintro rfl
      exact hne hperm.nil_eq.symm
    obtain ⟨r, hr, hget, hmax⟩ := best_source dst hne'
    refine ⟨r, hperm.mem_iff.1 hr, hget, ?_⟩
    intro b hb hprefers
    have hlt := source_key_lt hprefers
    have hle := hmax b (hperm.mem_iff.2 hb)
    omega

def db8_1 : Address :=
  ⟨"2001:db8::1".toList, [0x20, 1, 0x0D, 0xB8, 0, 0, 0, 0, 0, 0, 0, 0, 0, 0, 0, 1], by decide +kernel⟩

def db8_2 : Address :=
  ⟨"2001:db8::2".toList, [0x20, 1, 0x0D, 0xB8, 0, 0, 0, 0, 0, 0, 0, 0, 0, 0, 0, 2], by decide +kernel⟩

/-- Of two native global addresses each comes before the other. -/
theorem cset_sort_both_first :
    cset_sort db8_1 db8_2 = -1 ∧ cset_sort db8_2 db8_1 = -1 ∧ ¬InOrder cset_sort [db8_1, db8_2] := by
  have hboth : cset_sort db8_1 db8_2 = -1 ∧ cset_sort db8_2 db8_1 = -1 := by decide +kernel
  have hne : db8_1 ≠ db8_2 := by decide
  refine ⟨hboth.1, hboth.2, ?_⟩
  intro h
  have hlast := (h.consistent.antisymm db8_1 (by simp) db8_2 (by simp) hne).2 (by rw [hboth.2]; decide)
  rw [hboth.1] at hlast
  cases hlast

end Wiry.Utils6
