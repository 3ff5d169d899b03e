/-
The two halves of an IPv6 address as text: what four groups in front and four groups behind are read
as, and where the run that is left out stands.

The text of an address may leave a run of zeros out anywhere. When the last
four groups are written in full behind a colon, the run is in front of them, so
that they are read as they stand (`drop_of_joined`); and when the first four
are written in full as well, nothing is left out (`hextets_joined`).
-/
import Wiry.Parse.Ipaddress

set_option autoImplicit false

namespace Wiry.Parse

open Ipaddress (hextets hextets_eq_ipv6 mem_join)
open Packet (Bytes octets_of)
open Repeat (groups16 hex render_ipv6)

/-! ## Runs of zeros -/

theorem zeros_infix_iff (gs : List ℕ) : [0, 0] <:+: gs ↔ ∃ i k, 2 ≤ k ∧ ZeroRun gs i k := by
  constructor
  · rintro ⟨front, back, rfl⟩
    refine ⟨front.length, 2, le_rfl, by simp, ?_⟩
    intro j hj hlt
    have hcases : j = front.length ∨ j = front.length + 1 := by omega
    rcases hcases with rfl | rfl <;> simp
  · rintro ⟨i, k, hk, hrun⟩
    rw [split_at_run hrun, ← Nat.add_sub_of_le hk, List.replicate_add]
    refine ⟨gs.take i, List.replicate (k - 2) 0 ++ gs.drop (i + (2 + (k - 2))), ?_⟩
    simp

theorem groups16_append {a : Bytes} (ha : a.length % 2 = 0) (b : Bytes) :
    groups16 (a ++ b) = groups16 a ++ groups16 b := by
  fun_induction groups16 a with
  | case1 x y rest ih =>
    simp only [List.cons_append, groups16, ih (by simp at ha; omega)]
  | case2 a h =>
    rcases a with _ | ⟨x, _ | ⟨y, rest⟩⟩
    · rfl
    · cases ha
    · exact absurd rfl (h x y rest)

/-- Four zero groups in front and a sixth that is not zero: the text starts with two colons. -/
theorem ntop_low_half {o : Bytes} {g4 g5 g6 g7 : ℕ} (ho : groups16 o = [g4, g5, g6, g7])
    (h5 : g5 ≠ 0) :
    "::".toList ++ (render_ipv6 (List.replicate 8 0 ++ o)).drop 2 =
      render_ipv6 (List.replicate 8 0 ++ o) := by
  have hgroups : groups16 (List.replicate 8 0 ++ o) = [0, 0, 0, 0, g4, g5, g6, g7] := by
    rw [groups16_append rfl, ho]
    rfl
  have hfour : ZeroRun [0, 0, 0, 0, g4, g5, g6, g7] 0 4 := by
    refine ⟨by simp, ?_⟩
    intro j _ hj
    have hcases : j = 0 ∨ j = 1 ∨ j = 2 ∨ j = 3 := by omega
    rcases hcases with rfl | rfl | rfl | rfl <;> exact ⟨0, rfl, rfl⟩
  rcases render_ipv6_cases (List.replicate 8 0 ++ o) with ⟨hshort, -⟩ |
    ⟨i, k, hk, hrun, hlongest, hfirst, hrender⟩
  · rw [hgroups] at hshort
    exact absurd (hshort 0 4 hfour) (by decide)
  · rw [hgroups] at hrun hlongest hfirst
    have hle := hlongest 0 4 hfour
    have hend := hrun.1
    -- a run of four or more stops before the sixth group
    have hsixth : i + k ≤ 5 ∨ 6 ≤ i := by
      by_contra hcross
      obtain ⟨x, hx, hzero⟩ := hrun.2 5 (by omega) (by omega)
      obtain rfl : g5 = x := Option.some.inj hx
      exact h5 (of_decide_eq_true hzero)
    simp only [List.length_cons, List.length_nil] at hend
    have hstart : i = 0 := by
      have hcases : k = 4 ∨ k = 5 := by omega
      rcases hcases with rfl | rfl
      · have := hfirst 0 hfour
        omega
      · omega
    rw [hrender, hstart]
    rfl

/-! ## Two colons -/

/-- No group is empty. -/
theorem groups_eq_none {t : List Char} (ht : t ≠ [])
    (h : (∃ rest, t = ':' :: rest) ∨ split_once t ≠ none) : groups t = none := by
  apply Option.eq_none_iff_forall_ne_some.2
  intro gs hgs
  rcases (groups_iff t gs.length).1 ⟨gs, hgs, rfl⟩ with ⟨hnil, -⟩ | hside
  · exact ht hnil
  · rcases h with ⟨rest, rfl⟩ | hsplit
    · obtain ⟨c, rest', heq, hc⟩ := hside.head_ne
      exact hc (List.cons.inj heq).1.symm
    · exact hsplit (hside.split_once_append []).2

/-- An address has two colons once. -/
theorem ipv6_colons_none {t : List Char} (ht : t ≠ [])
    (h : (∃ rest, t = ':' :: rest) ∨ split_once t ≠ none) : ipv6 ("::".toList ++ t) = none := by
  have hne : "::".toList ++ t ≠ [':', ':'] := by
    intro heq
    apply ht
    simpa using heq
  have hsplit : split_once ("::".toList ++ t) = some ([], t) := rfl
  unfold ipv6
  rw [if_neg hne, hsplit]
  dsimp only
  rw [groups_eq_none ht h]
  simp [groups]

/-! ## Four groups behind a prefix -/

/-- What the checked digits add up to is their value. -/
theorem foldl_push_digit_value {max v x : ℕ} {ds : List Char}
    (h : ds.foldl (push_digit max 16) (some v) = some x) : x = value 16 v ds := by
  induction ds generalizing v with
  | nil => exact (Option.some.inj h).symm
  | cons c ds ih =>
    rw [List.foldl_cons] at h
    cases hc : to_digit 16 c with
    | none =>
      simp [push_digit, hc, foldl_push_digit_none] at h
    | some d =>
      by_cases hfits : v * 16 + d ≤ max
      · simp only [push_digit, hc, Option.bind_some, if_pos hfits] at h
        rw [ih h]
        simp [value, hc]
      · simp [push_digit, hc, hfits, foldl_push_digit_none] at h

/-- One to four hex digits are a group. -/
theorem chunk_groups_digits {p : List Char} (hne : p ≠ []) (hlen : p.length ≤ 4)
    (hp : ∀ c ∈ p, hex_digit c = true) (last : Bool) : chunk_groups last p = some [value 16 0 p] := by
  have hskip := skip_plus_of_digits hp
  have htext := text_len_of_digits (p := p) (by rw [hskip]; exact hp)
  have hdot : '.' ∉ p := fun h => (hex_digit_plain (hp _ h)).2.1 rfl
  have hsome : (from_str_radix 65535 16 p).isSome = true :=
    isSome_of_hex_digits (by decide) hlen ⟨p, hne, hp, trivial, .inl rfl⟩
  obtain ⟨x, hx⟩ := Option.isSome_iff_exists.1 hsome
  have hvalue : x = value 16 0 p := by
    unfold from_str_radix at hx
    rw [hskip, if_neg hne] at hx
    exact foldl_push_digit_value hx
  unfold chunk_groups
  rw [if_neg (by simp [hdot]), if_neg (by simp [hne, htext, hlen]), hx, hvalue]
  rfl

/-- No piece that is accepted is empty. -/
theorem nil_notMem_of_chunks {cs : List (List Char)} {gs : List ℕ} (h : chunks_groups cs = some gs) :
    [] ∉ cs := by
  have hnil : ∀ last, chunk_groups last [] = none := by
    intro last
    simp [chunk_groups]
  fun_induction chunks_groups cs generalizing gs with
  | case1 => simp
  | case2 c =>
    intro hmem
    rw [← List.mem_singleton.1 hmem, hnil] at h
    cases h
  | case3 c cs hne ih =>
    obtain ⟨v, hv, h⟩ := Option.bind_eq_some_iff.1 h
    obtain ⟨vs, hvs, -⟩ := Option.map_eq_some_iff.1 h
    intro hmem
    rcases List.mem_cons.1 hmem with rfl | hmem
    · rw [hnil] at hv
      cases hv
    · exact ih hvs hmem

/-- The last chunks are the last groups. -/
theorem chunks_groups_append {cs ds : List (List Char)} {gs all : List ℕ} (hne : ds ≠ [])
    (hds : chunks_groups ds = some gs) (h : chunks_groups (cs ++ ds) = some all) :
    ∃ front, all = front ++ gs := by
  induction cs generalizing all with
  | nil => exact ⟨[], Option.some.inj (h.symm.trans hds)⟩
  | cons c cs ih =>
    rw [List.cons_append, chunks_groups_cons c (by simp [hne])] at h
    obtain ⟨v, -, h⟩ := Option.bind_eq_some_iff.1 h
    obtain ⟨vs, hvs, rfl⟩ := Option.map_eq_some_iff.1 h
    obtain ⟨front, rfl⟩ := ih hvs
    exact ⟨v ++ front, by simp⟩

/-- The lower half of eight groups. -/
theorem drop_address {front gs : List ℕ} (h : front.length = 4) :
    ((front ++ gs).flatMap (octets_of 2)).drop 8 = gs.flatMap (octets_of 2) := by
  have hlen : (front.flatMap (octets_of 2)).length = 8 := by
    rw [List.length_flatMap]
    simp [Packet.length_octets_of, h]
  rw [List.flatMap_append, List.drop_left' hlen]

theorem splitOn_two_colons (a b : List Char) :
    (a ++ ':' :: ':' :: b).splitOn ':' = a.splitOn ':' ++ [] :: b.splitOn ':' := by
  rw [List.splitOn_append_cons_self, ← List.nil_append (':' :: b), List.splitOn_append_cons_self]
  simp

variable {pre iid q t : List Char} {gs all : List ℕ} {addr : Bytes}

/-- The two colons in what is joined stand in the prefix. -/
theorem chunks_behind_colons {head_s tail_s : List Char} (hnil : [] ∉ iid.splitOn ':')
    (h : q ++ ':' :: iid = head_s ++ ':' :: ':' :: tail_s) :
    ∃ cs, tail_s.splitOn ':' = cs ++ iid.splitOn ':' := by
  have hchunks := congrArg (List.splitOn ':') h
  rw [List.splitOn_append_cons_self, splitOn_two_colons] at hchunks
  rcases List.append_eq_append_iff.1 hchunks with ⟨as, -, has⟩ | ⟨_ | ⟨c, cs⟩, -, hcs⟩
  · exact absurd (by rw [has]; simp) hnil
  · exact absurd (by rw [← List.nil_append (iid.splitOn ':'), ← hcs]; simp) hnil
  · exact ⟨cs, (List.cons.inj hcs).2⟩

/-- The groups of a text end in the groups of its last pieces. -/
theorem groups_ends (hiid : chunks_groups (iid.splitOn ':') = some gs)
    (ht : ∃ cs, t.splitOn ':' = cs ++ iid.splitOn ':') (h : groups t = some all) :
    ∃ front, all = front ++ gs := by
  obtain ⟨cs, hcs⟩ := ht
  unfold groups at h
  split at h
  · rename_i hempty
    -- a side left empty has one chunk, and that is empty
    exfalso
    apply nil_notMem_of_chunks hiid
    have hlast := List.getLast_mem (List.splitOn_ne_nil ':' iid)
    have hin : (iid.splitOn ':').getLast (List.splitOn_ne_nil ':' iid) ∈ t.splitOn ':' := by
      rw [hcs]
      exact List.mem_append_right cs hlast
    rw [hempty, List.splitOn_nil, List.mem_singleton] at hin
    rwa [hin] at hlast
  · rw [hcs] at h
    exact chunks_groups_append (List.splitOn_ne_nil ':' iid) hiid h

/-- **Four groups behind a prefix are the low 64 bits**, however the prefix is written. -/
theorem drop_of_joined (hiid : groups iid = some gs) (hgs : gs.length = 4)
    (hpre : pre.getLast? = some ':') (haddr : ipv6 (pre ++ iid) = some addr) :
    addr.drop 8 = gs.flatMap (octets_of 2) := by
  -- The text ends in the identifier's groups, so the address does; the cases are how it is split.
  obtain ⟨q, rfl⟩ := List.getLast?_eq_some_iff.1 hpre
  have hne : iid ≠ [] := by
    rintro rfl
    rw [← Option.some.inj hiid] at hgs
    cases hgs
  have hchunks : chunks_groups (iid.splitOn ':') = some gs := by
    unfold groups at hiid
    rwa [if_neg hne] at hiid
  have htext : q ++ [':'] ++ iid = q ++ ':' :: iid := List.append_assoc q [':'] iid
  rw [htext] at haddr
  unfold ipv6 at haddr
  split at haddr
  · rename_i htwo
    have hbehind := @chunks_behind_colons iid q [] [] (nil_notMem_of_chunks hchunks) htwo
    obtain ⟨front, hfront⟩ := groups_ends hchunks hbehind rfl
    rw [(List.append_eq_nil_iff.1 hfront.symm).2] at hgs
    cases hgs
  -- Without a double colon all eight groups are listed, and the last four are the identifier's.
  · cases honce : split_once (q ++ ':' :: iid) with
    | none =>
      simp only [honce] at haddr
      obtain ⟨head, hhead, haddr⟩ := Option.bind_eq_some_iff.1 haddr
      obtain ⟨front, rfl⟩ := groups_ends hchunks ⟨_, List.splitOn_append_cons_self q iid⟩ hhead
      split at haddr
      · cases haddr
      · rename_i hlen
        have hfront : front.length = 4 := by
          simp at hlen
          omega
        rw [← Option.some.inj haddr]
        unfold address
        rw [show 8 - (front ++ gs).length - ([] : List ℕ).length = 0 by simp; omega]
        simpa using drop_address hfront
    -- With one it stands in front, so the groups behind it end in the identifier's.
    | some p =>
      obtain ⟨head_s, tail_s⟩ := p
      simp only [honce] at haddr
      obtain ⟨head, -, haddr⟩ := Option.bind_eq_some_iff.1 haddr
      obtain ⟨tail, htail, haddr⟩ := Option.bind_eq_some_iff.1 haddr
      have hbehind := chunks_behind_colons (nil_notMem_of_chunks hchunks) (split_once_some honce)
      obtain ⟨front, rfl⟩ := groups_ends hchunks hbehind htail
      split at haddr
      · cases haddr
      · rename_i hlen
        rw [List.length_append, hgs] at hlen
        rw [← Option.some.inj haddr]
        unfold address
        rw [← List.append_assoc]
        apply drop_address
        simp
        omega

/-- Four pieces of at most four digits are four groups. -/
theorem groups_of_four {c0 c1 c2 c3 : List Char}
    (h : ∀ c ∈ [c0, c1, c2, c3], c ≠ [] ∧ c.length ≤ 4 ∧ ∀ x ∈ c, hex_digit x = true) :
    groups (c0 ++ ':' :: (c1 ++ ':' :: (c2 ++ ':' :: c3))) =
      some [value 16 0 c0, value 16 0 c1, value 16 0 c2, value 16 0 c3] := by
  have hchunk : ∀ c ∈ [c0, c1, c2, c3], ∀ last, chunk_groups last c = some [value 16 0 c] :=
    fun c hc last => chunk_groups_digits (h c hc).1 (h c hc).2.1 (h c hc).2.2 last
  have hfree : ∀ c ∈ [c0, c1, c2, c3], ':' ∉ c :=
    fun c hc hcolon => (hex_digit_plain ((h c hc).2.2 _ hcolon)).1 rfl
  simp only [List.forall_mem_cons] at hchunk hfree
  obtain ⟨h0, h1, h2, h3, -⟩ := hchunk
  obtain ⟨hfree0, hfree1, hfree2, hfree3, -⟩ := hfree
  unfold groups
  rw [if_neg (by simp), List.splitOn_append_cons_self_of_not_mem hfree0,
    List.splitOn_append_cons_self_of_not_mem hfree1,
    List.splitOn_append_cons_self_of_not_mem hfree2, List.splitOn_eq_singleton hfree3]
  simp [chunks_groups, h0, h1, h2, h3]

/-- Four groups written out, a colon and four groups behind it: the two halves of an address. -/
theorem hextets_joined {p o : Bytes} {iid : List Char} (hp : p.length = 8) (ho : o.length = 8)
    (hiid : groups iid = some (groups16 o)) (hplain : ∀ x ∈ iid, x = ':' ∨ hex_digit x = true) :
    hextets (join (groups16 p) ++ ':' :: iid) = some (p ++ o) := by
  obtain ⟨hlenp, hflatp⟩ := groups16_octets (b := p) (by omega)
  obtain ⟨hleno, hflato⟩ := groups16_octets (b := o) (by omega)
  have hchunks : chunks_groups (iid.splitOn ':') = some (groups16 o) := by
    unfold groups at hiid
    split at hiid
    · rw [← Option.some.inj hiid, ho] at hleno
      cases hleno
    · exact hiid
  -- No group's text holds a colon, so the pieces are the groups.
  have hfree : ∀ l ∈ (groups16 p).map hex, ':' ∉ l := by
    intro l hl hcolon
    obtain ⟨g, -, rfl⟩ := List.mem_map.1 hl
    exact (mem_hex hcolon).1 rfl
  have hne : groups16 p ≠ [] := List.ne_nil_of_length_eq_add_one (hlenp.trans (by rw [hp]))
  have hfront : ∀ gs : List ℕ, (∀ g ∈ gs, g < 2 ^ 16) →
      chunks_groups (gs.map hex ++ iid.splitOn ':') = some (gs ++ groups16 o) := by
    intro gs hgs
    induction gs with
    | nil => exact hchunks
    | cons g gs ih =>
      obtain ⟨hg, hgs⟩ := List.forall_mem_cons.1 hgs
      rw [List.map_cons, List.cons_append,
        chunks_groups_cons _ (List.append_ne_nil_of_right_ne_nil _ (List.splitOn_ne_nil ':' iid)),
        chunk_groups_hex hg, ih hgs]
      rfl
  have hgroups : groups (join (groups16 p) ++ ':' :: iid) = some (groups16 p ++ groups16 o) := by
    unfold groups
    rw [if_neg (by simp), List.splitOn_append_cons_self, join,
      List.splitOn_intercalate ':' hfree (by simpa using hne)]
    exact hfront _ (groups16_lt p)
  have hlen : (groups16 p ++ groups16 o).length = 8 := by
    rw [List.length_append]
    omega
  -- Eight groups leave no room for a double colon.
  have honce : split_once (join (groups16 p) ++ ':' :: iid) = none := by
    rcases (groups_iff _ 8).1 ⟨_, hgroups, hlen⟩ with ⟨-, hzero⟩ | hside
    · cases hzero
    · exact (hside.split_once_append []).2
  have htwo : join (groups16 p) ++ ':' :: iid ≠ [':', ':'] := by
    intro heq
    rw [heq] at honce
    cases honce
  rw [hextets_eq_ipv6]
  · unfold ipv6
    rw [if_neg htwo, honce]
    dsimp only
    rw [hgroups]
    simp [hlen, address, hflatp, hflato]
  · intro c hc
    rcases List.mem_append.1 hc with hc | hc
    · exact mem_join hc
    · rcases List.mem_cons.1 hc with rfl | hc
      · exact .inl rfl
      · exact hplain c hc

end Wiry.Parse
