/-
IPv6 addresses as text: `ipv6` and `ipv4` of `crates/wiry-core/src/parse.rs`, and what `render_ipv6`
of `show.rs` writes.

A Rust `str` is a list of characters; what counts its octets counts them as UTF-8 takes them.
-/
import Mathlib.Algebra.BigOperators.Group.List.Basic
import Mathlib.Tactic.IntervalCases
import Wiry.Lib.LongestRun
import Wiry.Repeat.Group

set_option autoImplicit false

namespace Wiry.Parse

open LongestRun
open Packet (Bytes octets_of)
open Repeat (groups16 hex render_ipv6 zero_run)

/-! ## The parser -/

/-- `str::len`. -/
def text_len (cs : List Char) : ℕ := (cs.map Char.utf8Size).sum

/-- `char::to_digit`. -/
def to_digit (radix : ℕ) (c : Char) : Option ℕ :=
  let value :=
    if '0' ≤ c ∧ c ≤ '9' then some (c.toNat - 48)
    else if 'a' ≤ c ∧ c ≤ 'f' then some (c.toNat - 87)
    else if 'A' ≤ c ∧ c ≤ 'F' then some (c.toNat - 55)
    else none
  value.filter fun d => d < radix

/-- One digit more, no larger than the type holds. -/
def push_digit (max radix : ℕ) (v : Option ℕ) (c : Char) : Option ℕ :=
  v.bind fun v => (to_digit radix c).bind fun d =>
    if v * radix + d ≤ max then some (v * radix + d) else none

/-- A sign in front of an unsigned number. -/
def skip_plus : List Char → List Char
  | '+' :: rest => rest
  | src => src

/-- `from_str_radix` of an unsigned type that holds numbers up to `max`. -/
def from_str_radix (max radix : ℕ) (src : List Char) : Option ℕ :=
  if skip_plus src = [] then none else (skip_plus src).foldl (push_digit max radix) (some 0)

/-- `ipv4`: four parts of at most three octets each. -/
def ipv4 (s : List Char) : Option Bytes :=
  let parts := (s.splitOn '.').mapM fun part =>
    if part = [] ∨ text_len part > 3 then none else (from_str_radix 255 10 part).map UInt8.ofNat
  parts.bind fun out => if out.length = 4 then some out else none

/-- One chunk between colons: the last may be an IPv4 address. -/
def chunk_groups (last : Bool) (c : List Char) : Option (List ℕ) :=
  if last ∧ '.' ∈ c then (ipv4 c).map groups16
  else if c = [] ∨ text_len c > 4 then none
  else (from_str_radix 65535 16 c).map fun v => [v]

def chunks_groups : List (List Char) → Option (List ℕ)
  | [] => some []
  | [c] => chunk_groups true c
  | c :: cs => (chunk_groups false c).bind fun v => (chunks_groups cs).map fun vs => v ++ vs

/-- `groups`. -/
def groups (part : List Char) : Option (List ℕ) :=
  if part = [] then some [] else chunks_groups (part.splitOn ':')

/-- `str::split_once` at two colons. -/
def split_once : List Char → Option (List Char × List Char)
  | ':' :: ':' :: rest => some ([], rest)
  | c :: rest => (split_once rest).map fun p => (c :: p.1, p.2)
  | [] => none

/-- Eight groups as the octets of an address. -/
def address (head tail : List ℕ) : Bytes :=
  (head ++ List.replicate (8 - head.length - tail.length) 0 ++ tail).flatMap (octets_of 2)

/-- `ipv6`: two colons stand for at least one group. -/
def ipv6 (s : List Char) : Option Bytes :=
  if s = [':', ':'] then some (List.replicate 16 0)
  else
    match split_once s with
    | none => (groups s).bind fun head => if head.length ≠ 8 then none else some (address head [])
    | some (head_s, tail_s) =>
      (groups head_s).bind fun head => (groups tail_s).bind fun tail =>
        if head.length + tail.length > 7 then none else some (address head tail)

/-! ## Canonical text -/

/-- The digits of a group, lower case. -/
def digits16 : List Char := "0123456789abcdef".toList

/-- A group as RFC 5952 §4.1 and §4.3 write it: lower case, and no zero in front of another digit. -/
structure Spelled (x : ℕ) (t : List Char) : Prop where
  digits : ∀ c ∈ t, c ∈ digits16
  value : t.foldl (fun v c => v * 16 + digits16.idxOf c) 0 = x
  shortest : t = ['0'] ∨ ∃ c rest, t = c :: rest ∧ c ≠ '0'

/-- Groups written out, a colon between two of them. -/
def Spells (gs : List ℕ) (text : List Char) : Prop :=
  ∃ ts, List.Forall₂ Spelled gs ts ∧ text = [':'].intercalate ts

/-- The groups from `i` on that are zero, `k` of them. -/
abbrev ZeroRun (gs : List ℕ) (i k : ℕ) : Prop := IsRun (fun x => decide (x = 0)) gs i k

/-- The text of RFC 5952 §4.2: the first longest run of at least two zero groups is left out, and
only that one. -/
def Canonical (gs : List ℕ) (text : List Char) : Prop :=
  (∀ i k, ZeroRun gs i k → k < 2) ∧ Spells gs text ∨
    ∃ i k before after, 2 ≤ k ∧ ZeroRun gs i k ∧ (∀ j m, ZeroRun gs j m → m ≤ k) ∧
      (∀ j, ZeroRun gs j k → i ≤ j) ∧ Spells (gs.take i) before ∧ Spells (gs.drop (i + k)) after ∧
      text = before ++ [':', ':'] ++ after

/-! ## Groups -/

theorem digitChar_mem {k : ℕ} (hk : k < 16) : Nat.digitChar k ∈ digits16 := by
  interval_cases k <;> decide

theorem to_digit_digitChar {k : ℕ} (hk : k < 16) : to_digit 16 (Nat.digitChar k) = some k := by
  interval_cases k <;> decide

theorem idxOf_digitChar {k : ℕ} (hk : k < 16) : digits16.idxOf (Nat.digitChar k) = k := by
  interval_cases k <;> decide

/-- The last digit comes off the end. -/
theorem hex_eq (n : ℕ) :
    hex n = if n < 16 then [Nat.digitChar n] else hex (n / 16) ++ [Nat.digitChar (n % 16)] :=
  Nat.toDigits_eq_if (by decide)

theorem hex_ne_nil (n : ℕ) : hex n ≠ [] := Nat.toDigits_ne_nil

/-- The text of a group spells it, without leading zeros. -/
theorem spelled_hex (n : ℕ) : Spelled n (hex n) := by
  induction n using Nat.strongRecOn with
  | ind n ih =>
    rw [hex_eq]
    split
    · rename_i hn
      refine ⟨?_, ?_, ?_⟩
      · simpa using digitChar_mem hn
      · simpa using idxOf_digitChar hn
      · by_cases hzero : n = 0
        · left
          rw [hzero]
          rfl
        · right
          exact ⟨_, _, rfl, by simpa using hzero⟩
    · rename_i hn
      have hmod := Nat.mod_lt n (show 0 < 16 by decide)
      obtain ⟨hdigits, hvalue, hshort⟩ := ih (n / 16) (by omega)
      refine ⟨?_, ?_, ?_⟩
      · intro c hc
        rcases List.mem_append.1 hc with hc | hc
        · exact hdigits c hc
        · rw [List.mem_singleton.1 hc]
          exact digitChar_mem hmod
      · rw [List.foldl_append, hvalue]
        simp only [List.foldl_cons, List.foldl_nil, idxOf_digitChar hmod]
        omega
      · right
        rcases hshort with hshort | ⟨c, rest, hshort, hc⟩
        · -- a quotient that is not zero does not start with one
          rw [hshort] at hvalue
          have hzero : (0 : ℕ) = n / 16 := hvalue
          omega
        · rw [hshort]
          exact ⟨c, _, rfl, hc⟩

theorem digits16_eq : digits16 =
    ['0', '1', '2', '3', '4', '5', '6', '7', '8', '9', 'a', 'b', 'c', 'd', 'e', 'f'] :=
  String.toList_ofList

/-- What a group's text is not. -/
theorem digits16_plain : ∀ c ∈ digits16, c ≠ ':' ∧ c ≠ '.' ∧ c ≠ '+' ∧ c.utf8Size = 1 := by
  intro c hc
  have hall : ['0', '1', '2', '3', '4', '5', '6', '7', '8', '9', 'a', 'b', 'c', 'd', 'e', 'f'].all
      (fun c => c ≠ ':' ∧ c ≠ '.' ∧ c ≠ '+' ∧ c.utf8Size = 1) = true := by decide
  rw [digits16_eq] at hc
  exact of_decide_eq_true (List.all_eq_true.1 hall c hc)

theorem mem_hex {n : ℕ} {c : Char} (hc : c ∈ hex n) : c ≠ ':' ∧ c ≠ '.' ∧ c ≠ '+' ∧ c.utf8Size = 1 :=
  digits16_plain c ((spelled_hex n).digits c hc)

theorem text_len_hex {n : ℕ} (hn : n < 2 ^ 16) : text_len (hex n) ≤ 4 := by
  have hlen : (hex n).length ≤ 4 := (Nat.length_toDigits_le_iff (by decide) (by decide)).2 hn
  have hsize : (hex n).map Char.utf8Size = List.replicate (hex n).length 1 := by
    rw [← List.map_const']
    exact List.map_congr_left fun c hc => (mem_hex hc).2.2.2
  unfold text_len
  rw [hsize, List.sum_replicate, nsmul_one]
  exact hlen

/-- The digits of a group push to its value. -/
theorem foldl_hex {n : ℕ} (hn : n ≤ 65535) :
    (hex n).foldl (push_digit 65535 16) (some 0) = some n := by
  induction n using Nat.strongRecOn with
  | ind n ih =>
    rw [hex_eq]
    split
    · rename_i hlow
      simp [push_digit, to_digit_digitChar hlow, hn]
    · rename_i hhigh
      have hsum : n / 16 * 16 + n % 16 = n := Nat.div_add_mod' n 16
      rw [List.foldl_append, ih (n / 16) (by omega) (by omega)]
      simp [push_digit, to_digit_digitChar (Nat.mod_lt n (show 0 < 16 by decide)), hsum, hn]

theorem from_str_radix_hex {n : ℕ} (hn : n ≤ 65535) : from_str_radix 65535 16 (hex n) = some n := by
  have hplus : '+' ∉ hex n := fun h => (mem_hex h).2.2.1 rfl
  have hskip : skip_plus (hex n) = hex n := by
    unfold skip_plus
    split
    · rename_i rest heq
      exact absurd (by simp [heq]) hplus
    · rfl
  unfold from_str_radix
  rw [hskip, if_neg (hex_ne_nil n), foldl_hex hn]

theorem chunk_groups_hex {n : ℕ} (hn : n < 2 ^ 16) (last : Bool) :
    chunk_groups last (hex n) = some [n] := by
  have hdot : ¬ (last = true ∧ '.' ∈ hex n) := fun h => (mem_hex h.2).2.1 rfl
  have hlen := text_len_hex hn
  unfold chunk_groups
  rw [if_neg hdot, if_neg (by simp [hex_ne_nil]; omega), from_str_radix_hex (by omega)]
  rfl

/-- And so do the texts of several. -/
theorem chunks_groups_hex {gs : List ℕ} (hgs : ∀ g ∈ gs, g < 2 ^ 16) :
    chunks_groups (gs.map hex) = some gs := by
  induction gs with
  | nil => rfl
  | cons g gs ih =>
    obtain ⟨hg, hgs⟩ := List.forall_mem_cons.1 hgs
    cases gs with
    | nil => exact chunk_groups_hex hg true
    | cons h gs =>
      have ih := ih hgs
      simp only [List.map_cons] at ih ⊢
      rw [chunks_groups, chunk_groups_hex hg, ih]
      · rfl
      · exact nofun

/-! ## Groups and colons -/

/-- `render_ipv6`'s groups between colons. -/
def join (gs : List ℕ) : List Char := [':'].intercalate (gs.map hex)

theorem join_cons_cons (g h : ℕ) (gs : List ℕ) : join (g :: h :: gs) = hex g ++ ':' :: join (h :: gs) := by
  simp [join]

theorem join_singleton (g : ℕ) : join [g] = hex g := by simp [join]

/-- Joined groups spell the groups. -/
theorem spells_join (gs : List ℕ) : Spells gs (join gs) := by
  refine ⟨gs.map hex, ?_, rfl⟩
  induction gs with
  | nil => exact .nil
  | cons g gs ih => exact .cons (spelled_hex g) ih

/-- They do not start with a colon. -/
theorem head_join (g : ℕ) (gs : List ℕ) : ∃ c rest, join (g :: gs) = c :: rest ∧ c ≠ ':' := by
  obtain ⟨c, rest, hhex⟩ := List.exists_cons_of_ne_nil (hex_ne_nil g)
  have hc : c ≠ ':' := (@mem_hex g c (by rw [hhex]; exact List.mem_cons_self)).1
  cases gs with
  | nil => exact ⟨c, rest, by rw [join_singleton, hhex], hc⟩
  | cons h gs => exact ⟨c, _, by rw [join_cons_cons, hhex]; rfl, hc⟩

/-- Groups joined by colons are read back. -/
theorem groups_join {gs : List ℕ} (hgs : ∀ g ∈ gs, g < 2 ^ 16) : groups (join gs) = some gs := by
  cases gs with
  | nil => rfl
  | cons g gs =>
    obtain ⟨c, rest, hjoin, -⟩ := head_join g gs
    have hne : join (g :: gs) ≠ [] := by
      rw [hjoin]
      exact List.cons_ne_nil _ _
    have hfree : ∀ l ∈ (g :: gs).map hex, ':' ∉ l := by
      intro l hl hcolon
      obtain ⟨n, -, rfl⟩ := List.mem_map.1 hl
      exact (mem_hex hcolon).1 rfl
    unfold groups
    rw [if_neg hne, join, List.splitOn_intercalate ':' hfree (by simp)]
    exact chunks_groups_hex hgs

theorem split_once_cons {c : Char} {s : List Char} (h : c ≠ ':' ∨ ∀ rest, s ≠ ':' :: rest) :
    split_once (c :: s) = (split_once s).map fun p => (c :: p.1, p.2) := by
  rw [split_once]
  intro rest hc hs
  rcases h with h | h
  · exact h hc
  · exact h rest hs

/-- A chunk without a colon is passed over. -/
theorem split_once_append {t : List Char} (ht : ∀ c ∈ t, c ≠ ':') (s : List Char) :
    split_once (t ++ s) = (split_once s).map fun p => (t ++ p.1, p.2) := by
  induction t with
  | nil => simp
  | cons c t ih =>
    obtain ⟨hc, ht⟩ := List.forall_mem_cons.1 ht
    rw [List.cons_append, split_once_cons (.inl hc), ih ht, Option.map_map]
    rfl

/-- They hold no double colon. -/
theorem split_once_join (gs : List ℕ) : split_once (join gs) = none := by
  induction gs with
  | nil => rfl
  | cons g gs ih =>
    cases gs with
    | nil =>
      rw [join_singleton, ← List.append_nil (hex g), split_once_append fun c hc => (mem_hex hc).1]
      rfl
    | cons h gs =>
      obtain ⟨c, rest, hjoin, hc⟩ := head_join h gs
      rw [join_cons_cons, split_once_append fun c hc => (mem_hex hc).1, split_once_cons, ih]
      · rfl
      · right
        intro rest' heq
        rw [hjoin] at heq
        exact hc (List.cons.inj heq).1

/-- In front of a double colon they are what the split puts in front. -/
theorem split_once_join_append (gs : List ℕ) (s : List Char) :
    split_once (join gs ++ [':', ':'] ++ s) = some (join gs, s) := by
  induction gs with
  | nil => rfl
  | cons g gs ih =>
    cases gs with
    | nil =>
      rw [join_singleton, List.append_assoc, split_once_append fun c hc => (mem_hex hc).1]
      simp [split_once]
    | cons h gs =>
      obtain ⟨c, rest, hjoin, hc⟩ := head_join h gs
      rw [join_cons_cons, List.append_assoc, List.append_assoc,
        split_once_append fun c hc => (mem_hex hc).1, List.cons_append, split_once_cons,
        ← List.append_assoc, ih]
      · rfl
      · right
        intro rest' heq
        rw [hjoin, List.cons_append] at heq
        exact hc (List.cons.inj heq).1

/-- Only no groups join to nothing. -/
theorem join_eq_nil {gs : List ℕ} (h : join gs = []) : gs = [] := by
  cases gs with
  | nil => rfl
  | cons g gs =>
    obtain ⟨c, rest, hjoin, -⟩ := head_join g gs
    rw [hjoin] at h
    cases h

/-- Eight groups joined are the address. -/
theorem ipv6_join {gs : List ℕ} (hgs : ∀ g ∈ gs, g < 2 ^ 16) (hlen : gs.length = 8) :
    ipv6 (join gs) = some (gs.flatMap (octets_of 2)) := by
  have hsplit := split_once_join gs
  have hne : join gs ≠ [':', ':'] := by
    intro heq
    rw [heq] at hsplit
    cases hsplit
  unfold ipv6
  rw [if_neg hne, hsplit]
  dsimp only
  rw [groups_join hgs]
  simp [hlen, address]

/-- Groups around a double colon are the address with the missing groups zero. -/
theorem ipv6_join_elided {pre post : List ℕ} (hpre : ∀ g ∈ pre, g < 2 ^ 16)
    (hpost : ∀ g ∈ post, g < 2 ^ 16) (hlen : pre.length + post.length ≤ 7) :
    ipv6 (join pre ++ [':', ':'] ++ join post) = some (address pre post) := by
  unfold ipv6
  split
  · -- only an address of nothing but zeros is written as two colons
    rename_i heq
    have hlens := congrArg List.length heq
    simp only [List.length_append, List.length_cons, List.length_nil] at hlens
    have hfront : pre = [] := join_eq_nil (List.eq_nil_of_length_eq_zero (by omega))
    have hback : post = [] := join_eq_nil (List.eq_nil_of_length_eq_zero (by omega))
    rw [hfront, hback]
    rfl
  · rw [split_once_join_append]
    dsimp only
    rw [groups_join hpre, groups_join hpost]
    simp
    omega

/-! ## The renderer -/

/-- `zero_run` is the pass for the first longest run. -/
theorem zero_run_eq (gs : List ℕ) (i : ℕ) (best cur : ℕ × ℕ) :
    zero_run gs i (best, cur) =
      let s := (gs.zipIdx i).foldl (step fun x => decide (x = 0)) ⟨⟨best.1, best.2⟩, ⟨cur.1, cur.2⟩⟩
      (s.best.start, s.best.len) := by
  induction gs generalizing i best cur with
  | nil => rfl
  | cons g gs ih =>
    rw [zero_run, List.zipIdx_cons, List.foldl_cons]
    split
    · rename_i hg
      rw [ih]
      have hstep : step (fun x => decide (x = 0)) ⟨⟨best.1, best.2⟩, ⟨cur.1, cur.2⟩⟩ (g, i) =
          ⟨if cur.2 + 1 > best.2 then ⟨if cur.2 = 0 then i else cur.1, cur.2 + 1⟩
            else ⟨best.1, best.2⟩, ⟨if cur.2 = 0 then i else cur.1, cur.2 + 1⟩⟩ := by
        simp [step, hg]
      rw [hstep]
      dsimp only
      split <;> rfl
    · rename_i hg
      rw [ih]
      simp [step, hg]

/-- Groups have sixteen bits. -/
theorem groups16_lt (b : Bytes) : ∀ g ∈ groups16 b, g < 2 ^ 16 := by
  fun_induction groups16 b with
  | case1 x y rest ih =>
    have hx := x.toNat_lt
    have hy := y.toNat_lt
    exact List.forall_mem_cons.2 ⟨by omega, ih⟩
  | case2 b h => exact nofun

/-- The groups of an even string, and the string back from them. -/
theorem groups16_octets {b : Bytes} (hb : b.length % 2 = 0) :
    (groups16 b).length = b.length / 2 ∧ (groups16 b).flatMap (octets_of 2) = b := by
  fun_induction groups16 b with
  | case1 x y rest ih =>
    have hx := x.toNat_lt
    have hy := y.toNat_lt
    obtain ⟨hlen, hflat⟩ := ih (by simp at hb; omega)
    -- the two octets of a word, read back from their number
    have hhigh : UInt8.ofNat ((x.toNat * 256 + y.toNat) / 2 ^ (8 * 1)) = x := by
      apply UInt8.toNat_inj.1
      rw [UInt8.toNat_ofNat']
      omega
    have hlow : UInt8.ofNat ((x.toNat * 256 + y.toNat) / 2 ^ (8 * 0)) = y := by
      apply UInt8.toNat_inj.1
      rw [UInt8.toNat_ofNat']
      omega
    constructor
    · simp only [List.length_cons, hlen]
      omega
    · rw [List.flatMap_cons, hflat, octets_of, octets_of, hhigh, hlow]
      rfl
  | case2 b h =>
    rcases b with _ | ⟨x, _ | ⟨y, rest⟩⟩
    · exact ⟨rfl, rfl⟩
    · cases hb
    · exact absurd rfl (h x y rest)

/-- What `render_ipv6` writes, by the run it leaves out. -/
theorem render_ipv6_cases (b : Bytes) :
    ((∀ i k, ZeroRun (groups16 b) i k → k < 2) ∧ render_ipv6 b = join (groups16 b)) ∨
      ∃ i k, 2 ≤ k ∧ ZeroRun (groups16 b) i k ∧ (∀ j m, ZeroRun (groups16 b) j m → m ≤ k) ∧
        (∀ j, ZeroRun (groups16 b) j k → i ≤ j) ∧
        render_ipv6 b = join ((groups16 b).take i) ++ [':', ':'] ++ join ((groups16 b).drop (i + k)) := by
  -- The scan keeps the longest run of zeros, the first among equals.
  have hknown := known_scan (p := fun x : ℕ => decide (x = 0)) 0 (groups16 b)
  have hrun := zero_run_eq (groups16 b) 0 (0, 0) (0, 0)
  replace hrun : zero_run (groups16 b) 0 ((0, 0), (0, 0)) =
    ((scan (fun x => decide (x = 0)) 0 (groups16 b)).best.start,
      (scan (fun x => decide (x = 0)) 0 (groups16 b)).best.len) := hrun
  generalize scan (fun x => decide (x = 0)) 0 (groups16 b) = s at hknown hrun
  unfold render_ipv6
  dsimp only
  rw [hrun]
  -- One zero alone is printed; a longer run is left out.
  split
  · rename_i hshort
    left
    refine ⟨?_, rfl⟩
    intro i k hik
    have := hknown.best_longest i k hik
    omega
  · rename_i hlong
    right
    exact ⟨s.best.start, s.best.len, by omega, hknown.best_run (by omega), hknown.best_longest,
      fun j hj => hknown.best_first j (by omega) hj, rfl⟩

/-- The groups of a run are zeros. -/
theorem split_at_run {gs : List ℕ} {i k : ℕ} (h : ZeroRun gs i k) :
    gs = gs.take i ++ List.replicate k 0 ++ gs.drop (i + k) := by
  obtain ⟨hle, hall⟩ := h
  have hmid : (gs.drop i).take k = List.replicate k 0 := by
    apply List.ext_getElem?
    intro j
    rw [List.getElem?_take, List.getElem?_drop, List.getElem?_replicate]
    split
    · obtain ⟨x, hx, hzero⟩ := hall (i + j) (by omega) (by omega)
      rw [hx, of_decide_eq_true hzero]
    · rfl
  rw [← hmid, List.append_assoc, ← List.drop_drop, List.take_append_drop, List.take_append_drop]

theorem groups16_eight {b : Bytes} (hb : b.length = 16) :
    (groups16 b).length = 8 ∧ (groups16 b).flatMap (octets_of 2) = b := by
  obtain ⟨hlen, hflat⟩ := groups16_octets (b := b) (by omega)
  exact ⟨by omega, hflat⟩

/-- What is written is read back. -/
theorem ipv6_render_ipv6 {b : Bytes} (hb : b.length = 16) : ipv6 (render_ipv6 b) = some b := by
  obtain ⟨height, hflat⟩ := groups16_eight hb
  have hlt := groups16_lt b
  rcases render_ipv6_cases b with ⟨-, hrender⟩ | ⟨i, k, hk, hrun, -, -, hrender⟩
  · rw [hrender, ipv6_join hlt height, hflat]
  · rw [hrender]
    have hle := hrun.1
    have hfront : ((groups16 b).take i).length = i := List.length_take_of_le (by omega)
    have hback : ((groups16 b).drop (i + k)).length = 8 - (i + k) := by
      rw [List.length_drop, height]
    rw [ipv6_join_elided (fun g hg => hlt g (List.mem_of_mem_take hg))
      (fun g hg => hlt g (List.mem_of_mem_drop hg)) (by omega)]
    unfold address
    rw [hfront, hback, show 8 - i - (8 - (i + k)) = k by omega, ← split_at_run hrun, hflat]

theorem canonical_render_ipv6 (b : Bytes) : Canonical (groups16 b) (render_ipv6 b) := by
  rcases render_ipv6_cases b with ⟨hshort, hrender⟩ | ⟨i, k, hk, hrun, hlongest, hfirst, hrender⟩
  · rw [hrender]
    exact .inl ⟨hshort, spells_join _⟩
  · rw [hrender]
    exact .inr ⟨i, k, _, _, hk, hrun, hlongest, hfirst, spells_join _, spells_join _, rfl⟩

/-- **An address is written canonically and read back.** -/
theorem render_ipv6_reads_back {b : Bytes} (hb : b.length = 16) :
    ipv6 (render_ipv6 b) = some b ∧ Canonical (groups16 b) (render_ipv6 b) :=
  ⟨ipv6_render_ipv6 hb, canonical_render_ipv6 b⟩

/-- The second of two runs is written out. -/
theorem render_ipv6_two_runs :
    ipv6 (render_ipv6 [0x20, 1, 0, 0, 0, 0, 0, 0, 0, 0, 0, 1, 0, 0, 0, 0]) =
        some [0x20, 1, 0, 0, 0, 0, 0, 0, 0, 0, 0, 1, 0, 0, 0, 0] ∧
      Canonical (groups16 [0x20, 1, 0, 0, 0, 0, 0, 0, 0, 0, 0, 1, 0, 0, 0, 0])
        (render_ipv6 [0x20, 1, 0, 0, 0, 0, 0, 0, 0, 0, 0, 1, 0, 0, 0, 0]) :=
  render_ipv6_reads_back rfl

example : render_ipv6 [0x20, 1, 0, 0, 0, 0, 0, 0, 0, 0, 0, 1, 0, 0, 0, 0] = "2001::1:0:0".toList := by
  decide

end Wiry.Parse
