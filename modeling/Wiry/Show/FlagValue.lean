/-
Flags read back from their text in Python: `_bits_from` of `python/wiry/__init__.py`, on what
`render_flags` writes.
-/
import Mathlib.Data.Nat.Bitwise
import Wiry.Show.Flags

set_option autoImplicit false

namespace Wiry.Show

local instance text_lawful : LawfulBEq (List Char) := inferInstance

/-- The longest name the text starts with, by its number and its length; of one length the first. -/
def longest_name (names : List (List Char)) (text : List Char) : ℕ × ℕ :=
  names.zipIdx.foldl
    (fun best p => if best.2 < p.1.length ∧ p.1.isPrefixOf text then (p.2, p.1.length) else best) (0, 0)

/-- The loop over a text without separators; a turn takes a character at least. -/
def bits_of_names (names : List (List Char)) : ℕ → List Char → ℕ → Option ℕ
  | _, [], bits => some bits
  | 0, _ :: _, _ => none
  | n + 1, text, bits =>
    let best := longest_name names text
    if best.2 = 0 then none
    else bits_of_names names n (text.drop best.2) (bits ||| 1 <<< best.1)

/-- `_bits_from`, `none` where a token names no flag. -/
def bits_from (text : List Char) (names : List (List Char)) : Option ℕ :=
  if text = [] then some 0
  else if '+' ∈ text then
    (text.splitOn '+').foldlM (fun bits tok =>
      if tok = [] ∨ tok ∉ names then none else some (bits ||| 1 <<< names.idxOf tok)) 0
  else bits_of_names names text.length text 0

/-- Every bit that is set has a name, and it is the first of that name. -/
def Named (bits : BitVec 64) (names : List (List Char)) : Prop :=
  ∀ i, bits.getLsbD i = true → ∃ n, names[i]? = some n ∧ n ≠ [] ∧ names.idxOf n = i

/-! ## The longest name -/

section Longest

variable {names : List (List Char)} {text : List Char}

/-- Where no name is longer than the best one, the search keeps it. -/
theorem foldl_longest {k : ℕ} {best : ℕ × ℕ}
    (h : ∀ m ∈ names, m.isPrefixOf text = true → m.length ≤ best.2) :
    (names.zipIdx k).foldl
      (fun best p => if best.2 < p.1.length ∧ p.1.isPrefixOf text then (p.2, p.1.length) else best) best =
      best := by
  induction names generalizing k with
  | nil => rfl
  | cons m names ih =>
    obtain ⟨hm, hnames⟩ := List.forall_mem_cons.1 h
    rw [List.zipIdx_cons, List.foldl_cons, if_neg]
    · exact ih hnames
    · rintro ⟨hlonger, hstart⟩
      exact absurd hlonger (Nat.not_lt.2 (hm hstart))

/-- A name that is longest is found, at its first place. -/
theorem foldl_longest_of_mem {n : List Char} {k : ℕ} {best : ℕ × ℕ} (hn : n ∈ names)
    (hstart : n.isPrefixOf text = true) (hbest : best.2 < n.length)
    (h : ∀ m ∈ names, m.isPrefixOf text = true → m.length ≤ n.length) :
    (names.zipIdx k).foldl
      (fun best p => if best.2 < p.1.length ∧ p.1.isPrefixOf text then (p.2, p.1.length) else best) best =
      (k + names.idxOf n, n.length) := by
  induction names generalizing k best with
  | nil => cases hn
  | cons m names ih =>
    obtain ⟨hm, hnames⟩ := List.forall_mem_cons.1 h
    rw [List.zipIdx_cons, List.foldl_cons]
    by_cases hsame : m = n
    · subst hsame
      rw [if_pos ⟨hbest, hstart⟩, foldl_longest hnames, List.idxOf_cons_self]
      rfl
    · have hrest : n ∈ names := by
        rcases List.mem_cons.1 hn with heq | hmem
        · exact absurd heq.symm hsame
        · exact hmem
      have hidx : (m :: names).idxOf n = names.idxOf n + 1 := List.idxOf_cons_ne names hsame
      rw [hidx, ← Nat.add_assoc, Nat.add_right_comm]
      split
      · rename_i hlonger
        -- a name as long as the longest would be the same
        have hshort : m.length < n.length := by
          have hle := hm hlonger.2
          refine lt_of_le_of_ne hle fun heq => hsame ?_
          have hmp := List.isPrefixOf_iff_prefix.1 hlonger.2
          have hnp := List.isPrefixOf_iff_prefix.1 hstart
          exact (List.prefix_of_prefix_length_le hmp hnp hle).eq_of_length heq
        exact ih hrest hshort hnames
      · exact ih hrest hbest hnames

theorem longest_name_of_mem {n : List Char} (hn : n ∈ names) (hne : n ≠ [])
    (hstart : n.isPrefixOf text = true)
    (h : ∀ m ∈ names, m.isPrefixOf text = true → m.length ≤ n.length) :
    longest_name names text = (names.idxOf n, n.length) := by
  have hfound := @foldl_longest_of_mem names text n 0 (0, 0) hn hstart (List.length_pos_iff.2 hne) h
  rwa [Nat.zero_add] at hfound

end Longest

/-! ## Rendered names -/

/-- The bits of names, each at its first place. -/
def place_bits (names shown : List (List Char)) (bits : ℕ) : ℕ :=
  shown.foldl (fun bits n => bits ||| 1 <<< names.idxOf n) bits

theorem testBit_place_bits (names shown : List (List Char)) (bits j : ℕ) :
    (place_bits names shown bits).testBit j = true ↔
      bits.testBit j = true ∨ ∃ n ∈ shown, names.idxOf n = j := by
  induction shown generalizing bits with
  | nil => simp [place_bits]
  | cons n shown ih =>
    have hstep : place_bits names (n :: shown) bits =
        place_bits names shown (bits ||| 1 <<< names.idxOf n) := rfl
    rw [hstep, ih, Nat.testBit_or, Nat.one_shiftLeft, Nat.testBit_two_pow]
    simp [or_assoc]

variable {names : List (List Char)}

/-- One name is taken off the text. -/
theorem bits_of_names_cons {n : ℕ} {c : Char} {rest : List Char} {bits i width : ℕ}
    (h : longest_name names (c :: rest) = (i, width)) (hwidth : width ≠ 0) :
    bits_of_names names (n + 1) (c :: rest) bits =
      bits_of_names names n ((c :: rest).drop width) (bits ||| 1 <<< i) := by
  simp [bits_of_names, h, hwidth]

/-- Names of one letter each are read one after the other. -/
theorem bits_of_letters {shown : List (List Char)} (hshort : ∀ n ∈ names, n.length ≤ 1)
    (hshown : ∀ n ∈ shown, n ∈ names ∧ n ≠ []) (bits : ℕ) :
    bits_of_names names shown.flatten.length shown.flatten bits = some (place_bits names shown bits) := by
  induction shown generalizing bits with
  | nil => rfl
  | cons n shown ih =>
    obtain ⟨⟨hn, hne⟩, hrest⟩ := List.forall_mem_cons.1 hshown
    have hpos := List.length_pos_iff.2 hne
    have hle := hshort n hn
    obtain ⟨c, rfl⟩ := List.length_eq_one_iff.1 (show n.length = 1 by omega)
    have hlongest : longest_name names (c :: shown.flatten) = (names.idxOf [c], 1) := by
      apply longest_name_of_mem hn hne
      · simp
      · intro m hm _
        exact hshort m hm
    have htext : ([c] :: shown).flatten = c :: shown.flatten := rfl
    rw [htext, List.length_cons, bits_of_names_cons hlongest one_ne_zero]
    exact ih hrest _

/-- A single name is its own bit. -/
theorem bits_of_name {n : List Char} (hn : n ∈ names) (hne : n ≠ []) :
    bits_of_names names n.length n 0 = some (place_bits names [n] 0) := by
  have hlongest : longest_name names n = (names.idxOf n, n.length) := by
    apply longest_name_of_mem hn hne
    · simp
    · intro m _ hm
      exact (List.isPrefixOf_iff_prefix.1 hm).length_le
  obtain ⟨c, rest, rfl⟩ := List.exists_cons_of_ne_nil hne
  rw [List.length_cons, bits_of_names_cons hlongest (Nat.succ_ne_zero _)]
  simp [bits_of_names, place_bits]

theorem foldlM_place {shown : List (List Char)} (hshown : ∀ n ∈ shown, n ∈ names ∧ n ≠ []) (bits : ℕ) :
    shown.foldlM (fun bits tok =>
      if tok = [] ∨ tok ∉ names then none else some (bits ||| 1 <<< names.idxOf tok)) bits =
      some (place_bits names shown bits) := by
  induction shown generalizing bits with
  | nil => rfl
  | cons n shown ih =>
    obtain ⟨⟨hn, hne⟩, hshown⟩ := List.forall_mem_cons.1 hshown
    rw [List.foldlM_cons, if_neg (by simp [hn, hne])]
    exact ih hshown _

/-- What is rendered is read as the names that were written, each at its first place. -/
theorem bits_from_rendered (hplus : ∀ n ∈ names, '+' ∉ n) (bits : BitVec 64) :
    bits_from (render_flags bits names) names =
      some (place_bits names ((set_flags bits names).map Prod.fst) 0) := by
  have hnames : ∀ n ∈ (set_flags bits names).map Prod.fst, n ∈ names ∧ n ≠ [] := by
    intro n hn
    obtain ⟨⟨m, i⟩, hm, rfl⟩ := List.mem_map.1 hn
    obtain ⟨hget, hne, -⟩ := mem_set_flags.1 hm
    exact ⟨List.mem_of_getElem? hget, hne⟩
  unfold bits_from render_flags
  generalize (set_flags bits names).map Prod.fst = shown at hnames
  by_cases hlong : names.any fun n => n.length > 1
  · have hsep : separator names = ['+'] := if_pos hlong
    rw [hsep]
    -- a sign is written between two names only: one alone is read as a whole
    match shown, hnames with
    | [], _ => rfl
    | [n], hnames =>
      obtain ⟨hn, hne⟩ := hnames n (by simp)
      simpa [hne, hplus n hn] using bits_of_name hn hne
    | n :: m :: rest, hnames =>
      have hfree : ∀ l ∈ n :: m :: rest, '+' ∉ l := fun l hl => hplus l (hnames l hl).1
      rw [if_neg (by simp [(hnames n (by simp)).2]), if_pos (by simp),
        List.splitOn_intercalate '+' hfree (by simp)]
      exact foldlM_place hnames 0
  -- names of one letter run together, and are read letter by letter
  · have hsep : separator names = [] := if_neg hlong
    have hshort : ∀ n ∈ names, n.length ≤ 1 := by
      intro n hn
      by_contra hlen
      exact hlong (List.any_eq_true.2 ⟨n, hn, by simpa using hlen⟩)
    have hfree : '+' ∉ shown.flatten := by
      intro hmem
      obtain ⟨n, hn, hc⟩ := List.mem_flatten.1 hmem
      exact hplus n (hnames n hn).1 hc
    rw [hsep, nil_intercalate, if_neg hfree]
    split
    · rename_i hempty
      have hnil : shown = [] := by
        apply List.eq_nil_iff_forall_not_mem.2
        intro n hn
        exact (hnames n hn).2 (List.flatten_eq_nil_iff.1 hempty n hn)
      rw [hnil]
      rfl
    · exact bits_of_letters hshort hnames 0

/-- **Flags are read back exactly where each bit that is set has a name of its own.** -/
theorem bits_from_rendered_iff (hplus : ∀ n ∈ names, '+' ∉ n) (bits : BitVec 64) :
    bits_from (render_flags bits names) names = some bits.toNat ↔ Named bits names := by
  rw [bits_from_rendered hplus, Option.some.injEq]
  -- The bits read back are the first positions of the names that were shown.
  have hbit : ∀ j, (place_bits names ((set_flags bits names).map Prod.fst) 0).testBit j = true ↔
      ∃ n i, (n, i) ∈ set_flags bits names ∧ names.idxOf n = j := by
    intro j
    rw [testBit_place_bits]
    simp
  constructor
  · intro heq i hset
    have hi := (hbit i).1 (by rw [heq]; exact hset)
    obtain ⟨n, k, hmem, rfl⟩ := hi
    obtain ⟨hget, hne, -⟩ := mem_set_flags.1 hmem
    have hin := List.mem_of_getElem? hget
    exact ⟨n, List.getElem?_idxOf hin, hne, rfl⟩
  -- Each bit that is set has a name of its own, so the positions are the bits'.
  · intro hnamed
    apply Nat.eq_of_testBit_eq
    intro j
    rw [Bool.eq_iff_iff, hbit]
    constructor
    · rintro ⟨n, i, hmem, rfl⟩
      obtain ⟨hget, hne, hi, hset⟩ := mem_set_flags.1 hmem
      obtain ⟨n', hget', -, hidx⟩ := hnamed i hset
      rw [hget] at hget'
      rw [Option.some.inj hget', hidx]
      exact hset
    · intro hset
      obtain ⟨n, hget, hne, hidx⟩ := hnamed j hset
      have hj : j < 64 := by
        by_contra hge
        rw [show bits.toNat.testBit j = bits.getLsbD j from rfl,
          BitVec.getLsbD_of_ge bits j (by omega)] at hset
        cases hset
      exact ⟨n, j, mem_set_flags.2 ⟨hget, hne, hj, hset⟩, hidx⟩

end Wiry.Show
