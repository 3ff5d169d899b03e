/-
Flags as text: `separator`, `render_flags` and `flags_from` of `crates/wiry-core/src/show.rs`.

A Rust `str` is a list of characters. A name that is the empty text leaves its bit unnamed.
-/
import Mathlib

set_option autoImplicit false

namespace Wiry.Show

/-- `separator`: names of more than a letter would run together. -/
def separator (names : List (List Char)) : List Char :=
  if names.any fun n => n.length > 1 then ['+'] else []

/-- The names of the bits that are set, with the bits' numbers. -/
def set_flags (bits : BitVec 64) (names : List (List Char)) : List (List Char × ℕ) :=
  names.zipIdx.filter fun p => p.1 ≠ [] ∧ p.2 < 64 ∧ bits &&& 1#64 <<< p.2 ≠ 0

/-- `render_flags`. -/
def render_flags (bits : BitVec 64) (names : List (List Char)) : List Char :=
  (separator names).intercalate ((set_flags bits names).map Prod.fst)

/-- The closure `bit` of `flags_from`. -/
def flag_bit (names : List (List Char)) (tok : List Char) : Option (BitVec 64) :=
  if tok = [] then some 0#64
  else
    -- past bit 63 the field cannot hold it
    ((names.findIdx? fun n => n ≠ [] ∧ n = tok).filter fun i => i < 64).map fun i => 1#64 <<< i

/-- What `flags_from` takes for a token: a letter, or what stands between two separators. -/
def tokens (text : List Char) (names : List (List Char)) : List (List Char) :=
  if separator names = [] then text.map fun c => [c] else text.splitOn '+'

/-- `flags_from`. -/
def flags_from (text : List Char) (names : List (List Char)) : Option (BitVec 64) :=
  (tokens text names).foldlM (fun v tok => (flag_bit names tok).map fun b => v ||| b) 0#64

/-! ## Tokens into bits -/

section Bits

variable {α : Type} {f : α → Option (BitVec 64)}

/-- Every token has its bits in the result, and nothing else has. -/
theorem foldlM_or {toks : List α} {v w : BitVec 64}
    (h : toks.foldlM (fun v tok => (f tok).map fun b => v ||| b) v = some w) :
    (∀ tok ∈ toks, ∃ b, f tok = some b) ∧
      ∀ i, w.getLsbD i = true ↔
        v.getLsbD i = true ∨ ∃ tok ∈ toks, ∃ b, f tok = some b ∧ b.getLsbD i = true := by
  induction toks generalizing v with
  | nil =>
    simp at h
    simp [h]
  | cons tok toks ih =>
    cases hb : f tok with
    | none => simp [hb] at h
    | some b =>
      simp only [List.foldlM_cons, hb, Option.map_some, Option.bind_eq_bind, Option.bind_some] at h
      obtain ⟨hall, hbits⟩ := ih h
      refine ⟨List.forall_mem_cons.2 ⟨⟨b, hb⟩, hall⟩, ?_⟩
      intro i
      rw [hbits i]
      simp [hb, or_assoc]

theorem foldlM_or_some {toks : List α} (h : ∀ tok ∈ toks, ∃ b, f tok = some b) (v : BitVec 64) :
    ∃ w, toks.foldlM (fun v tok => (f tok).map fun b => v ||| b) v = some w := by
  induction toks generalizing v with
  | nil => exact ⟨v, rfl⟩
  | cons tok toks ih =>
    obtain ⟨⟨b, hb⟩, h⟩ := List.forall_mem_cons.1 h
    obtain ⟨w, hw⟩ := ih h (v ||| b)
    exact ⟨w, by simp [hb, hw]⟩

end Bits

theorem getLsbD_one_shiftLeft {i j : ℕ} (hi : i < 64) :
    (1#64 <<< i).getLsbD j = true ↔ j = i := by
  simp
  omega

/-- The test of one bit. -/
theorem and_one_shiftLeft_ne_zero {bits : BitVec 64} {i : ℕ} (hi : i < 64) :
    bits &&& 1#64 <<< i ≠ 0 ↔ bits.getLsbD i = true := by
  have hself : (1#64 <<< i).getLsbD i = true := (getLsbD_one_shiftLeft hi).2 rfl
  constructor
  · intro hne
    by_contra hclear
    apply hne
    apply BitVec.eq_of_getLsbD_eq
    intro j _
    rw [BitVec.getLsbD_and]
    by_cases hj : j = i
    · simp [hj, hclear]
    · have hother : (1#64 <<< i).getLsbD j = false := by
        simpa using fun h => hj ((getLsbD_one_shiftLeft hi).1 h)
      simp [hother]
  · intro hset hzero
    have hbit := congrArg (fun v => v.getLsbD i) hzero
    rw [BitVec.getLsbD_and, hset, hself] at hbit
    simp at hbit

/-- A token that sets a bit is the name of one below 64. -/
theorem flag_bit_eq_some {names : List (List Char)} {tok : List Char} {b : BitVec 64}
    (h : flag_bit names tok = some b) :
    tok = [] ∧ b = 0#64 ∨ tok ≠ [] ∧ ∃ i, i < 64 ∧ names[i]? = some tok ∧ b = 1#64 <<< i := by
  unfold flag_bit at h
  split at h
  · rename_i hempty
    left
    exact ⟨hempty, (Option.some.inj h).symm⟩
  · rename_i hne
    right
    obtain ⟨i, hi, rfl⟩ := Option.map_eq_some_iff.1 h
    obtain ⟨hfind, hlow⟩ := Option.filter_eq_some_iff.1 hi
    obtain ⟨hlen, hname, -⟩ := List.findIdx?_eq_some_iff_getElem.1 hfind
    simp only [ne_eq, decide_not, Bool.decide_and, Bool.and_eq_true, decide_eq_true_eq] at hname
    exact ⟨hne, i, of_decide_eq_true hlow, by rw [List.getElem?_eq_getElem hlen, hname.2], rfl⟩

/-! ## Rendered names -/

section Distinct

variable {names : List (List Char)} (hdistinct : (names.filter (· ≠ [])).Nodup)

include hdistinct

/-- A name stands for one bit. -/
theorem flag_bit_name {i : ℕ} {n : List Char} (hn : names[i]? = some n) (hne : n ≠ []) (hi : i < 64) :
    flag_bit names n = some (1#64 <<< i) := by
  obtain ⟨hlen, hget⟩ := List.getElem?_eq_some_iff.1 hn
  have hfind : (names.findIdx? fun m => m ≠ [] ∧ m = n) = some i := by
    rw [List.findIdx?_eq_some_iff_getElem]
    refine ⟨hlen, by simp [hget, hne], ?_⟩
    intro j hj
    -- an earlier place with the name would give it twice
    have hapart := List.pairwise_iff_getElem.1 (List.pairwise_filter.1 hdistinct) j i (by omega) hlen hj
    intro hsame
    simp only [ne_eq, decide_not, Bool.decide_and, Bool.and_eq_true, decide_eq_true_eq] at hsame
    refine hapart ?_ ?_ ?_
    · simp [hsame.2, hne]
    · simp [hget, hne]
    · rw [hsame.2, hget]
  unfold flag_bit
  rw [if_neg hne, hfind]
  simp [hi]

end Distinct

theorem mem_set_flags {bits : BitVec 64} {names : List (List Char)} {n : List Char} {i : ℕ} :
    (n, i) ∈ set_flags bits names ↔
      names[i]? = some n ∧ n ≠ [] ∧ i < 64 ∧ bits.getLsbD i = true := by
  simp only [set_flags, List.mem_filter, List.mem_zipIdx_iff_getElem?, decide_eq_true_eq]
  constructor
  · rintro ⟨hn, hne, hi, hset⟩
    exact ⟨hn, hne, hi, (and_one_shiftLeft_ne_zero hi).1 hset⟩
  · rintro ⟨hn, hne, hi, hset⟩
    exact ⟨hn, hne, hi, (and_one_shiftLeft_ne_zero hi).2 hset⟩

/-- Nothing between the pieces. -/
theorem nil_intercalate {α : Type} (ls : List (List α)) : [].intercalate ls = ls.flatten := by
  induction ls with
  | nil => rfl
  | cons l ls ih =>
    cases ls with
    | nil => simp
    | cons m ls => simp [ih]

/-- What is rendered comes apart into the names it was made of. -/
theorem tokens_render_flags {names : List (List Char)} (hplus : ∀ n ∈ names, '+' ∉ n)
    (bits : BitVec 64) (tok : List Char) :
    tok ∈ tokens (render_flags bits names) names ∧ tok ≠ [] ↔
      tok ∈ (set_flags bits names).map Prod.fst := by
  have hnames : ∀ n ∈ (set_flags bits names).map Prod.fst, n ∈ names ∧ n ≠ [] := by
    intro n hn
    obtain ⟨⟨m, i⟩, hm, rfl⟩ := List.mem_map.1 hn
    obtain ⟨hget, hne, -⟩ := mem_set_flags.1 hm
    exact ⟨List.mem_of_getElem? hget, hne⟩
  unfold tokens render_flags
  generalize (set_flags bits names).map Prod.fst = shown at hnames
  by_cases hlong : names.any fun n => n.length > 1
  · have hsep : separator names = ['+'] := if_pos hlong
    rw [hsep, if_neg (by decide)]
    cases shown with
    | nil => simp
    | cons first rest =>
      have hfree : ∀ n ∈ first :: rest, '+' ∉ n := fun n hn => hplus n (hnames n hn).1
      rw [List.splitOn_intercalate '+' hfree (by simp)]
      exact ⟨And.left, fun h => ⟨h, (hnames tok h).2⟩⟩
  · have hsep : separator names = [] := if_neg hlong
    -- each name is one letter, so the letters are the names
    have hone : ∀ n ∈ shown, ∃ c, n = [c] := by
      intro n hn
      obtain ⟨hname, hne⟩ := hnames n hn
      simp only [gt_iff_lt, List.any_eq_true, decide_eq_true_eq, not_exists, not_and] at hlong
      have hlen := hlong n hname
      have hpos := List.length_pos_iff.2 hne
      exact List.length_eq_one_iff.1 (by omega)
    rw [hsep, if_pos rfl, nil_intercalate]
    simp only [List.mem_map, List.mem_flatten]
    constructor
    · rintro ⟨⟨c, ⟨n, hn, hc⟩, rfl⟩, -⟩
      obtain ⟨d, rfl⟩ := hone n hn
      rw [List.mem_singleton.1 hc]
      exact hn
    · intro htok
      obtain ⟨c, rfl⟩ := hone tok htok
      exact ⟨⟨c, ⟨[c], htok, by simp⟩, rfl⟩, by simp⟩

/-- What is rendered is read as the named bits. -/
theorem flags_from_rendered {names : List (List Char)} (hdistinct : (names.filter (· ≠ [])).Nodup)
    (hplus : ∀ n ∈ names, '+' ∉ n) (bits : BitVec 64) :
    ∃ v, flags_from (render_flags bits names) names = some v ∧
      ∀ i, v.getLsbD i = (bits.getLsbD i && decide (names.getD i [] ≠ [])) := by
  have htokens := tokens_render_flags hplus bits
  have hall : ∀ tok ∈ tokens (render_flags bits names) names, ∃ b, flag_bit names tok = some b := by
    intro tok htok
    by_cases hempty : tok = []
    · exact ⟨0, by simp [flag_bit, hempty]⟩
    · obtain ⟨⟨n, i⟩, hn, rfl⟩ := List.mem_map.1 ((htokens tok).1 ⟨htok, hempty⟩)
      obtain ⟨hget, hne, hi, -⟩ := mem_set_flags.1 hn
      exact ⟨_, flag_bit_name hdistinct hget hne hi⟩
  obtain ⟨v, hv⟩ := foldlM_or_some hall 0#64
  refine ⟨v, hv, ?_⟩
  obtain ⟨-, hbits⟩ := foldlM_or hv
  intro i
  rw [Bool.eq_iff_iff, hbits i]
  simp only [BitVec.getLsbD_zero, Bool.false_eq_true, false_or, Bool.and_eq_true, decide_eq_true_eq]
  constructor
  · rintro ⟨tok, htok, b, hb, hset⟩
    rcases flag_bit_eq_some hb with ⟨-, rfl⟩ | ⟨hne, j, hj, hget, rfl⟩
    · simp at hset
    · obtain rfl := (getLsbD_one_shiftLeft hj).1 hset
      obtain ⟨⟨n, k⟩, hn, rfl⟩ := List.mem_map.1 ((htokens tok).1 ⟨htok, hne⟩)
      obtain ⟨hget', -, hk, hon⟩ := mem_set_flags.1 hn
      -- a name stands at one place
      have hsame := hb.symm.trans (flag_bit_name hdistinct hget' hne hk)
      rw [Option.some.injEq] at hsame
      rw [hsame] at hset
      obtain rfl := (getLsbD_one_shiftLeft hk).1 hset
      refine ⟨hon, ?_⟩
      simpa [List.getD_eq_getElem?_getD, hget] using hne
  · rintro ⟨hon, hname⟩
    have hi : i < 64 := by
      by_contra hge
      rw [BitVec.getLsbD_of_ge bits i (by omega)] at hon
      cases hon
    cases hget : names[i]? with
    | none => simp [List.getD_eq_getElem?_getD, hget] at hname
    | some n =>
      have hne : n ≠ [] := by simpa [List.getD_eq_getElem?_getD, hget] using hname
      have hmem := (htokens n).2 (List.mem_map.2 ⟨(n, i), mem_set_flags.2 ⟨hget, hne, hi, hon⟩, rfl⟩)
      exact ⟨n, hmem.1, _, flag_bit_name hdistinct hget hne hi, (getLsbD_one_shiftLeft hi).2 rfl⟩

/-- A token of a text that is read is empty or a whole name, and a bit is set by its name only. -/
theorem flags_from_names {names : List (List Char)} {text : List Char} {v : BitVec 64}
    (hv : flags_from text names = some v) :
    (∀ tok ∈ tokens text names, tok = [] ∨ ∃ i, i < 64 ∧ names[i]? = some tok) ∧
      ∀ i, v.getLsbD i = true → ∃ n ∈ tokens text names, n ≠ [] ∧ names[i]? = some n := by
  obtain ⟨hall, hbits⟩ := foldlM_or hv
  constructor
  · intro tok htok
    obtain ⟨b, hb⟩ := hall tok htok
    rcases flag_bit_eq_some hb with ⟨hempty, -⟩ | ⟨-, i, hi, hget, -⟩
    · exact .inl hempty
    · exact .inr ⟨i, hi, hget⟩
  · intro i hset
    rcases (hbits i).1 hset with hzero | ⟨tok, htok, b, hb, hbit⟩
    · simp at hzero
    · rcases flag_bit_eq_some hb with ⟨-, rfl⟩ | ⟨hne, j, hj, hget, rfl⟩
      · simp at hbit
      · obtain rfl := (getLsbD_one_shiftLeft hj).1 hbit
        exact ⟨tok, htok, hne, hget⟩

/-- **Flags as text are read back, and no text is read but names.** -/
theorem flags_from_render_flags {names : List (List Char)}
    (hdistinct : (names.filter (· ≠ [])).Nodup) (hplus : ∀ n ∈ names, '+' ∉ n) (bits : BitVec 64) :
    (∃ v, flags_from (render_flags bits names) names = some v ∧
        ∀ i, v.getLsbD i = (bits.getLsbD i && decide (names.getD i [] ≠ []))) ∧
      ∀ text v, flags_from text names = some v →
        (∀ tok ∈ tokens text names, tok = [] ∨ ∃ i, i < 64 ∧ names[i]? = some tok) ∧
          ∀ i, v.getLsbD i = true → ∃ n ∈ tokens text names, n ≠ [] ∧ names[i]? = some n :=
  ⟨flags_from_rendered hdistinct hplus bits, fun _ _ hv => flags_from_names hv⟩

/-- Names that hold one another, and a bit without a name. -/
theorem flags_from_render_contained :
    (∃ v, flags_from (render_flags 0xD [['a'], ['a', 'b'], ['b'], []]) [['a'], ['a', 'b'], ['b'], []] =
          some v ∧
        ∀ i, v.getLsbD i =
          ((0xD : BitVec 64).getLsbD i && decide ([['a'], ['a', 'b'], ['b'], []].getD i [] ≠ []))) ∧
      ∀ text v, flags_from text [['a'], ['a', 'b'], ['b'], []] = some v →
        (∀ tok ∈ tokens text [['a'], ['a', 'b'], ['b'], []],
          tok = [] ∨ ∃ i, i < 64 ∧ [['a'], ['a', 'b'], ['b'], []][i]? = some tok) ∧
          ∀ i, v.getLsbD i = true → ∃ n ∈ tokens text [['a'], ['a', 'b'], ['b'], []],
            n ≠ [] ∧ [['a'], ['a', 'b'], ['b'], []][i]? = some n :=
  flags_from_render_flags (by decide) (by decide) 0xD

example : render_flags 0x12 [['F'], ['S'], ['R'], ['P'], ['A']] = ['S', 'A'] ∧
    flags_from ['S', 'A'] [['F'], ['S'], ['R'], ['P'], ['A']] = some 0x12 := by decide

end Wiry.Show
