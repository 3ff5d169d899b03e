/-
Assertion values in the text of a filter: how they are escaped, and which of them the tokenizer
gives back as they are.
-/
import Mathlib.Data.List.TakeWhile
import Wiry.Ldap.Tokens

set_option autoImplicit false

namespace Wiry.Ldap.Rfc2254

/-! ## Escaping -/

/-- The characters a value escapes. -/
def escapes (c : Char) : Bool := c ∈ ['*', '(', ')', '\\', '\x00']

def hex_digit (c : Char) : Option ℕ :=
  let n := c.toNat
  if 48 ≤ n ∧ n ≤ 57 then some (n - 48)
  else if 65 ≤ n ∧ n ≤ 70 then some (n - 55)
  else if 97 ≤ n ∧ n ≤ 102 then some (n - 87)
  else none

/-- A value and its text: a backslash and two hex digits for the five characters, every other as
itself. -/
inductive Escaped : Str → Str → Prop
  | nil : Escaped [] []
  | itself {c : Char} {v t : Str} (hc : escapes c = false) (h : Escaped v t) :
      Escaped (c :: v) (c :: t)
  | hex {c a b : Char} {v t : Str} {x y : ℕ} (hc : escapes c = true) (ha : hex_digit a = some x)
      (hb : hex_digit b = some y) (hval : 16 * x + y = c.toNat) (h : Escaped v t) :
      Escaped (c :: v) ('\\' :: a :: b :: t)

/-- A hexadecimal digit is neither special nor blank. -/
theorem hex_digit_plain {c : Char} {x : ℕ} (h : hex_digit c = some x) :
    special c = false ∧ blank c = false := by
  have hne {d : Char} (hd : hex_digit d = none) : c ≠ d := by
    rintro rfl
    rw [hd] at h
    cases h
  constructor
  · unfold special
    rw [decide_eq_false_iff_not]
    simp only [List.mem_cons, List.not_mem_nil, or_false, not_or]
    exact ⟨hne (by decide), hne (by decide), hne (by decide), hne (by decide), hne (by decide),
      hne (by decide), hne (by decide), hne (by decide), hne (by decide), hne (by decide),
      hne (by decide)⟩
  · unfold blank
    rw [decide_eq_false_iff_not]
    simp only [List.mem_cons, List.not_mem_nil, or_false, not_or]
    exact ⟨hne (by decide), hne (by decide), hne (by decide)⟩

/-- No parenthesis and no star is left in the text of a value. -/
theorem Escaped.not_mem {v t : Str} (h : Escaped v t) {d : Char} (hd : escapes d = true)
    (hspecial : special d = true) : d ∉ t := by
  induction h with
  | nil => exact List.not_mem_nil
  | @itself c v t hc h ih =>
    rw [List.mem_cons, not_or]
    refine ⟨?_, ih⟩
    rintro rfl
    rw [hd] at hc
    cases hc
  | @hex c a b v t x y hc ha hb hval h ih =>
    have hne {e : Char} (he : special e = false) : d ≠ e := by
      rintro rfl
      rw [hspecial] at he
      cases he
    simp only [List.mem_cons, not_or]
    exact ⟨hne (by decide), hne (hex_digit_plain ha).1, hne (hex_digit_plain hb).1, ih⟩

theorem Escaped.plain {v t : Str} (h : Escaped v t) (hv : ∀ c ∈ v, special c = false) :
    ∀ c ∈ t, special c = false := by
  induction h with
  | nil => exact fun c hc => absurd hc List.not_mem_nil
  | @itself c v t hc h ih =>
    rw [List.forall_mem_cons] at hv ⊢
    exact ⟨hv.1, ih hv.2⟩
  | @hex c a b v t x y hc ha hb hval h ih =>
    rw [List.forall_mem_cons] at hv
    rw [List.forall_mem_cons, List.forall_mem_cons, List.forall_mem_cons]
    exact ⟨rfl, (hex_digit_plain ha).1, (hex_digit_plain hb).1, ih hv.2⟩

theorem Escaped.length_le {v t : Str} (h : Escaped v t) : v.length ≤ t.length := by
  induction h with
  | nil => exact Nat.le_refl _
  | itself hc h ih => simpa using ih
  | hex hc ha hb hval h ih =>
    simp only [List.length_cons]
    omega

/-- A text no longer than its value has nothing escaped. -/
theorem Escaped.eq_of_length {v t : Str} (h : Escaped v t) (hlen : t.length ≤ v.length) :
    t = v ∧ ∀ c ∈ v, escapes c = false := by
  induction h with
  | nil => exact ⟨rfl, fun c hc => absurd hc List.not_mem_nil⟩
  | @itself c v t hc h ih =>
    obtain ⟨rfl, hv⟩ := ih (by simpa using hlen)
    exact ⟨rfl, List.forall_mem_cons.mpr ⟨hc, hv⟩⟩
  | @hex c a b v t x y hc ha hb hval h ih =>
    have hle := h.length_le
    simp only [List.length_cons] at hlen
    omega

theorem Escaped.eq_of_plain {v t : Str} (h : Escaped v t) (hv : ∀ c ∈ v, escapes c = false) :
    t = v := by
  induction h with
  | nil => rfl
  | itself hc h ih => rw [ih (List.forall_mem_cons.mp hv).2]
  | hex hc ha hb hval h ih =>
    have hnot := (List.forall_mem_cons.mp hv).1
    rw [hc] at hnot
    cases hnot

/-- The text of a value begins with a blank only if the value does. -/
theorem Escaped.starts {v t : Str} (h : Escaped v t) (hv : Starts v) : Starts t := by
  obtain ⟨c, r, rfl, hblank⟩ := hv
  cases h with
  | itself => exact ⟨_, _, rfl, hblank⟩
  | hex => exact ⟨_, _, rfl, rfl⟩

/-! ## Values of one token -/

/-- A run of characters that stand for nothing, with no blank in front. -/
def run (v : Str) : Bool := v.head?.any (fun c => !blank c) && v.all fun c => !special c

def operators : List Str :=
  [['&'], ['|'], ['!'], ['='], ['~'], ['<'], ['>'], [':'], ['<', '='], ['>', '='], ['~', '='],
    [':', '=']]

/-- A value of one token that is written as it is. -/
def lone (v : Str) : Bool := (v.all fun c => !escapes c) && (run v || operators.contains v)

/-- A run of plain characters is one token. -/
theorem cut_run {v : Str} (h : run v = true) : cut 0 v [] = [v] := by
  unfold run at h
  rw [Bool.and_eq_true, List.all_eq_true] at h
  obtain ⟨hhead, hplain⟩ := h
  cases v with
  | nil => cases hhead
  | cons c v =>
    have hblank : blank c = false := by simpa using hhead
    have hspecial : special c = false := by simpa using hplain c List.mem_cons_self
    have hequals : c ≠ '=' := by
      rintro rfl
      cases hspecial
    have hall : ((c :: v).takeWhile fun x => !special x) = c :: v :=
      List.takeWhile_eq_self_iff.mpr hplain
    rw [cut, hblank, hspecial, if_neg Bool.false_ne_true, if_neg hequals,
      if_neg Bool.false_ne_true, hall]
    exact cut_skip_all v [c :: v]

theorem cut_lone {v : Str} (h : lone v = true) : cut 0 v [] = [v] := by
  unfold lone at h
  rw [Bool.and_eq_true, Bool.or_eq_true] at h
  obtain ⟨-, hrun | hop⟩ := h
  · exact cut_run hrun
  · have hmem : v ∈ operators := by simpa using hop
    have hall : ∀ s ∈ operators, cut 0 s [] = [s] := by decide
    exact hall v hmem

/-- Behind a token that may take an equals sign, the first token is that one or the merged one. -/
theorem cut_merging {c : Char} (hc : merges [c, '='] = false) (text : Str) :
    ∃ s ts, cut 0 text [[c]] = s :: ts ∧ (s = [c] ∨ s = [c, '=']) := by
  induction text with
  | nil => exact ⟨[c], [], rfl, Or.inl rfl⟩
  | cons x text ih =>
    -- once another token stands behind it, the first one is fixed
    have hkept (skip : ℕ) (s : Str) :
        ∃ u ts, cut skip text ([[c]] ++ [s]) = u :: ts ∧ (u = [c] ∨ u = [c, '=']) :=
      ⟨[c], cut skip text [s], cut_behind [[c]] [s] (fun hnil => absurd hnil (by simp)) skip text, Or.inl rfl⟩
    rw [cut]
    split
    · exact ih
    · split
      · rw [List.getLast?_singleton]
        dsimp only
        split
        · have hbehind := cut_behind [[c, '=']] []
            (fun _ t ht => by
              cases ht
              exact hc) 0 text
          exact ⟨[c, '='], cut 0 text [], hbehind, Or.inr rfl⟩
        · exact hkept 0 ['=']
      · split
        · exact hkept 0 [x]
        · exact hkept _ _

theorem escaped_single {c : Char} {t : Str} (h : Escaped [c] (c :: t)) (hc : c ≠ '\\') : t = [] := by
  cases h with
  | itself _ h =>
    cases h
    rfl
  | hex => exact absurd rfl hc

/-- A value that is the first token of its own text is the whole of it. -/
theorem lone_of_cut {v t : Str} {ts : List Str} (h : Escaped v t) (hcut : cut 0 t [] = v :: ts) :
    t = v ∧ lone v = true := by
  suffices htv : t = v ∧ (run v = true ∨ v ∈ operators) by
    refine ⟨htv.1, ?_⟩
    have hplain := (h.eq_of_length (by rw [htv.1])).2
    unfold lone
    rw [Bool.and_eq_true, Bool.or_eq_true, List.all_eq_true]
    exact ⟨fun c hc => by simp [hplain c hc], htv.2.imp_right fun hop => by simpa using hop⟩
  have hnone : ∀ s ∈ ([] : List Str), Starts s := fun s hs => absurd hs List.not_mem_nil
  have hstarts : Starts v := starts_cut hnone v (by
    rw [hcut]
    exact List.mem_cons_self)
  obtain ⟨c, r, rfl, hblank⟩ := hstarts
  have hmem {d : Char} (hd : escapes d = true) (hs : special d = true) : d ∉ t := h.not_mem hd hs
  cases t with
  | nil => cases hcut
  | cons x text =>
    obtain ⟨y, s, hy, hx⟩ := h.starts ⟨c, r, rfl, hblank⟩
    obtain ⟨rfl, -⟩ := List.cons.inj hy
    rw [cut, hx, if_neg Bool.false_ne_true] at hcut
    by_cases hequals : x = '='
    · subst hequals
      rw [if_pos rfl] at hcut
      have hbehind := cut_behind [['=']] []
        (fun _ t ht => by
          cases ht
          rfl) 0 text
      have hfirst : (['='] : Str) :: cut 0 text [] = (c :: r) :: ts := hbehind.symm.trans hcut
      cases hfirst
      rw [escaped_single h (by decide)]
      exact ⟨rfl, Or.inr (by decide)⟩
    · rw [if_neg hequals] at hcut
      by_cases hspecial : special x = true
      · rw [if_pos hspecial, List.nil_append] at hcut
        have hslash : x ≠ '\\' := by
          rintro rfl
          cases hspecial
        have hmerges : merges [x, '='] = false := by
          by_contra hno
          have := mem_of_str_in (Bool.not_eq_false _ ▸ hno) (c := '=') (by simp)
          revert this
          decide
        obtain ⟨s, us, heq, hs⟩ := cut_merging hmerges text
        rw [hcut] at heq
        obtain rfl : c :: r = s := (List.cons.inj heq).1
        have hlisted : [x] ∈ operators := by
          have h1 : x ≠ '(' := fun he => hmem (d := '(') rfl rfl (by simp [he])
          have h2 : x ≠ ')' := fun he => hmem (d := ')') rfl rfl (by simp [he])
          have h3 : x ≠ '*' := fun he => hmem (d := '*') rfl rfl (by simp [he])
          unfold special at hspecial
          simp only [List.mem_cons, List.not_mem_nil, or_false, decide_eq_true_eq] at hspecial
          unfold operators
          simp only [List.mem_cons, List.cons.injEq, and_true, reduceCtorEq, and_false,
            List.not_mem_nil, or_false]
          grind
        obtain hs | hs := hs
        · obtain ⟨rfl, rfl⟩ := List.cons.inj hs
          rw [escaped_single h hslash]
          exact ⟨rfl, Or.inr hlisted⟩
        · obtain ⟨rfl, rfl⟩ := List.cons.inj hs
          have htail : Escaped ['='] text := by
            cases h with
            | itself _ h => exact h
            | hex => exact absurd rfl hslash
          have htext : text = ['='] := htail.eq_of_plain (List.forall_mem_singleton.mpr rfl)
          subst htext
          refine ⟨rfl, Or.inr ?_⟩
          -- a merged token: its first character takes an equals sign
          have hm : merges [c] = true := by
            by_contra hno
            rw [Bool.not_eq_true] at hno
            have hbehind := cut_behind [[c]] []
              (fun _ t ht => by
                cases ht
                exact hno) 0 ['=']
            have hbad : ([c] : Str) :: cut 0 ['='] [] = [c, '='] :: ts := hbehind.symm.trans hcut
            simp at hbad
          have hin := mem_of_str_in hm (c := c) (by simp)
          simp only [List.mem_cons, List.not_mem_nil, or_false] at hin
          obtain rfl | rfl | rfl | rfl := hin <;> decide
      · rw [if_neg hspecial] at hcut
        dsimp only at hcut
        rw [Bool.not_eq_true] at hspecial
        have hcons : ((x :: text).takeWhile fun y => !special y)
            = x :: text.takeWhile fun y => !special y :=
          List.takeWhile_cons_of_pos (by simp [hspecial])
        have hplain : ∀ y ∈ (x :: text).takeWhile (fun y => !special y), special y = false := by
          intro y hy
          simpa using List.mem_takeWhile_imp hy
        have hbehind := cut_behind [(x :: text).takeWhile fun y => !special y] []
          (fun _ t ht => by
            cases ht
            exact not_merges_of_plain (by simp [hcons]) hplain)
          (((x :: text).takeWhile fun y => !special y).length - 1) text
        rw [List.nil_append] at hcut
        have hfirst := hbehind.symm.trans hcut
        have hv : (x :: text).takeWhile (fun y => !special y) = c :: r := (List.cons.inj hfirst).1
        rw [hv] at hplain
        have hall := h.plain hplain
        have hself : (x :: text).takeWhile (fun y => !special y) = x :: text :=
          List.takeWhile_eq_self_iff.mpr fun y hy => by simp [hall y hy]
        refine ⟨hself.symm.trans hv, Or.inl ?_⟩
        unfold run
        rw [Bool.and_eq_true, List.all_eq_true]
        exact ⟨by simp [hblank], fun y hy => by simp [hplain y hy]⟩

end Wiry.Ldap.Rfc2254
