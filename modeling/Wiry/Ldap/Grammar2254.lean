/-
The string form of RFC 2254: which text spells which filter, and which of the filters the function
can give back.

`Spells` is the grammar, with the escapes and blanks the RFC allows, and
`readable` the condition under which a filter comes back: at least two members
in a set, and values that are one token each.
-/
import Wiry.Ldap.Values

set_option autoImplicit false

namespace Wiry.Ldap.Rfc2254

/-! ## The grammar -/

/-- A letter, a digit, a hyphen, a dot or a semicolon. -/
def attr_char (c : Char) : Bool :=
  let n := c.toNat
  48 ≤ n ∧ n ≤ 57 ∨ 65 ≤ n ∧ n ≤ 90 ∨ 97 ≤ n ∧ n ≤ 122 ∨ n = 45 ∨ n = 46 ∨ n = 59

/-- `attr`: an attribute description. -/
def is_attr (a : Str) : Bool := a ≠ [] ∧ a.all attr_char

/-- `filtertype`. -/
def Comparison.text : Comparison → Str
  | .LessOrEqual => ['<', '=']
  | .GreaterOrEqual => ['>', '=']
  | .ApproxMatch => ['~', '=']
  | .Equal => ['=']

/-- An `initial` or a `final`, which are left out where they would be empty. -/
def SpellsEnd : Option Str → Str → Prop
  | none, t => t = []
  | some v, t => v ≠ [] ∧ Escaped v t

/-- `any` behind its first star: values, each with a star behind it. -/
inductive SpellsAnys : List Str → Str → Prop
  | nil : SpellsAnys [] []
  | cons {v t : Str} {vs : List Str} {u : Str} (hv : Escaped v t) (hvs : SpellsAnys vs u) :
      SpellsAnys (v :: vs) (t ++ '*' :: u)

mutual

/-- The text of a filter. -/
inductive Spells : Filter Str → Str → Prop
  | And {fs : List (Filter Str)} {t : Str} (hne : fs ≠ []) (h : SpellsEach fs t) :
      Spells (.And fs) ('(' :: '&' :: t ++ [')'])
  | Or {fs : List (Filter Str)} {t : Str} (hne : fs ≠ []) (h : SpellsEach fs t) :
      Spells (.Or fs) ('(' :: '|' :: t ++ [')'])
  | Not {f : Filter Str} {t : Str} (h : Spells f t) : Spells (.Not f) ('(' :: '!' :: t ++ [')'])
  | Compare {op : Comparison} {a v t : Str} (ha : is_attr a = true) (hv : Escaped v t) :
      Spells (.Compare op a v) ('(' :: (a ++ (op.text ++ t)) ++ [')'])
  | Substrings {a : Str} {front back : Option Str} {vs : List Str} {t u w : Str}
      (ha : is_attr a = true) (hfront : SpellsEnd front t) (hvs : SpellsAnys vs u)
      (hback : SpellsEnd back w)
      (hne : front.toList.map Part.initial ++ vs.map Part.any ++ back.toList.map Part.final ≠ []) :
      Spells
        (.Substrings a
          (front.toList.map .initial ++ vs.map .any ++ back.toList.map .final))
        ('(' :: (a ++ ('=' :: (t ++ '*' :: (u ++ w)))) ++ [')'])
  | Present {a : Str} (ha : is_attr a = true) :
      Spells (.Present a) ('(' :: (a ++ ['=', '*']) ++ [')'])

inductive SpellsEach : List (Filter Str) → Str → Prop
  | nil : SpellsEach [] []
  | cons {f : Filter Str} {fs : List (Filter Str)} {t u : Str} (h : Spells f t)
      (hs : SpellsEach fs u) : SpellsEach (f :: fs) (t ++ u)

end

/-! ## The filter with its values as tokens -/

def Part.val {α : Type} : Part α → α
  | .initial val => val
  | .any val => val
  | .final val => val

def Part.token : Part Str → Part Token
  | .initial val => .initial (.str val)
  | .any val => .any (.str val)
  | .final val => .final (.str val)

mutual

def Filter.tokens : Filter Str → Filter Token
  | .And fs => .And (tokens_each fs)
  | .Or fs => .Or (tokens_each fs)
  | .Not f => .Not f.tokens
  | .Compare op a v => .Compare op a (.str v)
  | .Substrings a ps => .Substrings a (ps.map Part.token)
  | .Present a => .Present a

def tokens_each : List (Filter Str) → List (Filter Token)
  | [] => []
  | f :: fs => f.tokens :: tokens_each fs

end

/-! ## What can be read back -/

/-- The values that are taken for a comparison themselves, or for an extensible match. -/
def Comparison.taken : Comparison → List Str
  | .LessOrEqual => [[':', '=']]
  | .GreaterOrEqual => [[':', '='], ['<', '=']]
  | .ApproxMatch => [[':', '='], ['<', '='], ['>', '=']]
  | .Equal => [[':', '='], ['<', '='], ['>', '='], ['~', '=']]

mutual

/-- No presence, no And or Or of one filter, and every value a token of its own. -/
def Filter.readable : Filter Str → Bool
  | .And fs => 2 ≤ fs.length && readable_each fs
  | .Or fs => 2 ≤ fs.length && readable_each fs
  | .Not f => f.readable
  | .Compare op _ v => lone v && !op.taken.contains v
  | .Substrings _ ps => ps.all fun p => lone p.val
  | .Present _ => false

def readable_each : List (Filter Str) → Bool
  | [] => true
  | f :: fs => f.readable && readable_each fs

end

/-! ## Attribute descriptions -/

/-- A character of an attribute is neither special nor blank. -/
theorem attr_char_plain {c : Char} (h : attr_char c = true) :
    special c = false ∧ blank c = false ∧ isspace c = false := by
  unfold attr_char at h
  rw [decide_eq_true_eq] at h
  -- none of the special characters may stand in a name
  have hne {d : Char} (hd : attr_char d = false) : c ≠ d := by
    rintro rfl
    unfold attr_char at hd
    rw [decide_eq_false_iff_not] at hd
    exact hd h
  refine ⟨?_, ?_, ?_⟩
  · unfold special
    rw [decide_eq_false_iff_not]
    simp only [List.mem_cons, List.not_mem_nil, or_false, not_or]
    exact ⟨hne (by decide), hne (by decide), hne (by decide), hne (by decide), hne (by decide),
      hne (by decide), hne (by decide), hne (by decide), hne (by decide), hne (by decide),
      hne (by decide)⟩
  · unfold blank
    rw [decide_eq_false_iff_not]
    simp only [List.mem_cons, List.not_mem_nil, or_false, not_or]
    exact ⟨hne (by decide), hne (by decide), hne (by decide)⟩
  · unfold isspace
    rw [decide_eq_false_iff_not]
    omega

section Attr

variable {a : Str} (ha : is_attr a = true)

include ha

theorem attr_ne_nil : a ≠ [] := by
  unfold is_attr at ha
  rw [decide_eq_true_eq] at ha
  exact ha.1

/-- The characters of an attribute. -/
theorem attr_chars {c : Char} (hc : c ∈ a) :
    special c = false ∧ blank c = false ∧ isspace c = false := by
  unfold is_attr at ha
  rw [decide_eq_true_eq, List.all_eq_true] at ha
  exact attr_char_plain (ha.2 c hc)

theorem attr_not_merges : merges a = false :=
  not_merges_of_plain (attr_ne_nil ha) fun _ hc => (attr_chars ha hc).1

/-- No string with an operator character in it is an attribute description. -/
theorem attr_ne {s : Str} (hs : s.any special = true) : a ≠ s := by
  rintro rfl
  rw [List.any_eq_true] at hs
  obtain ⟨c, hc, hspecial⟩ := hs
  rw [(attr_chars ha hc).1] at hspecial
  cases hspecial

theorem attr_not_and_or : str_in a ['&', '|'] = false := by
  by_contra h
  rw [Bool.not_eq_false] at h
  have hne := attr_ne_nil ha
  cases a with
  | nil => exact hne rfl
  | cons c a =>
    have hmem := mem_of_str_in h (List.mem_cons_self (a := c) (l := a))
    have hplain := (attr_chars ha (List.mem_cons_self (a := c) (l := a))).1
    simp only [List.mem_cons, List.not_mem_nil, or_false] at hmem
    obtain rfl | rfl := hmem <;> cases hplain

/-- Stripping leaves it as it is. -/
theorem strip_attr : strip a = a := by
  have hleft {s : Str} (hs : ∀ c ∈ s, isspace c = false) : lstrip s = s := by
    unfold lstrip
    cases s with
    | nil => rfl
    | cons c s => rw [List.dropWhile_cons_of_neg (by simp [hs c List.mem_cons_self])]
  have hall : ∀ c ∈ a, isspace c = false := fun c hc => (attr_chars ha hc).2.2
  unfold strip
  rw [hleft hall, hleft fun c hc => hall c (List.mem_reverse.mp hc), List.reverse_reverse]

/-- The loop takes an attribute description as one token. -/
theorem read_attr {rest : Str} (hrest : Stops rest) (cur : List Token)
    (backtrack : List (List Token)) :
    read 0 (a ++ rest) cur backtrack = read 0 rest (cur ++ [.str a]) backtrack := by
  -- Once the run is pushed, the reader skips the characters it is made of.
  have hskip (l : Str) (cur : List Token) :
      read l.length (l ++ rest) cur backtrack = read 0 rest cur backtrack := by
    induction l with
    | nil => rfl
    | cons c l ih =>
      rw [List.length_cons, List.cons_append, read]
      exact ih
  have hne := attr_ne_nil ha
  cases a with
  | nil => exact absurd rfl hne
  | cons c l =>
    obtain ⟨hspecial, hblank, -⟩ := attr_chars ha (List.mem_cons_self (a := c) (l := l))
    have hnot {x : Char} (hx : special x = true) : c ≠ x := by
      rintro rfl
      rw [hspecial] at hx
      cases hx
    -- The run ends where the attribute does: behind it stands a special character or nothing.
    have hall : ((c :: l).takeWhile fun x => !special x) = c :: l :=
      List.takeWhile_eq_self_iff.mpr fun x hx => by simp [(attr_chars ha hx).1]
    have hvalue : ((c :: (l ++ rest)).takeWhile fun x => !special x) = c :: l := by
      rw [← List.cons_append, takeWhile_stops hrest, hall]
    rw [List.cons_append, read.eq_def]
    simp only [hblank, hnot (show special '(' = true from rfl),
      hnot (show special ')' = true from rfl), hnot (show special '&' = true from rfl),
      hnot (show special '|' = true from rfl), hnot (show special '!' = true from rfl),
      hnot (show special '=' = true from rfl), hnot (show special '~' = true from rfl),
      hnot (show special '>' = true from rfl), hnot (show special '<' = true from rfl),
      hnot (show special ':' = true from rfl), hnot (show special '*' = true from rfl),
      hvalue, or_self, if_false, Bool.false_eq_true]
    exact hskip l _

end Attr

end Wiry.Ldap.Rfc2254
