/-
`from_rfc2254_string` on the text of a filter: it gives the filter back exactly when the filter is
readable.

An item is an attribute, an operator and what is left of the text, cut into
tokens. A comparison is read back when the value is one token and no operator
was found before the one that is meant (`comparison_read_iff`); a substring
filter, when each of its values is one token (`substrings_read_iff`).
-/
import Wiry.Ldap.Grammar2254

set_option autoImplicit false

namespace Wiry.Ldap.Rfc2254

/-! ## Steps of the loop -/

theorem read_open (text : Str) (cur : List Token) (backtrack : List (List Token)) :
    read 0 ('(' :: text) cur backtrack = read 0 text [] (cur :: backtrack) := by
  rw [read.eq_def]
  rfl

theorem read_close (text : Str) (cur outer : List Token) (backtrack : List (List Token)) :
    read 0 (')' :: text) cur (outer :: backtrack)
      = read 0 text (outer ++ [.list cur]) backtrack := by
  rw [read.eq_def]
  rfl

/-- The sign of a set is a token. -/
theorem read_mark {c : Char} (hc : c = '&' ∨ c = '|' ∨ c = '!') (text : Str) (cur : List Token)
    (backtrack : List (List Token)) :
    read 0 (c :: text) cur backtrack = read 0 text (cur ++ [.str [c]]) backtrack := by
  rw [read.eq_def]
  obtain rfl | rfl | rfl := hc
  · rfl
  · rfl
  · rfl

/-- The enclosure of an item. -/
theorem read_item {a text : Str} (ha : is_attr a = true) (hstops : Stops (text ++ [')']))
    (hopen : '(' ∉ text) (hclose : ')' ∉ text) (rest : Str) (cur : List Token)
    (backtrack : List (List Token)) :
    read 0 ('(' :: (a ++ text) ++ [')'] ++ rest) cur backtrack
      = read 0 rest (cur ++ [.list ((cut 0 text [a]).map .str)]) backtrack := by
  have htext : '(' :: (a ++ text) ++ [')'] ++ rest = '(' :: (a ++ (text ++ (')' :: rest))) := by
    simp
  have hstops' : Stops (text ++ (')' :: rest)) := by
    cases text with
    | nil => exact hstops
    | cons c text => exact hstops
  have hparen : Stops (')' :: rest) := by
    intro c hc
    cases hc
    rfl
  have hattr : ([] : List Token) ++ [.str a] = [a].map .str := rfl
  rw [htext, read_open, read_attr ha hstops', hattr,
    read_cut hopen hclose hparen (Nat.zero_le _) (List.cons_ne_nil a []), read_close]

/-! ## Comparisons -/

theorem held_map (s : Str) (l : List Str) : held s (l.map .str) = decide (s ∈ l) := by
  unfold held
  rw [List.any_map, Bool.eq_iff_iff, List.any_eq_true, decide_eq_true_eq]
  constructor
  · rintro ⟨t, ht, heq⟩
    have hts : t = s := by simpa using heq
    rwa [← hts]
  · exact fun h => ⟨s, h, by simp⟩

/-- An item that is a comparison, cut. -/
theorem cut_comparison {a : Str} (ha : is_attr a = true) (op : Comparison) (t : Str) :
    cut 0 (op.text ++ t) [a] = a :: op.text :: cut 0 t [] := by
  have hmerges := attr_not_merges ha
  -- Behind the operator nothing merges with it, so the cut goes on as from nothing.
  have hbehind (s : Str) (hs : merges s = false) : cut 0 t [a, s] = a :: s :: cut 0 t [] :=
    cut_behind [a, s] [] (fun _ u hu => by
      cases hu
      exact hs) 0 t
  cases op with
  | Equal =>
    have hstep : cut 0 (['='] ++ t) [a] = cut 0 t [a, ['=']] := by
      rw [List.singleton_append, cut]
      simp [hmerges, blank]
    exact hstep.trans (hbehind ['='] rfl)
  | LessOrEqual =>
    have hstep : cut 0 (['<', '='] ++ t) [a] = cut 0 t [a, ['<', '=']] := rfl
    exact hstep.trans (hbehind ['<', '='] rfl)
  | GreaterOrEqual =>
    have hstep : cut 0 (['>', '='] ++ t) [a] = cut 0 t [a, ['>', '=']] := rfl
    exact hstep.trans (hbehind ['>', '='] rfl)
  | ApproxMatch =>
    have hstep : cut 0 (['~', '='] ++ t) [a] = cut 0 t [a, ['~', '=']] := rfl
    exact hstep.trans (hbehind ['~', '='] rfl)

/-- No token of a value's text is the star. -/
theorem star_not_cut {v t : Str} (h : Escaped v t) : (['*'] : Str) ∉ cut 0 t [] := by
  intro hmem
  obtain hin | ⟨s, hs, -⟩ := mem_cut hmem (x := '*') List.mem_cons_self
  · exact h.not_mem rfl rfl hin
  · exact absurd hs List.not_mem_nil

/-- The class a comparison of the tokens is given. -/
def chosen (whole : List Str) : Comparison :=
  if ['<', '='] ∈ whole then .LessOrEqual
  else if ['>', '='] ∈ whole then .GreaterOrEqual
  else if ['~', '='] ∈ whole then .ApproxMatch else .Equal

/-- The filter of a comparison, by the tokens of its value. -/
def comparison_of (op : Comparison) (a : Str) : List Str → Except Raised (Filter Token)
  | [z] => .ok (.Compare (chosen [a, op.text, z]) a (.str z))
  | _ => .error .ValueError

/-- An enclosure that begins with neither operator. -/
theorem getfld_list_item {t : Str} (hmany : str_in t ['&', '|'] = false) (hone : t ≠ ['!'])
    (x : List Token) : getfld_list (.str t :: x) = getfld_item t x := by
  rw [getfld_list.eq_def]
  dsimp only
  rw [hmany, if_neg Bool.false_ne_true, if_neg hone]

/-- What the grammar makes of a comparison's tokens. -/
theorem getfld_comparison {a : Str} (ha : is_attr a = true) (op : Comparison) {ts : List Str}
    (hstar : (['*'] : Str) ∉ ts) :
    getfld (.list ((a :: op.text :: ts).map .str)) =
      if [':', '='] ∈ ts then .error .NotImplementedError else comparison_of op a ts := by
  -- The attribute is none of the operators, so the tests for them look at the rest only.
  have hne {s : Str} (hs : s.any special = true) : s ≠ a := (attr_ne ha hs).symm
  have hmark : a ≠ ['!'] := attr_ne ha rfl
  rw [getfld, List.map_cons, getfld_list_item (attr_not_and_or ha) hmark]
  unfold getfld_item
  dsimp only
  rw [← List.map_cons]
  have hwhole : held ['*'] ((a :: op.text :: ts).map .str) = false := by
    rw [held_map, decide_eq_false_iff_not, List.mem_cons, List.mem_cons]
    rintro (h | h | h)
    · exact hne rfl h
    · cases op <;> cases h
    · exact hstar h
  have hext : held [':', '='] ((a :: op.text :: ts).map .str) = decide ([':', '='] ∈ ts) := by
    rw [held_map, decide_eq_decide, List.mem_cons, List.mem_cons]
    constructor
    · rintro (h | h | h)
      · exact absurd h (hne rfl)
      · cases op <;> cases h
      · exact h
    · exact fun h => Or.inr (Or.inr h)
  have hop : (held ['<', '='] ((a :: op.text :: ts).map .str) ||
      held ['>', '='] ((a :: op.text :: ts).map .str) ||
      held ['~', '='] ((a :: op.text :: ts).map .str) ||
      held ['='] ((a :: op.text :: ts).map .str)) = true := by
    rw [held_map, held_map, held_map, held_map]
    cases op <;> simp [Comparison.text]
  rw [hwhole, Bool.and_false, if_neg Bool.false_ne_true, hext, hop, if_pos rfl]
  -- An extensible sign among the values is refused; else the number of tokens decides.
  by_cases hin : [':', '='] ∈ ts
  · rw [if_pos hin, if_pos (decide_eq_true hin)]
  · rw [if_neg hin, if_neg (by simpa using hin)]
    cases ts with
    | nil => rfl
    | cons z zs =>
      cases zs with
      | cons y ys => rfl
      | nil =>
        have hz : held ['*'] [.str z] = false := by
          have h := held_map ['*'] [z]
          rw [List.map_singleton] at h
          rw [h, decide_eq_false_iff_not]
          exact hstar
        have hequals : holds_equals (.str op.text) = true := by cases op <;> rfl
        rw [List.map_cons, List.map_singleton]
        dsimp only
        rw [hequals, if_pos rfl, hz, if_neg Bool.false_ne_true, strip_attr ha]
        unfold comparison_of chosen
        simp only [held_map, decide_eq_true_eq]

/-- The class is the comparison's own unless the value is taken for another. -/
theorem chosen_eq_iff {a : Str} (ha : is_attr a = true) (op : Comparison) {z : Str}
    (hext : z ≠ [':', '=']) : chosen [a, op.text, z] = op ↔ z ∉ op.taken := by
  have h1 : (['<', '='] : Str) ≠ a := (attr_ne ha rfl).symm
  have h2 : (['>', '='] : Str) ≠ a := (attr_ne ha rfl).symm
  have h3 : (['~', '='] : Str) ≠ a := (attr_ne ha rfl).symm
  unfold chosen
  -- The operators are tried in one order, so a value that looks like an earlier one is taken for
  -- it.
  cases op with
  | LessOrEqual => simp [Comparison.text, Comparison.taken, hext]
  | GreaterOrEqual =>
    simp only [Comparison.text, Comparison.taken, List.mem_cons, List.not_mem_nil, or_false, h1]
    by_cases hz : (['<', '='] : Str) = z
    · simp [← hz]
    · simp [hz, hext, Ne.symm hz]
  | ApproxMatch =>
    simp only [Comparison.text, Comparison.taken, List.mem_cons, List.not_mem_nil, or_false, h1,
      h2]
    by_cases hz : (['<', '='] : Str) = z
    · simp [← hz]
    · by_cases hw : (['>', '='] : Str) = z
      · simp [← hw]
      · simp [hz, hw, hext, Ne.symm hz, Ne.symm hw]
  | Equal =>
    simp only [Comparison.text, Comparison.taken, List.mem_cons, List.not_mem_nil, or_false, h1,
      h2, h3]
    by_cases hz : (['<', '='] : Str) = z
    · simp [← hz]
    · by_cases hw : (['>', '='] : Str) = z
      · simp [← hw]
      · by_cases hy : (['~', '='] : Str) = z
        · simp [← hy]
        · simp [hz, hw, hy, hext, Ne.symm hz, Ne.symm hw, Ne.symm hy]

/-- A comparison spelled out is read back exactly when its value is readable: the value is one token
and does not look like an operator. -/
theorem comparison_read_iff {a v t : Str} (ha : is_attr a = true) (op : Comparison)
    (hv : Escaped v t) :
    getfld (.list ((cut 0 (op.text ++ t) [a]).map .str)) = .ok (.Compare op a (.str v)) ↔
      (Filter.Compare op a v).readable = true := by
  rw [cut_comparison ha, getfld_comparison ha op (star_not_cut hv)]
  unfold Filter.readable
  rw [Bool.and_eq_true, Bool.not_eq_true', List.contains_eq_mem, decide_eq_false_iff_not]
  constructor
  -- From the filter read back: there was one token, and it is the value.
  · intro h
    split at h
    · cases h
    · rename_i hext
      unfold comparison_of at h
      split at h
      · rename_i z hcut
        have hpair := Except.ok.inj h
        injection hpair with hop _ hz
        injection hz with hz
        subst hz
        obtain ⟨htv, hlone⟩ := lone_of_cut hv hcut
        rw [hcut, List.mem_singleton] at hext
        exact ⟨hlone, (chosen_eq_iff ha op (Ne.symm hext)).mp hop⟩
      · cases h
  -- And back: one readable token is not the extensible sign and does not look like an operator.
  · rintro ⟨hlone, htaken⟩
    have hplain : ∀ c ∈ v, escapes c = false := by
      have hall := hlone
      unfold lone at hall
      rw [Bool.and_eq_true, List.all_eq_true] at hall
      exact fun c hc => by simpa using hall.1 c hc
    have hext : v ≠ [':', '='] := by
      rintro rfl
      exact htaken (by cases op <;> simp [Comparison.taken])
    rw [hv.eq_of_plain hplain, cut_lone hlone, if_neg (by simpa using Ne.symm hext)]
    unfold comparison_of
    dsimp only
    rw [(chosen_eq_iff ha op hext).mpr htaken]

/-! ## Substrings -/

/-- Values and their texts, cut one behind another. -/
def cuts (l : List (Str × Str)) : List Str := l.flatMap fun p => cut 0 p.2 []

theorem cuts_cons (p : Str × Str) (l : List (Str × Str)) :
    cuts (p :: l) = cut 0 p.2 [] ++ cuts l := List.flatMap_cons

/-- Texts whose tokens are the values are of lone values. -/
theorem lone_of_cuts {l : List (Str × Str)} (hl : ∀ p ∈ l, Escaped p.1 p.2)
    (h : cuts l = l.map Prod.fst) : ∀ p ∈ l, lone p.1 = true := by
  induction l with
  | nil => exact fun p hp => absurd hp List.not_mem_nil
  | cons p l ih =>
    rw [List.forall_mem_cons] at hl
    rw [cuts_cons, List.map_cons] at h
    cases hcut : cut 0 p.2 [] with
    | cons s ss =>
      rw [hcut, List.cons_append] at h
      obtain ⟨rfl, htail⟩ := List.cons.inj h
      obtain ⟨heq, hlone⟩ := lone_of_cut hl.1 hcut
      have hself := cut_lone hlone
      rw [← heq, hcut] at hself
      have hss : ss = [] := (List.cons.inj (hself.trans (by rw [heq]))).2
      rw [hss, List.nil_append] at htail
      exact List.forall_mem_cons.mpr ⟨hlone, ih hl.2 htail⟩
    | nil =>
      -- the value begins with a blank, and the token that stands for it does not
      rw [hcut, List.nil_append] at h
      exfalso
      have hmem : p.1 ∈ cuts l := by
        rw [h]
        exact List.mem_cons_self
      obtain ⟨q, -, hq⟩ := List.mem_flatMap.mp hmem
      have hnone : ∀ s ∈ ([] : List Str), Starts s := fun s hs => absurd hs List.not_mem_nil
      obtain ⟨x, t, hp2, hx⟩ := hl.1.starts (starts_cut hnone p.1 hq)
      have hlen := cut_ne_nil hx t
      rw [hp2] at hcut
      exact hlen hcut

theorem cuts_of_lone {l : List (Str × Str)} (hl : ∀ p ∈ l, Escaped p.1 p.2)
    (h : ∀ p ∈ l, lone p.1 = true) : ∀ p ∈ l, cut 0 p.2 [] = [p.1] := by
  intro p hp
  have hlone := h p hp
  have hplain : ∀ c ∈ p.1, escapes c = false := by
    have hall := hlone
    unfold lone at hall
    rw [Bool.and_eq_true, List.all_eq_true] at hall
    exact fun c hc => by simpa using hall.1 c hc
  rw [(hl p hp).eq_of_plain hplain, cut_lone hlone]

/-- A star is a token, and nothing is cut across it. -/
theorem cut_star (t r : Str) : cut 0 (t ++ '*' :: r) [] = cut 0 t [] ++ ['*'] :: cut 0 r [] := by
  have hstops : Stops ('*' :: r) := by
    intro c hc
    cases hc
    rfl
  have hstep (cur : List Str) : cut 0 ('*' :: r) cur = cut 0 r (cur ++ [['*']]) := rfl
  have hbehind := cut_behind (cut 0 t [] ++ [['*']]) [] (fun _ u hu => by
    rw [List.getLast?_append] at hu
    cases hu
    rfl) 0 r
  rw [List.append_nil, List.append_assoc] at hbehind
  rw [cut_append hstops (Nat.zero_le _), hstep, hbehind]
  rfl

/-- Each value and its text behind the first star. -/
theorem SpellsAnys.pairs {vs : List Str} {u : Str} (h : SpellsAnys vs u) :
    ∃ l : List (Str × Str), l.map Prod.fst = vs ∧ (∀ p ∈ l, Escaped p.1 p.2) ∧
      ('(' ∉ u ∧ ')' ∉ u) ∧
      ∀ w, cut 0 (u ++ w) [] = l.flatMap (fun p => cut 0 p.2 [] ++ [['*']]) ++ cut 0 w [] := by
  induction h with
  | nil => exact ⟨[], rfl, fun p hp => absurd hp List.not_mem_nil, by simp, fun w => rfl⟩
  | @cons v t vs u hv hvs ih =>
    obtain ⟨l, rfl, hl, hparen, hcut⟩ := ih
    refine ⟨(v, t) :: l, rfl, List.forall_mem_cons.mpr ⟨hv, hl⟩, ?_, fun w => ?_⟩
    · have hopen := hv.not_mem (d := '(') rfl rfl
      have hclose := hv.not_mem (d := ')') rfl rfl
      simp [hopen, hclose, hparen.1, hparen.2]
    · rw [List.append_assoc, List.cons_append, cut_star, hcut, List.flatMap_cons]
      simp

/-- An end of a substring filter, there or not, as a list of at most one value with its spelling. -/
theorem SpellsEnd.pairs {o : Option Str} {t : Str} (h : SpellsEnd o t) :
    ∃ l : List (Str × Str), l.map Prod.fst = o.toList ∧ (∀ p ∈ l, Escaped p.1 p.2) ∧
      ('(' ∉ t ∧ ')' ∉ t) ∧ cut 0 t [] = cuts l := by
  cases o with
  | none =>
    have ht : t = [] := h
    subst ht
    exact ⟨[], rfl, fun p hp => absurd hp List.not_mem_nil, by simp, rfl⟩
  | some v =>
    have hv : Escaped v t := h.2
    refine ⟨[(v, t)], rfl, ?_, ⟨hv.not_mem rfl rfl, hv.not_mem rfl rfl⟩, ?_⟩
    · intro p hp
      rw [List.mem_singleton] at hp
      rw [hp]
      exact hv
    · rw [cuts_cons]
      simp [cuts]

/-! ## Parts by place -/

theorem vals_tokens (ps : List (Part Str)) :
    (ps.map Part.token).map Part.val = (ps.map Part.val).map Token.str := by
  rw [List.map_map, List.map_map]
  refine List.map_congr_left fun p _ => ?_
  cases p with
  | initial val => rfl
  | any val => rfl
  | final val => rfl

/-- The parts keep the values between the stars, in order. -/
theorem parts_vals (n i : ℕ) (ys : List Str) :
    (parts n i (ys.map .str)).map Part.val
      = (ys.filter fun y => y ≠ ['*']).map Token.str := by
  induction ys generalizing i with
  | nil => rfl
  | cons y ys ih =>
    rw [List.map_cons, parts]
    have hheld : held ['*'] [Token.str y] = decide (y = ['*']) := by
      unfold held
      simp
    rw [hheld]
    by_cases hy : y = ['*']
    · simp [hy, ih]
    · simp only [hy, decide_false, if_neg Bool.false_ne_true, List.map_cons, ih]
      rw [List.filter_cons_of_pos (by simpa using hy), List.map_cons]
      refine congrArg (· :: _) ?_
      split
      · rfl
      · split
        · rfl
        · rfl

theorem parts_star (n i : ℕ) (ys : List Token) :
    parts n i (.str ['*'] :: ys) = parts n (i + 1) ys := rfl

theorem parts_value {v : Str} (hv : v ≠ ['*']) (n i : ℕ) (ys : List Token) :
    parts n i (.str v :: ys)
      = (if i = n - 1 then .final (.str v) else if i = 0 then .initial (.str v)
          else .any (.str v)) :: parts n (i + 1) ys := by
  have hheld : held ['*'] [Token.str v] = false := by
    unfold held
    simpa using hv
  rw [parts, hheld, if_neg Bool.false_ne_true]

/-- The values between stars are neither first nor last. -/
theorem parts_anys {vs : List Str} (hvs : ∀ v ∈ vs, v ≠ ['*']) {n i : ℕ} (hi : 0 < i)
    (rest : List Str) (hn : i + 2 * vs.length + rest.length = n) :
    parts n i ((vs.flatMap (fun v => [v, ['*']]) ++ rest).map .str)
      = vs.map (fun v => .any (.str v)) ++ parts n (i + 2 * vs.length) (rest.map .str) := by
  induction vs generalizing i with
  | nil => rfl
  | cons v vs ih =>
    rw [List.forall_mem_cons] at hvs
    rw [List.length_cons] at hn
    have hlist : ((v :: vs).flatMap (fun v => [v, ['*']]) ++ rest).map Token.str
        = .str v :: .str ['*'] :: (vs.flatMap (fun v => [v, ['*']]) ++ rest).map .str := by simp
    rw [hlist, parts_value hvs.1, parts_star, if_neg (by omega), if_neg (by omega),
      ih hvs.2 (by omega) (by omega), List.length_cons,
      show i + 1 + 1 + 2 * vs.length = i + 2 * (vs.length + 1) by omega]
    rfl

/-- The last value is the final part. -/
theorem parts_back {back : Option Str} (hback : ∀ v ∈ back, v ≠ ['*']) {n i : ℕ}
    (hn : i + back.toList.length = n) :
    parts n i (back.toList.map .str) = back.toList.map fun v => .final (.str v) := by
  cases back with
  | none => rfl
  | some v =>
    have hlen : i + 1 = n := hn
    rw [Option.toList_some, List.map_singleton, parts_value (hback v rfl), if_pos (by omega)]
    rfl

/-- The parts of a substring filter whose values are tokens. -/
theorem parts_eq {front back : Option Str} {vs : List Str} (hfront : ∀ v ∈ front, v ≠ ['*'])
    (hvs : ∀ v ∈ vs, v ≠ ['*']) (hback : ∀ v ∈ back, v ≠ ['*']) {ys : List Str}
    (hys : ys = front.toList ++ ['*'] :: (vs.flatMap (fun v => [v, ['*']]) ++ back.toList)) :
    parts ys.length 0 (ys.map .str)
      = (front.toList.map Part.initial ++ vs.map Part.any ++ back.toList.map Part.final).map
        Part.token := by
  -- The positions of the first and the last value, by the lengths.
  have hlen : ys.length = front.toList.length + 1 + 2 * vs.length + back.toList.length := by
    have hdouble : (vs.flatMap fun v => [v, ['*']]).length = 2 * vs.length := by
      rw [List.length_flatMap]
      simp [Nat.mul_comm]
    rw [hys]
    simp only [List.length_append, List.length_cons, hdouble]
    omega
  have htokens : (front.toList.map Part.initial ++ vs.map Part.any ++
      back.toList.map Part.final).map Part.token
      = front.toList.map (fun v => .initial (.str v)) ++ (vs.map (fun v => .any (.str v)) ++
        back.toList.map fun v => .final (.str v)) := by
    simp only [List.map_append, List.map_map, List.append_assoc]
    rfl
  rw [htokens]
  generalize ys.length = n at hlen ⊢
  subst hys
  -- A first value is the initial part; without one the first position holds a star.
  cases front with
  | none =>
    rw [Option.toList_none, List.length_nil] at hlen
    rw [Option.toList_none, List.nil_append, List.map_nil, List.nil_append, List.map_cons,
      parts_star, parts_anys hvs (by omega) back.toList (by omega), parts_back hback (by omega)]
  | some v =>
    rw [Option.toList_some, List.length_singleton] at hlen
    rw [Option.toList_some, List.singleton_append, List.map_cons, List.map_cons,
      parts_value (hfront v rfl), parts_star, if_neg (by omega), if_pos rfl,
      parts_anys hvs (by omega) back.toList (by omega), parts_back hback (by omega)]
    rfl

/-- What the grammar makes of an item's tokens with a star among them. -/
theorem getfld_substrings {a : Str} (ha : is_attr a = true) {ys : List Str}
    (hstar : (['*'] : Str) ∈ ys) :
    getfld (.list ((a :: ['='] :: ys).map .str))
      = .ok (.Substrings a (parts ys.length 0 (ys.map .str))) := by
  have hmark : a ≠ ['!'] := attr_ne ha rfl
  rw [getfld, List.map_cons, getfld_list_item (attr_not_and_or ha) hmark]
  unfold getfld_item
  dsimp only
  rw [← List.map_cons, held_map, held_map, decide_eq_true (by simp),
    decide_eq_true (by simp [hstar]), Bool.and_self, if_pos rfl]
  cases ys with
  | nil => exact absurd hstar List.not_mem_nil
  | cons z zs =>
    rw [List.map_cons, List.map_cons]
    dsimp only
    rw [if_pos (by rfl), strip_attr ha, List.length_cons, List.length_map]
    rfl

theorem lone_ne_star {v : Str} (h : lone v = true) : v ≠ ['*'] := by
  rintro rfl
  cases h

theorem cut_equals {a : Str} (ha : is_attr a = true) (r : Str) :
    cut 0 ('=' :: r) [a] = a :: ['='] :: cut 0 r [] := cut_comparison ha .Equal r

theorem cut_kept {t v : Str} (h : Escaped v t) :
    (cut 0 t []).filter (fun y => y ≠ ['*']) = cut 0 t [] := by
  refine List.filter_eq_self.mpr fun y hy => ?_
  simp only [decide_eq_true_eq]
  rintro rfl
  exact star_not_cut h hy

/-- Nor do those of several. -/
theorem cuts_kept {l : List (Str × Str)} (hl : ∀ p ∈ l, Escaped p.1 p.2) :
    (cuts l).filter (fun y => y ≠ ['*']) = cuts l := by
  unfold cuts
  rw [List.filter_flatMap]
  exact List.flatMap_congr fun p hp => cut_kept (hl p hp)

/-- Dropping the stars that end the middle values leaves what the values are cut into. -/
theorem anys_kept {l : List (Str × Str)} (hl : ∀ p ∈ l, Escaped p.1 p.2) :
    (l.flatMap fun p => cut 0 p.2 [] ++ [['*']]).filter (fun y => y ≠ ['*']) = cuts l := by
  unfold cuts
  rw [List.filter_flatMap]
  refine List.flatMap_congr fun p hp => ?_
  rw [List.filter_append, cut_kept (hl p hp)]
  simp

/-- A substring filter spelled out is read back exactly when each of its values is one token. -/
theorem substrings_read_iff {a t u w : Str} {front back : Option Str} {vs : List Str}
    (ha : is_attr a = true) (hfront : SpellsEnd front t) (hvs : SpellsAnys vs u)
    (hback : SpellsEnd back w) :
    getfld (.list ((cut 0 ('=' :: (t ++ '*' :: (u ++ w))) [a]).map .str))
        = .ok (.Substrings a ((front.toList.map Part.initial ++ vs.map Part.any ++
          back.toList.map Part.final).map Part.token)) ↔
      (front.toList.map Part.initial ++ vs.map Part.any ++ back.toList.map Part.final).all
        (fun p => lone p.val) = true := by
  obtain ⟨lf, hlf, hef, -, hcf⟩ := hfront.pairs
  obtain ⟨lv, rfl, hev, -, hcv⟩ := hvs.pairs
  obtain ⟨lb, hlb, heb, -, hcb⟩ := hback.pairs
  have hcut : cut 0 (t ++ '*' :: (u ++ w)) []
      = cuts lf ++ ['*'] :: (lv.flatMap (fun p => cut 0 p.2 [] ++ [['*']]) ++ cuts lb) := by
    rw [cut_star, hcf, hcv, hcb]
  rw [cut_equals ha, getfld_substrings ha (by rw [hcut]; simp)]
  have hescaped : ∀ p ∈ lf ++ lv ++ lb, Escaped p.1 p.2 := by
    intro p hp
    rw [List.mem_append, List.mem_append] at hp
    obtain (hp | hp) | hp := hp
    · exact hef p hp
    · exact hev p hp
    · exact heb p hp
  have hvals : (front.toList.map Part.initial ++ (lv.map Prod.fst).map Part.any ++
      back.toList.map Part.final).map Part.val = (lf ++ lv ++ lb).map Prod.fst := by
    rw [List.map_append, List.map_append, ← hlf, ← hlb]
    simp [Part.val, Function.comp_def]
  have hall : (front.toList.map Part.initial ++ (lv.map Prod.fst).map Part.any ++
      back.toList.map Part.final).all (fun p => lone p.val) = true ↔
      ∀ p ∈ lf ++ lv ++ lb, lone p.1 = true := by
    rw [List.all_eq_true, ← List.forall_mem_map (f := Part.val) (P := fun v => lone v = true),
      hvals, List.forall_mem_map]
  rw [hall]
  -- both sides are cut at the same stars, so the parts agree as lists or not at all
  constructor
  · intro h
    have hparts := congrArg (List.map Part.val) (Filter.Substrings.inj (Except.ok.inj h)).2
    rw [parts_vals] at hparts
    have hstrs : (cut 0 (t ++ '*' :: (u ++ w)) []).filter (fun y => y ≠ ['*'])
        = (lf ++ lv ++ lb).map Prod.fst := by
      rw [← hvals]
      refine List.map_injective_iff.mpr (fun _ _ h => Token.str.inj h) ?_
      rw [hparts, vals_tokens]
    have hjoined : cuts (lf ++ lv ++ lb) = (lf ++ lv ++ lb).map Prod.fst := by
      rw [← hstrs, hcut, List.filter_append, List.filter_cons_of_neg (by simp),
        List.filter_append, cuts_kept hef, anys_kept hev, cuts_kept heb]
      unfold cuts
      rw [List.flatMap_append, List.flatMap_append, List.append_assoc]
    exact lone_of_cuts hescaped hjoined
  · intro h
    have hone := cuts_of_lone hescaped h
    have hinf : ∀ p ∈ lf, p ∈ lf ++ lv ++ lb := fun p hp => by simp [hp]
    have hinb : ∀ p ∈ lb, p ∈ lf ++ lv ++ lb := fun p hp => by simp [hp]
    have hlist {l : List (Str × Str)} (hl : ∀ p ∈ l, p ∈ lf ++ lv ++ lb) :
        cuts l = l.map Prod.fst := by
      unfold cuts
      rw [List.flatMap_congr fun p hp => hone p (hl p hp), List.map_eq_flatMap]
    have hbetween : lv.flatMap (fun p => cut 0 p.2 [] ++ [['*']])
        = (lv.map Prod.fst).flatMap fun v => [v, ['*']] := by
      rw [List.flatMap_map]
      refine List.flatMap_congr fun p hp => ?_
      rw [hone p (by simp [hp])]
      rfl
    have hne {o : Option Str} {l : List (Str × Str)} (hl : l.map Prod.fst = o.toList)
        (hin : ∀ p ∈ l, p ∈ lf ++ lv ++ lb) : ∀ v ∈ o, v ≠ ['*'] := by
      intro v hv
      have hmem : v ∈ l.map Prod.fst := by
        rw [hl]
        exact Option.mem_toList.mpr hv
      obtain ⟨p, hp, rfl⟩ := List.mem_map.mp hmem
      exact lone_ne_star (h p (hin p hp))
    have hnevs : ∀ v ∈ lv.map Prod.fst, v ≠ ['*'] := by
      intro v hv
      obtain ⟨p, hp, rfl⟩ := List.mem_map.mp hv
      exact lone_ne_star (h p (by simp [hp]))
    rw [hcut, hlist hinf, hbetween, hlist hinb, hlf, hlb]
    exact congrArg (fun ps => Except.ok (Filter.Substrings a ps))
      (parts_eq (hne hlf hinf) hnevs (hne hlb hinb) rfl)

end Wiry.Ldap.Rfc2254
