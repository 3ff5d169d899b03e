/-
The tokens of a text without parentheses: what the loop of `from_rfc2254_string` cuts an item into,
and which assertion values come out of it as one token.

Only the special characters cut a text; a run of others is one token, and the
operators of two characters are one each. `read_cut` says that for a text
without parentheses the loop does nothing but cut, wherever in a filter that
text stands.
-/
import Mathlib.Data.List.Infix
import Wiry.Ldap.Rfc2254

set_option autoImplicit false

namespace Wiry.Ldap.Rfc2254

/-! ## Characters -/

/-- A token an equals sign is merged into. -/
def merges (t : Str) : Bool := str_in t ['~', '>', '<', ':']

theorem mem_of_str_in {t s : Str} (h : str_in t s = true) {c : Char} (hc : c ∈ t) : c ∈ s := by
  unfold str_in at h
  rw [List.any_eq_true] at h
  obtain ⟨u, hu, hprefix⟩ := h
  have hsub := (List.isPrefixOf_iff_prefix.mp hprefix).subset hc
  exact ((List.mem_tails u s).mp hu).subset hsub

theorem not_merges_of_plain {t : Str} (hne : t ≠ []) (h : ∀ c ∈ t, special c = false) :
    merges t = false := by
  cases t with
  | nil => exact absurd rfl hne
  | cons c t =>
    by_contra hmerges
    have hmem := mem_of_str_in (Bool.not_eq_false _ ▸ hmerges) (List.mem_cons_self (a := c) (l := t))
    have hplain := h c List.mem_cons_self
    simp only [List.mem_cons, List.not_mem_nil, or_false] at hmem
    obtain rfl | rfl | rfl | rfl := hmem <;> cases hplain

/-- What follows a text ends any value before it. -/
def Stops (rest : Str) : Prop := ∀ c ∈ rest.head?, special c = true

/-- The run of plain characters does not reach past a stop. -/
theorem takeWhile_stops {text rest : Str} (h : Stops rest) :
    (text ++ rest).takeWhile (fun x => !special x) = text.takeWhile fun x => !special x := by
  induction text with
  | nil =>
    cases rest with
    | nil => rfl
    | cons c rest =>
      have hc : special c = true := h c rfl
      simp [hc]
  | cons c text ih =>
    cases hc : special c with
    | true => simp [hc]
    | false => simp [hc, ih]

/-! ## Cutting -/

/-- The tokens of a text without parentheses, behind those already there. -/
def cut : ℕ → Str → List Str → List Str
  | _, [], cur => cur
  | skip + 1, _ :: text, cur => cut skip text cur
  | 0, c :: text, cur =>
    if blank c then cut 0 text cur
    else if c = '=' then
      match cur.getLast? with
      | none => cut 0 text (cur ++ [['=']])
      | some t =>
        if merges t then cut 0 text (cur.dropLast ++ [t ++ ['=']])
        else cut 0 text (cur ++ [['=']])
    else if special c then cut 0 text (cur ++ [[c]])
    else
      let v := (c :: text).takeWhile fun x => !special x
      cut (v.length - 1) text (cur ++ [v])

theorem length_value_le (c : Char) (text : Str) :
    ((c :: text).takeWhile fun x => !special x).length - 1 ≤ text.length := by
  have h := (List.takeWhile_prefix (fun x => !special x) (l := c :: text)).length_le
  rw [List.length_cons] at h
  omega

/-- The loop cuts a text without parentheses as `cut` does. -/
theorem read_cut {text rest : Str} (hopen : '(' ∉ text) (hclose : ')' ∉ text) (hrest : Stops rest)
    {skip : ℕ} (hskip : skip ≤ text.length) {cur : List Str} (hcur : cur ≠ [])
    (backtrack : List (List Token)) :
    read skip (text ++ rest) (cur.map .str) backtrack
      = read 0 rest ((cut skip text cur).map .str) backtrack := by
  -- By the text, with the characters already taken up skipped.
  induction text generalizing skip cur with
  | nil =>
    have hzero : skip = 0 := by simpa using hskip
    subst hzero
    rfl
  | cons c text ih =>
    rw [List.mem_cons, not_or] at hopen hclose
    have ih' {skip : ℕ} (hskip : skip ≤ text.length) {cur : List Str} (hcur : cur ≠ []) :=
      ih hopen.2 hclose.2 hskip hcur
    have hpush (s : Str) : (cur.map Token.str) ++ [.str s] = (cur ++ [s]).map .str := by simp
    rw [List.cons_append]
    cases skip with
    | succ skip =>
      rw [read, cut]
      exact ih' (by simpa using hskip) hcur
    | zero =>
      rw [read.eq_def, cut]
      dsimp only
      by_cases hblank : blank c = true
      · rw [if_pos hblank, if_pos hblank]
        exact ih' (Nat.zero_le _) hcur
      rw [if_neg hblank, if_neg hblank, if_neg (Ne.symm hopen.1), if_neg (Ne.symm hclose.1)]
      -- The sign of equality may be doubled; the other special characters are one token each.
      by_cases hequals : c = '='
      · subst hequals
        rw [if_neg (by decide), if_pos rfl, if_pos rfl, List.getLast?_map]
        obtain ⟨init, t, rfl⟩ := List.eq_nil_or_concat cur |>.resolve_left hcur
        simp only [List.concat_eq_append, List.getLast?_append, List.getLast?_singleton,
          Option.some_or, Option.map_some]
        unfold merges
        by_cases hmerges : str_in t ['~', '>', '<', ':'] = true
        · rw [if_pos hmerges, if_pos hmerges]
          have hinit : ((init ++ [t]).map Token.str).dropLast ++ [.str (t ++ ['='])]
              = ((init ++ [t]).dropLast ++ [t ++ ['=']]).map .str := by simp
          rw [hinit]
          exact ih' (Nat.zero_le _) (by simp)
        · rw [if_neg hmerges, if_neg hmerges]
          simp only [List.concat_eq_append] at hpush
          rw [hpush]
          exact ih' (Nat.zero_le _) (by simp)
      rw [if_neg hequals]
      by_cases hspecial : special c = true
      · have hsplit : (c = '&' ∨ c = '|' ∨ c = '!') ∨ (c = '~' ∨ c = '>' ∨ c = '<') ∨ c = ':' ∨
            c = '*' := by
          unfold special at hspecial
          simp only [List.mem_cons, List.not_mem_nil, or_false, decide_eq_true_eq] at hspecial
          grind
        rw [if_pos hspecial]
        have hstep : read 0 (text ++ rest) (cur.map .str ++ [.str [c]]) backtrack
            = read 0 rest ((cut 0 text (cur ++ [[c]])).map .str) backtrack := by
          rw [hpush]
          exact ih' (Nat.zero_le _) (by simp)
        grind
      -- A plain character starts a run, which the text ends or a special character does.
      · have hnot {x : Char} (hx : special x = true) : c ≠ x := by
          rintro rfl
          exact hspecial hx
        rw [if_neg hspecial,
          if_neg (by
            rintro (h | h | h)
            · exact hnot (by decide) h
            · exact hnot (by decide) h
            · exact hnot (by decide) h),
          if_neg hequals,
          if_neg (by
            rintro (h | h | h)
            · exact hnot (by decide) h
            · exact hnot (by decide) h
            · exact hnot (by decide) h),
          if_neg (hnot (by decide)), if_neg (hnot (by decide))]
        rw [← List.cons_append, takeWhile_stops hrest, hpush]
        exact ih' (length_value_le c text) (by simp)

/-- The tokens of two texts, the second beginning with a character that ends a value. -/
theorem cut_append {text rest : Str} (hrest : Stops rest) {skip : ℕ}
    (hskip : skip ≤ text.length) (cur : List Str) :
    cut skip (text ++ rest) cur = cut 0 rest (cut skip text cur) := by
  -- Nothing in `rest` goes on with a value, so the cut stops at the seam.
  induction text generalizing skip cur with
  | nil =>
    have hzero : skip = 0 := by simpa using hskip
    subst hzero
    rfl
  | cons c text ih =>
    rw [List.cons_append]
    cases skip with
    | succ skip =>
      rw [cut, cut]
      exact ih (by simpa using hskip) cur
    | zero =>
      rw [cut, cut, ← List.cons_append, takeWhile_stops hrest]
      have hzero (cur : List Str) := ih (Nat.zero_le _) cur
      have hvalue (cur : List Str) := ih (length_value_le c text) cur
      -- Whatever the first character starts, a token or a value, it ends inside `text`.
      split
      · exact hzero _
      · split
        · split
          · exact hzero _
          · split
            · exact hzero _
            · exact hzero _
        · split
          · exact hzero _
          · exact hvalue _

/-- The tokens in front stay, unless the last of them takes an equals sign. -/
theorem cut_behind (pre cur : List Str) (h : cur = [] → ∀ t ∈ pre.getLast?, merges t = false)
    (skip : ℕ) (text : Str) : cut skip text (pre ++ cur) = pre ++ cut skip text cur := by
  -- By the text; a token merges with the one before it only at the front of the current list.
  induction text generalizing skip cur with
  | nil => rfl
  | cons c text ih =>
    have hstep (skip : ℕ) (s : Str) (front : List Str) :
        cut skip text (pre ++ (front ++ [s])) = pre ++ cut skip text (front ++ [s]) :=
      ih (front ++ [s]) (fun hnil => absurd hnil (by simp)) skip
    cases skip with
    | succ skip =>
      rw [cut, cut]
      exact ih cur h skip
    | zero =>
      rw [cut, cut]
      split
      · exact ih cur h 0
      · split
        · rw [List.getLast?_append]
          cases hlast : cur.getLast? with
          | none =>
            have hnil : cur = [] := List.getLast?_eq_none_iff.mp hlast
            have hpre := h hnil
            subst hnil
            have hone := hstep 0 ['='] []
            rw [List.nil_append] at hone
            cases hl : pre.getLast? with
            | none => simpa using hone
            | some t =>
              rw [hl] at hpre
              have ht := hpre t rfl
              simpa [ht] using hone
          | some t =>
            have hne : cur ≠ [] := by
              rintro rfl
              cases hlast
            simp only [Option.some_or]
            split
            · rw [List.dropLast_append_of_ne_nil hne, List.append_assoc]
              exact hstep 0 (t ++ ['=']) cur.dropLast
            · rw [List.append_assoc]
              exact hstep 0 ['='] cur
        · split
          · rw [List.append_assoc]
            exact hstep 0 [c] cur
          · dsimp only
            rw [List.append_assoc]
            exact hstep _ _ cur

theorem cut_skip_all (text : Str) (cur : List Str) : cut text.length text cur = cur := by
  induction text with
  | nil => rfl
  | cons c text ih =>
    rw [List.length_cons, cut]
    exact ih

/-- What a character does that is not passed over: it is blank, it is merged into the last token, or
it begins a token. -/
theorem cut_cons (c : Char) (text : Str) (cur : List Str) :
    (blank c = true ∧ cut 0 (c :: text) cur = cut 0 text cur) ∨
    (∃ t, c = '=' ∧ cur.getLast? = some t ∧
      cut 0 (c :: text) cur = cut 0 text (cur.dropLast ++ [t ++ ['=']])) ∨
    (blank c = false ∧ ∃ skip r, (∀ x ∈ r, x ∈ text) ∧
      cut 0 (c :: text) cur = cut skip text (cur ++ [c :: r])) := by
  have halone : ∀ x ∈ ([] : Str), x ∈ text := by simp
  rw [cut]
  -- In the order of the source: blank, equals sign, special character, value.
  cases hblank : blank c with
  | true => exact .inl ⟨rfl, if_pos rfl⟩
  | false =>
    rw [if_neg Bool.false_ne_true]
    by_cases hequals : c = '='
    · subst hequals
      rw [if_pos rfl]
      cases hlast : cur.getLast? with
      | none => exact .inr (.inr ⟨rfl, 0, [], halone, rfl⟩)
      | some t =>
        -- an equals sign joins the `<`, `>`, `~` or `:` in front of it
        by_cases hmerges : merges t = true
        · exact .inr (.inl ⟨t, rfl, rfl, if_pos hmerges⟩)
        · exact .inr (.inr ⟨rfl, 0, [], halone, if_neg hmerges⟩)
    · rw [if_neg hequals]
      by_cases hspecial : special c = true
      · exact .inr (.inr ⟨rfl, 0, [], halone, if_pos hspecial⟩)
      · have hvalue : (c :: text).takeWhile (fun x => !special x)
            = c :: text.takeWhile fun x => !special x :=
          List.takeWhile_cons_of_pos (by simpa using hspecial)
        rw [if_neg hspecial, hvalue]
        exact .inr (.inr ⟨rfl, _, _, fun x hx => List.takeWhile_subset _ hx, rfl⟩)

/-- The characters of a token are of the text or were there before. -/
theorem mem_cut {skip : ℕ} {text : Str} {cur : List Str} {s : Str} (h : s ∈ cut skip text cur)
    {x : Char} (hx : x ∈ s) : x ∈ text ∨ ∃ t ∈ cur, x ∈ t := by
  induction text generalizing skip cur with
  | nil => exact Or.inr ⟨s, h, hx⟩
  | cons c text ih =>
    -- A token pushed now is new, the others are of the list or read later.
    have hpush {skip : ℕ} {v : Str} {front : List Str} (hfront : ∀ t ∈ front, t ∈ cur)
        (h : s ∈ cut skip text (front ++ [v])) (hv : ∀ y ∈ v, y ∈ c :: text ∨ ∃ t ∈ cur, y ∈ t) :
        x ∈ c :: text ∨ ∃ t ∈ cur, x ∈ t := by
      obtain hmem | ⟨t, ht, hxt⟩ := ih h
      · exact Or.inl (List.mem_cons_of_mem c hmem)
      · rw [List.mem_append, List.mem_singleton] at ht
        obtain ht | rfl := ht
        · exact Or.inr ⟨t, hfront t ht, hxt⟩
        · exact hv x hxt
    cases skip with
    | succ skip =>
      rw [cut] at h
      exact (ih h).imp_left (List.mem_cons_of_mem c)
    | zero =>
      obtain ⟨-, heq⟩ | ⟨t, rfl, hlast, heq⟩ | ⟨-, skip, r, hr, heq⟩ := cut_cons c text cur
      · exact (ih (heq ▸ h)).imp_left (List.mem_cons_of_mem c)
      · refine hpush (fun u hu => List.dropLast_subset _ hu) (heq ▸ h) fun y hy => ?_
        obtain hy | hy := List.mem_append.mp hy
        · exact Or.inr ⟨t, List.mem_of_getLast? hlast, hy⟩
        · exact Or.inl (List.mem_singleton.mp hy ▸ List.mem_cons_self)
      · refine hpush (fun t ht => ht) (heq ▸ h) fun y hy => Or.inl ?_
        obtain rfl | hy := List.mem_cons.mp hy
        · exact List.mem_cons_self
        · exact List.mem_cons_of_mem c (hr y hy)

/-- A token begins with a character that is no blank. -/
def Starts (s : Str) : Prop := ∃ c r, s = c :: r ∧ blank c = false

/-- Every token that is cut starts as tokens do. -/
theorem starts_cut {skip : ℕ} {text : Str} {cur : List Str} (hcur : ∀ s ∈ cur, Starts s) :
    ∀ s ∈ cut skip text cur, Starts s := by
  induction text generalizing skip cur with
  | nil => exact hcur
  | cons c text ih =>
    -- A token pushed at the end starts as it should, the ones before did already.
    have hpush {skip : ℕ} {v : Str} {front : List Str} (hfront : ∀ t ∈ front, t ∈ cur)
        (hv : Starts v) : ∀ s ∈ cut skip text (front ++ [v]), Starts s := by
      refine ih fun s hs => ?_
      rw [List.mem_append, List.mem_singleton] at hs
      obtain hs | rfl := hs
      · exact hcur s (hfront s hs)
      · exact hv
    cases skip with
    | succ skip => exact ih hcur
    | zero =>
      obtain ⟨-, heq⟩ | ⟨t, -, hlast, heq⟩ | ⟨hblank, skip, r, -, heq⟩ := cut_cons c text cur
      · rw [heq]
        exact ih hcur
      · rw [heq]
        refine hpush (fun u hu => List.dropLast_subset _ hu) ?_
        obtain ⟨x, r, rfl, hx⟩ := hcur t (List.mem_of_getLast? hlast)
        exact ⟨x, r ++ ['='], rfl, hx⟩
      · rw [heq]
        exact hpush (fun t ht => ht) ⟨c, r, rfl, hblank⟩

/-- What there is stays, or is merged into. -/
theorem cut_ne_nil_of_cur {skip : ℕ} {text : Str} {cur : List Str} (h : cur ≠ []) :
    cut skip text cur ≠ [] := by
  induction text generalizing skip cur with
  | nil => exact h
  | cons c text ih =>
    cases skip with
    | succ skip => exact ih h
    | zero =>
      obtain ⟨-, heq⟩ | ⟨t, -, -, heq⟩ | ⟨-, skip, r, -, heq⟩ := cut_cons c text cur
      · exact heq ▸ ih h
      · exact heq ▸ ih (by simp)
      · exact heq ▸ ih (by simp)

theorem cut_ne_nil {c : Char} (h : blank c = false) (text : Str) : cut 0 (c :: text) [] ≠ [] := by
  obtain ⟨hblank, -⟩ | ⟨t, -, -, heq⟩ | ⟨-, skip, r, -, heq⟩ := cut_cons c text []
  · exact absurd h (by simp [hblank])
  · exact heq ▸ cut_ne_nil_of_cur (by simp)
  · exact heq ▸ cut_ne_nil_of_cur (by simp)

end Wiry.Ldap.Rfc2254
