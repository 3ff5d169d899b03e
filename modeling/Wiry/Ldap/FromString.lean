/-
`from_rfc2254_string` over whole filters, and the exceptions that leave it.

The tokens are nested lists, read by recursion on them, while the grammar
spells filters by recursion on the filter; `spells_read` goes along the
spelling and says at each filter what its tokens are and when they are read
back. That nothing but the module's own exceptions leaves the function is by
recursion on the tokens (`getfld_answered`).
-/
import Wiry.Ldap.Strings

set_option autoImplicit false

namespace Wiry.Ldap.Rfc2254

/-! ## Filters in filters -/

theorem comparison_stops (op : Comparison) (t : Str) : Stops (op.text ++ t ++ [')']) := by
  intro c hc
  cases op <;> cases hc <;> rfl

/-- The two operators over several filters. -/
theorem getfld_many {c : Char} (hc : c = '&' ∨ c = '|') (xs : List Token) :
    getfld (.list (.str [c] :: xs)) =
      if xs.length < 2 then .error .ValueError
      else (getfld_each xs).map (if c = '&' then .And else .Or) := by
  rw [getfld, getfld_list.eq_def]
  obtain rfl | rfl := hc
  · rfl
  · rfl

/-- A set of filters is read back exactly when it has two members at least and each is read back. -/
theorem many_read_iff {c : Char} (hc : c = '&' ∨ c = '|') {fs : List (Filter Str)}
    {xs : List Token} (hlen : xs.length = fs.length)
    (h : getfld_each xs = .ok (tokens_each fs) ↔ readable_each fs = true) :
    getfld (.list (.str [c] :: xs)) = .ok ((if c = '&' then Filter.And else Filter.Or) (tokens_each fs)) ↔
      (2 ≤ fs.length && readable_each fs) = true := by
  rw [getfld_many hc, Bool.and_eq_true, decide_eq_true_eq, ← h, hlen]
  -- Under two members the source refuses the set, whatever they are.
  by_cases hshort : fs.length < 2
  · rw [if_pos hshort]
    constructor
    · intro h
      cases h
    · intro h
      omega
  · rw [if_neg hshort]
    constructor
    · intro h
      refine ⟨by omega, ?_⟩
      cases heach : getfld_each xs with
      | error e =>
        rw [heach] at h
        cases h
      | ok gs =>
        rw [heach] at h
        have hgs := Except.ok.inj h
        obtain rfl | rfl := hc
        · exact congrArg Except.ok (Filter.And.inj hgs)
        · exact congrArg Except.ok (Filter.Or.inj hgs)
    · rintro ⟨-, h⟩
      rw [h]
      rfl

/-- The enclosure of an operator over what its texts are read as. -/
theorem read_enclosure {c : Char} (hc : c = '&' ∨ c = '|' ∨ c = '!') {t : Str} {xs : List Token}
    (h : ∀ rest cur backtrack,
      read 0 (t ++ rest) cur backtrack = read 0 rest (cur ++ xs) backtrack)
    (rest : Str) (cur : List Token) (backtrack : List (List Token)) :
    read 0 ('(' :: c :: t ++ [')'] ++ rest) cur backtrack
      = read 0 rest (cur ++ [.list (.str [c] :: xs)]) backtrack := by
  have htext : '(' :: c :: t ++ [')'] ++ rest = '(' :: c :: (t ++ (')' :: rest)) := by simp
  rw [htext, read_open, read_mark hc, h, List.nil_append, List.singleton_append, read_close]

mutual

/-- The text of a filter is one enclosure, and the grammar gives the filter back exactly when it is
readable. -/
theorem spells_read {f : Filter Str} {t : Str} (h : Spells f t) :
    ∃ x, (∀ rest cur backtrack,
        read 0 (t ++ rest) cur backtrack = read 0 rest (cur ++ [.list x]) backtrack) ∧
      (getfld (.list x) = .ok f.tokens ↔ f.readable = true) := by
  cases h with
  | @And fs t hne hs =>
    obtain ⟨xs, hlen, hread, hiff⟩ := spells_each_read hs
    refine ⟨.str ['&'] :: xs, read_enclosure (Or.inl rfl) hread, ?_⟩
    rw [Filter.tokens, Filter.readable]
    exact many_read_iff (Or.inl rfl) hlen hiff
  | @Or fs t hne hs =>
    obtain ⟨xs, hlen, hread, hiff⟩ := spells_each_read hs
    refine ⟨.str ['|'] :: xs, read_enclosure (Or.inr (Or.inl rfl)) hread, ?_⟩
    rw [Filter.tokens, Filter.readable]
    exact many_read_iff (Or.inr rfl) hlen hiff
  | @Not f t hf =>
    obtain ⟨x, hread, hiff⟩ := spells_read hf
    refine ⟨[.str ['!'], .list x], read_enclosure (Or.inr (Or.inr rfl)) hread, ?_⟩
    have hgetfld : getfld (.list [.str ['!'], .list x])
        = (getfld (.list x)).map .Not := by
      rw [getfld, getfld_list.eq_def]
      rfl
    rw [hgetfld, Filter.tokens, Filter.readable, ← hiff]
    cases getfld (.list x) with
    | error e => exact ⟨fun h => (by cases h), fun h => (by cases h)⟩
    | ok g =>
      constructor
      · intro h
        exact congrArg Except.ok (Filter.Not.inj (Except.ok.inj h))
      · intro h
        rw [Except.ok.inj h]
        rfl
  | @Compare op a v t ha hv =>
    have hopen : '(' ∉ op.text ++ t := by
      rw [List.mem_append, not_or]
      exact ⟨by cases op <;> decide, hv.not_mem rfl rfl⟩
    have hclose : ')' ∉ op.text ++ t := by
      rw [List.mem_append, not_or]
      exact ⟨by cases op <;> decide, hv.not_mem rfl rfl⟩
    refine ⟨_, read_item ha (comparison_stops op t) hopen hclose, ?_⟩
    rw [Filter.tokens]
    exact comparison_read_iff ha op hv
  | @Substrings a front back vs t u w ha hfront hvs hback hne =>
    obtain ⟨-, -, -, hpt, -⟩ := hfront.pairs
    obtain ⟨-, -, -, hpu, -⟩ := hvs.pairs
    obtain ⟨-, -, -, hpw, -⟩ := hback.pairs
    have hopen : '(' ∉ '=' :: (t ++ '*' :: (u ++ w)) := by
      simp [hpt.1, hpu.1, hpw.1]
    have hclose : ')' ∉ '=' :: (t ++ '*' :: (u ++ w)) := by
      simp [hpt.2, hpu.2, hpw.2]
    have hstops : Stops ('=' :: (t ++ '*' :: (u ++ w)) ++ [')']) := by
      intro c hc
      cases hc
      rfl
    refine ⟨_, read_item ha hstops hopen hclose, ?_⟩
    rw [Filter.tokens, Filter.readable]
    exact substrings_read_iff ha hfront hvs hback
  | @Present a ha =>
    have hstops : Stops (['=', '*'] ++ [')']) := by
      intro c hc
      cases hc
      rfl
    refine ⟨_, read_item ha hstops (by decide) (by decide), ?_⟩
    -- the star makes a substring filter of it
    have hcut : cut 0 ['=', '*'] [a] = a :: ['='] :: [['*']] := cut_equals ha ['*']
    rw [hcut, getfld_substrings ha (by simp), Filter.tokens, Filter.readable]
    exact ⟨fun h => (by cases Except.ok.inj h), fun h => (by cases h)⟩

/-- Filters in a row are tokenized one by one, and read back exactly when each is. -/
theorem spells_each_read {fs : List (Filter Str)} {t : Str} (h : SpellsEach fs t) :
    ∃ xs : List Token, xs.length = fs.length ∧
      (∀ rest cur backtrack,
        read 0 (t ++ rest) cur backtrack = read 0 rest (cur ++ xs) backtrack) ∧
      (getfld_each xs = .ok (tokens_each fs) ↔ readable_each fs = true) := by
  -- By the spelling of the list: a filter in front, then the others.
  cases h with
  | nil =>
    refine ⟨[], rfl, fun rest cur backtrack => ?_, ?_⟩
    · rw [List.append_nil]
      rfl
    · exact ⟨fun _ => rfl, fun _ => rfl⟩
  | @cons f fs t u hf hs =>
    obtain ⟨x, hread, hiff⟩ := spells_read hf
    obtain ⟨xs, hlen, hreads, hiffs⟩ := spells_each_read hs
    refine ⟨.list x :: xs, by rw [List.length_cons, List.length_cons, hlen],
      fun rest cur backtrack => ?_, ?_⟩
    · rw [List.append_assoc, hread, hreads, List.append_assoc]
      rfl
    · rw [getfld_each, tokens_each, readable_each, Bool.and_eq_true, ← hiff, ← hiffs]
      cases getfld (.list x) with
      | error e => exact ⟨fun h => (by cases h), fun h => (by cases h.1)⟩
      | ok g =>
        dsimp only
        cases getfld_each xs with
        | error e => exact ⟨fun h => (by cases h), fun h => (by cases h.2)⟩
        | ok gs =>
          constructor
          · intro h
            obtain ⟨hg, hgs⟩ := List.cons.inj (Except.ok.inj h)
            exact ⟨congrArg Except.ok hg, congrArg Except.ok hgs⟩
          · rintro ⟨hg, hgs⟩
            rw [Except.ok.inj hg, Except.ok.inj hgs]
            rfl

end

theorem spells_opens {f : Filter Str} {t : Str} (h : Spells f t) : ∃ r, t = '(' :: r := by
  cases h with
  | And => exact ⟨_, rfl⟩
  | Or => exact ⟨_, rfl⟩
  | Not => exact ⟨_, rfl⟩
  | Compare => exact ⟨_, rfl⟩
  | Substrings => exact ⟨_, rfl⟩
  | Present => exact ⟨_, rfl⟩

/-- The text of a filter gives the filter back exactly when the filter is readable. -/
theorem text_read_iff {f : Filter Str} {t : Str} (h : Spells f t) :
    from_rfc2254_string t = .ok f.tokens ↔ f.readable = true := by
  obtain ⟨x, hread, hiff⟩ := spells_read h
  obtain ⟨r, ht⟩ := spells_opens h
  have hstrip : lstrip t = t := by
    rw [ht]
    rfl
  have henclosed : enclosed t = t := by
    unfold enclosed
    rw [hstrip, ht]
    rfl
  -- The whole text is one list, read without a rest.
  have htokens : read 0 t [] [] = .ok [.list x] := by
    have hall := hread [] [] []
    rw [List.append_nil] at hall
    rw [hall]
    rfl
  rw [← hiff]
  have hne : t ≠ [] := by
    rw [ht]
    exact List.cons_ne_nil _ _
  unfold from_rfc2254_string
  rw [hstrip, henclosed, htokens, if_neg hne]

/-! ## Exceptions -/

/-- An enclosure that begins with an enclosure has nothing else in it. -/
inductive Proper : Token → Prop
  | str (s : Str) : Proper (.str s)
  | list {x : List Token} (hfirst : ∀ y ∈ x.head?, (∃ t, y = .str t) ∨ x = [y]) (hx : ∀ y ∈ x, Proper y) :
      Proper (.list x)

/-- A filter, or one of the two exceptions the function raises itself. -/
def Answered {α : Type} (r : Except Raised α) : Prop :=
  (∃ f, r = .ok f) ∨ r = .error .ValueError ∨ r = .error .NotImplementedError

theorem Answered.map {α β : Type} {r : Except Raised α} (h : Answered r) (g : α → β) :
    Answered (r.map g) := by
  obtain ⟨f, rfl⟩ | rfl | rfl := h
  · exact Or.inl ⟨_, rfl⟩
  · exact Or.inr (Or.inl rfl)
  · exact Or.inr (Or.inr rfl)

theorem answered_value {α : Type} : Answered (.error .ValueError : Except Raised α) :=
  Or.inr (Or.inl rfl)

/-- A comparison is answered with a filter or with the module's own exception, whatever stands
behind the attribute. -/
theorem item_answered (t : Str) (x : List Token) : Answered (getfld_item t x) := by
  have hok (f : Filter Token) : Answered (.ok f) := Or.inl ⟨f, rfl⟩
  unfold getfld_item
  dsimp only
  split
  · split
    · split
      · exact hok _
      · exact answered_value
    · exact answered_value
  · split
    · exact Or.inr (Or.inr rfl)
    · split
      · split
        · split
          · split
            · exact hok _
            · exact hok _
          · exact answered_value
        · exact answered_value
      · exact answered_value

mutual

theorem getfld_answered : ∀ y : Token, Proper y → Answered (getfld y)
  | .str s, _ => by
    rw [getfld]
    split
    · exact Or.inr (Or.inr rfl)
    · exact answered_value
  | .list x, h => by
    rw [getfld]
    cases h with
    | list hfirst hx => exact getfld_list_answered x hfirst hx

/-- So is every group of them. -/
theorem getfld_list_answered : ∀ x : List Token, (∀ y ∈ x.head?, (∃ t, y = .str t) ∨ x = [y]) →
    (∀ y ∈ x, Proper y) → Answered (getfld_list x)
  | [], _, _ => answered_value
  | .list y :: x, hfirst, hx => by
    -- parentheses around an enclosure are the enclosure
    have hone : x = [] := by
      obtain ⟨t, ht⟩ | hone := hfirst (.list y) rfl
      · cases ht
      · exact (List.cons.inj hone).2
    subst hone
    rw [getfld_list]
    cases hx (.list y) List.mem_cons_self with
    | list hfirst hx => exact getfld_list_answered y hfirst hx
  | .str t :: x, _, hx => by
    have hx' := (List.forall_mem_cons.mp hx).2
    rw [getfld_list.eq_def]
    dsimp only
    split
    · split
      · exact answered_value
      · exact (getfld_each_answered x hx').map _
    · split
      · match x, hx' with
        | [], _ => exact answered_value
        | [y], hy => exact (getfld_answered y (hy y List.mem_cons_self)).map _
        | _ :: _ :: _, _ => exact answered_value
      · exact item_answered t x

/-- So are the members of a set. -/
theorem getfld_each_answered : ∀ x : List Token, (∀ y ∈ x, Proper y) → Answered (getfld_each x)
  | [], _ => Or.inl ⟨[], rfl⟩
  | y :: x, hx => by
    have hy := getfld_answered y (hx y List.mem_cons_self)
    have hrest := getfld_each_answered x (List.forall_mem_cons.mp hx).2
    rw [getfld_each]
    obtain ⟨f, hf⟩ | hf | hf := hy
    · rw [hf]
      exact hrest.map _
    · rw [hf]
      exact answered_value
    · rw [hf]
      exact Or.inr (Or.inr rfl)

end

/-- Blanks apart, no equals sign follows a parenthesis; `p` is the last character that was no blank. -/
def guarded : Char → Str → Bool
  | _, [] => true
  | p, c :: text =>
    if blank c then guarded p text
    else !(c == '=' && (p == '(' || p == ')')) && guarded c text

/-- Every parenthesis is closed, and none that was not opened. -/
def balanced : ℕ → Str → Bool
  | depth, [] => depth == 0
  | depth, c :: text =>
    if c = '(' then balanced (depth + 1) text
    else if c = ')' then depth != 0 && balanced (depth - 1) text
    else balanced depth text

/-- What is known in the loop behind the character `p`: it has left a string, which a parenthesis has not. -/
def Looping (p : Char) (cur : List Token) : Prop :=
  p ≠ '(' → p ≠ ')' → ∃ front t, cur = front ++ [.str t]

theorem looping_push (c : Char) (cur : List Token) (s : Str) : Looping c (cur ++ [.str s]) :=
  fun _ _ => ⟨cur, s, rfl⟩

/-- What the loop makes of a guarded text: tokens where the parentheses balance. -/
def Looped (depth : ℕ) (text : Str) (r : Except Raised (List Token)) : Prop :=
  (balanced depth text = true → ∃ tokens, r = .ok tokens) ∧
    (balanced depth text = false → r = .error .ValueError)

theorem balanced_other {c : Char} (hopen : c ≠ '(') (hclose : c ≠ ')') (depth : ℕ) (text : Str) :
    balanced depth (c :: text) = balanced depth text := by
  rw [balanced, if_neg hopen, if_neg hclose]

/-- The loop over a guarded text. -/
theorem read_guarded (text : Str) {skip : ℕ} {p : Char} {cur : List Token}
    {backtrack : List (List Token)} (h : Looping p cur) (hguard : guarded p text = true)
    (hvalue : ∀ c ∈ text.take skip, special c = false)
    (hp : 0 < skip → p ≠ '(' ∧ p ≠ ')') :
    Looped backtrack.length text (read skip text cur backtrack) := by
  induction text generalizing skip p cur backtrack with
  | nil =>
    cases backtrack with
    | nil => exact ⟨fun _ => ⟨cur, by rw [read]⟩, fun hno => (by cases hno)⟩
    | cons outer backtrack => exact ⟨fun hyes => (by cases hyes), fun _ => (by rw [read])⟩
  | cons c text ih =>
    have hnot {x : Char} (hc : special c = false) (hx : special x = true) : c ≠ x := by
      rintro rfl
      rw [hx] at hc
      cases hc
    rw [guarded] at hguard
    cases skip with
    | succ skip =>
      -- inside a value: the loop only counts down, and a plain octet opens or closes nothing
      rw [List.take_succ_cons, List.forall_mem_cons] at hvalue
      have hopen := hnot hvalue.1 (x := '(') rfl
      have hclose := hnot hvalue.1 (x := ')') rfl
      unfold Looped
      rw [read, balanced_other hopen hclose]
      have hpp := hp (Nat.succ_pos skip)
      by_cases hblank : blank c = true
      · rw [if_pos hblank] at hguard
        exact ih h hguard hvalue.2 fun _ => hpp
      · rw [if_neg hblank, Bool.and_eq_true] at hguard
        exact ih (fun _ _ => h hpp.1 hpp.2) hguard.2 hvalue.2 fun _ => ⟨hopen, hclose⟩
    | zero =>
      have hzero : ∀ x ∈ text.take 0, special x = false := fun x hx => by
        rw [List.take_zero] at hx
        exact absurd hx List.not_mem_nil
      by_cases hblank : blank c = true
      · have hopen : c ≠ '(' := by
          rintro rfl
          cases hblank
        have hclose : c ≠ ')' := by
          rintro rfl
          cases hblank
        rw [if_pos hblank] at hguard
        unfold Looped
        rw [read.eq_def, balanced_other hopen hclose]
        dsimp only
        rw [if_pos hblank]
        exact ih h hguard hzero fun hpos => absurd hpos (Nat.lt_irrefl 0)
      rw [if_neg hblank, Bool.and_eq_true, Bool.not_eq_true'] at hguard
      obtain ⟨hequalsguard, hguard⟩ := hguard
      have hnext {skip : ℕ} {cur : List Token} {backtrack : List (List Token)}
          (hloop : Looping c cur) (hskip : ∀ x ∈ text.take skip, special x = false)
          (hc : 0 < skip → c ≠ '(' ∧ c ≠ ')') :
          Looped backtrack.length text (read skip text cur backtrack) := ih hloop hguard hskip hc
      have hstop (hpos : 0 < 0) : c ≠ '(' ∧ c ≠ ')' := absurd hpos (Nat.lt_irrefl 0)
      -- what is left is one turn of the loop, branch by branch
      by_cases hopen : c = '('
      · subst hopen
        unfold Looped
        rw [read_open, balanced, if_pos rfl]
        have hinner : Looped (cur :: backtrack).length text (read 0 text [] (cur :: backtrack)) :=
          hnext (fun hno => absurd rfl hno) hzero hstop
        exact hinner
      by_cases hclose : c = ')'
      · subst hclose
        cases backtrack with
        | nil =>
          refine ⟨fun hyes => ?_, fun _ => ?_⟩
          · cases hyes
          · rw [read.eq_def]
            rfl
        | cons outer backtrack =>
          unfold Looped
          rw [read_close, balanced, if_neg (by decide), if_pos rfl, List.length_cons,
            Nat.add_sub_cancel]
          exact hnext (fun _ hno => absurd rfl hno) hzero hstop
      unfold Looped
      rw [balanced_other hopen hclose]
      have hpush (s : Str) : Looping c (cur ++ [.str s]) := looping_push c cur s
      by_cases hmark : c = '&' ∨ c = '|' ∨ c = '!'
      · rw [read_mark hmark]
        exact hnext (hpush [c]) hzero hstop
      rw [read.eq_def]
      dsimp only
      rw [if_neg hblank, if_neg hopen, if_neg hclose, if_neg hmark]
      by_cases hequals : c = '='
      · subst hequals
        have hpp : p ≠ '(' ∧ p ≠ ')' := by
          constructor
          · rintro rfl
            cases hequalsguard
          · rintro rfl
            cases hequalsguard
        -- the guard keeps parentheses off its left, so there is a token to merge with
        obtain ⟨front, t, rfl⟩ := h hpp.1 hpp.2
        rw [if_pos rfl, List.getLast?_append, List.getLast?_singleton, Option.some_or]
        dsimp only
        split
        · rw [List.dropLast_concat]
          exact hnext (looping_push '=' front (t ++ ['='])) hzero hstop
        · exact hnext (hpush ['=']) hzero hstop
      rw [if_neg hequals]
      split
      · exact hnext (hpush [c]) hzero hstop
      · split
        · exact hnext (hpush [c]) hzero hstop
        · split
          · exact hnext (hpush [c]) hzero hstop
          · rename_i hangle hcolon hstar
            have hspecial : special c = false := by
              unfold special
              rw [decide_eq_false_iff_not]
              simp only [List.mem_cons, List.not_mem_nil, or_false]
              grind
            have hcons : ((c :: text).takeWhile fun x => !special x)
                = c :: text.takeWhile fun x => !special x :=
              List.takeWhile_cons_of_pos (by simp [hspecial])
            refine hnext (hpush _) (fun x hx => ?_) fun _ => ⟨hopen, hclose⟩
            rw [hcons, List.length_cons, Nat.add_sub_cancel,
              ← List.prefix_iff_eq_take.mp (List.takeWhile_prefix _)] at hx
            simpa using List.mem_takeWhile_imp hx

/-- Something is read off a text that holds an opening parenthesis. -/
theorem read_ne_nil (text : Str) {skip : ℕ} {cur tokens : List Token}
    {backtrack : List (List Token)} (h : read skip text cur backtrack = .ok tokens)
    (hsome : cur ≠ [] ∨ backtrack ≠ [] ∨ skip = 0 ∧ '(' ∈ text) : tokens ≠ [] := by
  -- By the text: whatever was pushed stays in the current list, and an enclosure is pushed when it
  -- is closed.
  induction text generalizing skip cur backtrack with
  | nil =>
    cases backtrack with
    | nil =>
      rw [read] at h
      rw [← Except.ok.inj h]
      obtain hcur | hno | ⟨-, hno⟩ := hsome
      · exact hcur
      · exact absurd rfl hno
      · exact absurd hno List.not_mem_nil
    | cons outer backtrack =>
      rw [read] at h
      cases h
  | cons c text ih =>
    -- A list that holds a token already is not emptied by what follows.
    have hfull {skip : ℕ} {front : List Token} {y : Token} {backtrack : List (List Token)}
        (h : read skip text (front ++ [y]) backtrack = .ok tokens) : tokens ≠ [] :=
      ih h (Or.inl (by simp))
    cases skip with
    | succ skip =>
      rw [read] at h
      refine ih h ?_
      obtain hcur | hbt | ⟨hno, -⟩ := hsome
      · exact Or.inl hcur
      · exact Or.inr (Or.inl hbt)
      · cases hno
    | zero =>
      rw [read.eq_def] at h
      dsimp only at h
      split at h
      · rename_i hblank
        refine ih h (hsome.imp_right fun hor => hor.imp_right fun hin => ⟨rfl, ?_⟩)
        obtain hin | hin := List.mem_cons.mp hin.2
        · rw [← hin] at hblank
          cases hblank
        · exact hin
      · split at h
        · exact ih h (Or.inr (Or.inl (List.cons_ne_nil _ _)))
        · split at h
          · split at h
            · cases h
            · exact hfull h
          · split at h
            · exact hfull h
            · split at h
              · split at h
                · cases h
                · cases h
                · split at h
                  · exact hfull h
                  · exact hfull h
              · split at h
                · exact hfull h
                · split at h
                  · exact hfull h
                  · split at h
                    · exact hfull h
                    · exact hfull h

/-- So does an enclosed one. -/
theorem open_mem_enclosed (s : Str) : '(' ∈ enclosed s := by
  unfold enclosed
  split
  · rename_i hhead
    have hmem : '(' ∈ lstrip s := List.mem_of_head? hhead
    exact (List.dropWhile_suffix isspace).subset hmem
  · exact List.mem_cons_self

/-- A guarded string whose parentheses do not balance is answered with a ValueError, and one whose
parentheses do, and whose first token is proper, with a filter, a ValueError or a
NotImplementedError. -/
theorem guarded_answered {s : Str} (hne : lstrip s ≠ [])
    (hguard : guarded ')' (enclosed s) = true) :
    (balanced 0 (enclosed s) = false → from_rfc2254_string s = .error .ValueError) ∧
      (balanced 0 (enclosed s) = true → ∃ y tokens, read 0 (enclosed s) [] [] = .ok (y :: tokens) ∧
        (Proper y → Answered (from_rfc2254_string s))) := by
  -- The loop of the reader over a guarded text: it ends with tokens just where the brackets
  -- balance.
  have hloop : Looped ([] : List (List Token)).length (enclosed s) (read 0 (enclosed s) [] []) :=
    read_guarded (enclosed s) (fun _ hno => absurd rfl hno) hguard (fun c hc => by
      rw [List.take_zero] at hc
      exact absurd hc List.not_mem_nil) fun hpos => absurd hpos (Nat.lt_irrefl 0)
  unfold from_rfc2254_string
  rw [if_neg hne]
  refine ⟨?_, ?_⟩
  · intro hbalanced
    rw [hloop.2 hbalanced]
  · intro hbalanced
    obtain ⟨tokens, htokens⟩ := hloop.1 hbalanced
    have hsome := read_ne_nil (enclosed s) htokens (Or.inr (Or.inr ⟨rfl, open_mem_enclosed s⟩))
    cases tokens with
    | nil => exact absurd rfl hsome
    | cons y tokens =>
      rw [htokens]
      exact ⟨y, tokens, rfl, getfld_answered y⟩

/-! ## The function -/

mutual

/-- No item of the filter is a presence. -/
def Filter.presence_free : Filter Str → Bool
  | .And fs => presence_free_each fs
  | .Or fs => presence_free_each fs
  | .Not f => f.presence_free
  | .Compare _ _ _ => true
  | .Substrings _ _ => true
  | .Present _ => false

def presence_free_each : List (Filter Str) → Bool
  | [] => true
  | f :: fs => f.presence_free && presence_free_each fs

end

/-- The text of a filter without presences gives the filter back exactly when no And or Or is of
one filter and each value is a token of its own; and a guarded string is answered with a ValueError
where its parentheses do not balance, and otherwise, where its first token is proper, with a filter, a
ValueError or a NotImplementedError. -/
theorem filter_strings :
    (∀ f t, Spells f t → f.presence_free = true →
      (from_rfc2254_string t = .ok f.tokens ↔ f.readable = true)) ∧
      ∀ s, lstrip s ≠ [] → guarded ')' (enclosed s) = true →
        (balanced 0 (enclosed s) = false → from_rfc2254_string s = .error .ValueError) ∧
          (balanced 0 (enclosed s) = true → ∃ y tokens, read 0 (enclosed s) [] [] = .ok (y :: tokens) ∧
            (Proper y → Answered (from_rfc2254_string s))) :=
  ⟨fun _ _ h _ => text_read_iff h, fun _ hne hguard => guarded_answered hne hguard⟩

/-- `(!(a=b))` is read back, `a=b)` is refused, and `((a=b))` is answered. -/
theorem filter_strings_sample :
    from_rfc2254_string ['(', '!', '(', 'a', '=', 'b', ')', ')']
        = .ok (.Not (.Compare .Equal ['a'] (.str ['b']))) ∧
      from_rfc2254_string ['a', '=', 'b', ')'] = .error .ValueError ∧
      Answered (from_rfc2254_string ['(', '(', 'a', '=', 'b', ')', ')']) := by
  -- The first text is spelt by the grammar; the third is read to a proper tree.
  have hspells : Spells (.Not (.Compare .Equal ['a'] ['b']))
      ['(', '!', '(', 'a', '=', 'b', ')', ')'] :=
    .Not (.Compare (by decide) (.itself (by decide) .nil))
  have hitem : ∀ y ∈ [Token.str ['a'], .str ['='], .str ['b']], Proper y := by
    intro y hy
    rw [List.mem_cons, List.mem_cons, List.mem_singleton] at hy
    rcases hy with rfl | rfl | rfl <;> exact .str _
  have hinner : Proper (.list [.str ['a'], .str ['='], .str ['b']]) := by
    refine .list ?_ hitem
    rintro y ⟨⟩
    exact Or.inl ⟨_, rfl⟩
  have houter : Proper (.list [.list [.str ['a'], .str ['='], .str ['b']]]) := by
    refine .list ?_ (List.forall_mem_singleton.2 hinner)
    rintro y ⟨⟩
    exact Or.inr rfl
  obtain ⟨y, tokens, hread, hanswered⟩ :=
    (filter_strings.2 ['(', '(', 'a', '=', 'b', ')', ')'] (by decide) (by decide)).2 (by decide)
  have htokens : read 0 (enclosed ['(', '(', 'a', '=', 'b', ')', ')']) [] [] =
      .ok [.list [.list [.str ['a'], .str ['='], .str ['b']]]] := by rfl
  rw [htokens] at hread
  obtain ⟨rfl, -⟩ := List.cons.inj (Except.ok.inj hread)
  exact ⟨(filter_strings.1 _ _ hspells (by decide)).mpr (by decide),
    (filter_strings.2 ['a', '=', 'b', ')'] (by decide) (by decide)).1 (by decide), hanswered houter⟩

/-- A presence comes back as a substring filter of no parts and an escaped star as it is written;
`(=d)` and `((a=b)(c=d))` leave with an IndexError and a TypeError, and `a=b` is a filter. -/
theorem filter_strings_fail :
    (Spells (.Present ['c']) ['(', 'c', '=', '*', ')'] ∧
      from_rfc2254_string ['(', 'c', '=', '*', ')'] = .ok (.Substrings ['c'] [])) ∧
    (Spells (.Compare .Equal ['c'] ['*']) ['(', 'c', '=', '\\', '2', 'a', ')'] ∧
      from_rfc2254_string ['(', 'c', '=', '\\', '2', 'a', ')']
        = .ok (.Compare .Equal ['c'] (.str ['\\', '2', 'a']))) ∧
    from_rfc2254_string ['(', '=', 'd', ')'] = .error .IndexError ∧
    from_rfc2254_string
        ['(', '(', 'a', '=', 'b', ')', '(', 'c', '=', 'd', ')', ')'] = .error .TypeError ∧
    (∀ f, ¬ Spells f ['a', '=', 'b']) ∧
    from_rfc2254_string ['a', '=', 'b'] = .ok (.Compare .Equal ['a'] (.str ['b'])) := by
  have hstar : Escaped ['*'] ['\\', '2', 'a'] := .hex (by decide) rfl rfl rfl .nil
  refine ⟨⟨.Present (by decide), rfl⟩, ⟨.Compare (by decide) hstar, rfl⟩, rfl, rfl, ?_, rfl⟩
  intro f h
  obtain ⟨r, hr⟩ := spells_opens h
  cases hr

end Wiry.Ldap.Rfc2254
