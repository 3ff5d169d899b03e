/-
What `_parse` builds in one pass is what a recursive descent builds that tries each head as that of a
closed block and takes it for literal text where it is none.
-/
import Wiry.Lib.Nesting
import Wiry.Report.Spelling

set_option autoImplicit false

namespace Wiry.Report

open Nesting (Token Build Pass most_open)

/-! ## The descent -/

def Piece.token : Piece → Token Part Text
  | .char c => .item (.lit [c])
  | .part d => .item d
  | .head name => .head name
  | .close => .close

/-- The pieces of a format string, up to the first on which `int` raises. How one is read depends on
nothing in front of it. -/
def tokens (str : Str) : ℕ → Text → List (Token Part Text) × Option ValueError
  | 0, _ => ([], none)
  | _ + 1, [] => ([], none)
  | n + 1, c :: cs =>
    match piece str c cs with
    | .error e => ([], some e)
    | .ok (p, rest) =>
      let (ts, raised) := tokens str n rest
      (p.token :: ts, raised)

/-- A head without its brace and a brace without its head are literal. -/
def build : Build Part Text where
  block := block
  bare name := .lit ('{' :: name)
  stray := .lit ['}']

/-- The recursive descent. -/
def descent (str : Str) (fmt : Text) : Except ValueError (List Part) :=
  match tokens str fmt.length fmt with
  | (_, some e) => .error e
  | (ts, none) => .ok (Nesting.descent build ts)

/-! ## Merging literals -/

/-- A part in front of others, in one piece with a literal that comes first. -/
def push : Part → List Part → List Part
  | .lit [], ps => ps
  | .lit s, .lit t :: ps => .lit (s ++ t) :: ps
  | p, ps => p :: ps

mutual

def Part.merge : Part → Part
  | .cond layer field parts => .cond layer field (merge parts)
  | p => p

/-- Adjacent literals as one, in the blocks too. -/
def merge : List Part → List Part
  | [] => []
  | p :: ps => push p.merge (merge ps)

end

def letters (text : Text) : List Part := text.map fun c => .lit [c]

mutual

def Part.spread : Part → List Part
  | .lit text => letters text
  | .cond layer field parts => [.cond layer field (spread parts)]
  | p => [p]

/-- Literals one character each, in the blocks too. -/
def spread : List Part → List Part
  | [] => []
  | p :: ps => p.spread ++ spread ps

end

@[simp] theorem spread_append (ps qs : List Part) : spread (ps ++ qs) = spread ps ++ spread qs := by
  induction ps with
  | nil => rfl
  | cons p ps ih => simp [spread, ih]

@[simp] theorem letters_append (s t : Text) : letters (s ++ t) = letters s ++ letters t :=
  List.map_append

theorem push_push (c : Char) (s : Text) (ps : List Part) :
    push (.lit [c]) (push (.lit s) ps) = push (.lit (c :: s)) ps := by
  cases s with
  | nil => cases ps with
    | nil => rfl
    | cons p ps => cases p <;> rfl
  | cons d s => cases ps with
    | nil => rfl
    | cons p ps => cases p <;> rfl

theorem merge_letters (s : Text) (ps : List Part) : merge (letters s ++ ps) = push (.lit s) (merge ps) := by
  induction s with
  | nil => rfl
  | cons c s ih =>
    rw [letters, List.map_cons, List.cons_append, merge, ← letters, ih]
    exact push_push c s (merge ps)

mutual

theorem Part.merge_spread : ∀ (p : Part) (ps : List Part), merge (p.spread ++ ps) = push p.merge (merge ps)
  | .lit text, ps => merge_letters text ps
  | .cond layer field parts, ps => by
    simp [Part.spread, merge, Part.merge, Report.merge_spread parts]
  | .time spec, ps => rfl
  | .fld layer nb field spec raw, ps => rfl

/-- Merging undoes the spreading. -/
theorem merge_spread : ∀ ps : List Part, merge (spread ps) = merge ps
  | [] => rfl
  | p :: ps => by rw [spread, Part.merge_spread p, merge_spread ps, merge]

end

section

variable {ε : Type*} (src : Source ε)

/-- Letters render as they are. -/
theorem render_letters (s : Text) (ps : List Part) :
    render src (letters s ++ ps) = (render src ps).map (s ++ ·) := by
  induction s with
  | nil => cases h : render src ps <;> simp [letters, h, Except.map]
  | cons c s ih =>
    rw [letters, List.map_cons, List.cons_append, render, ← letters, ih, Part.render]
    cases render src ps <;> rfl

mutual

/-- A part renders as it is spread. -/
theorem Part.render_spread : ∀ (p : Part) (ps : List Part),
    render src (p.spread ++ ps) = render src (p :: ps)
  | .lit text, ps => render_letters src text ps
  | .cond layer field parts, ps => by
    simp [Part.spread, render, Part.render, Report.render_spread parts]
  | .time spec, ps => rfl
  | .fld layer nb field spec raw, ps => rfl

/-- A literal renders as its characters do. -/
theorem render_spread : ∀ ps : List Part, render src (spread ps) = render src ps
  | [] => rfl
  | p :: ps => by rw [spread, Part.render_spread p, render, render, render_spread ps]

end

end

/-! ## The loop and the pass -/

theorem spread_flush (st : State) : spread st.flush = spread st.parts ++ letters st.lit := by
  rw [State.flush]
  split
  case isTrue h => simp [h, letters]
  case isFalse h => simp [spread, Part.spread]

theorem spread_block {name : Text} {ps qs : List Part} (h : spread ps = spread qs) :
    (block name ps).spread = (block name qs).spread := by
  unfold block
  split <;> simp [Part.spread, h]

/-- The loop's state and the pass's, but for the literals that are not in one piece. -/
structure Same (st : State) (p : Pass Part Text) : Prop where
  stack : st.stack.map (Prod.map id spread) = p.stack.map (Prod.map id spread)
  parts : spread st.flush = spread p.parts

namespace Same

variable {st : State} {p : Pass Part Text}

theorem append (h : Same st p) (c : Char) (rest : Text) :
    Same (st.append c rest) ⟨p.stack, p.parts ++ [.lit [c]]⟩ where
  stack := h.stack
  parts := by
    have hflush := h.parts
    rw [spread_flush] at hflush ⊢
    simp [State.append, spread, Part.spread, ← hflush, letters]

theorem length_eq (h : Same st p) : st.stack.length = p.stack.length := by
  simpa using congrArg List.length h.stack

/-- One turn of the loop is one step of the pass, while the stack is short of its limit. -/
theorem step (h : Same st p) (c : Char) (cs : Text) (x : Piece) (rest : Text)
    (hchar : x = .close → c = '}') (hdepth : ∀ name, x = .head name → st.stack.length < MAX_NEST) :
    Same (Report.step st c cs x rest) (Pass.step build p x.token) := by
  cases x with
  | char ch => exact h.append ch rest
  | part d =>
    refine ⟨h.stack, ?_⟩
    rw [spread_flush]
    simp [Report.step, Piece.token, Pass.step, h.parts, letters]
  | head name =>
    have hroom := hdepth name rfl
    simp only [Report.step, if_pos hroom, Piece.token, Pass.step]
    refine ⟨?_, rfl⟩
    simp [h.stack, h.parts]
  | close =>
    obtain rfl := hchar rfl
    have hstack := h.stack
    simp only [Report.step, Piece.token, Pass.step]
    cases hst : st.stack with
    | nil =>
      rw [hst] at hstack
      cases hp : p.stack with
      | nil => simpa [hst, hp, build] using h.append '}' rest
      | cons frame stack => simp [hp] at hstack
    | cons frame stack =>
      rw [hst] at hstack
      cases hp : p.stack with
      | nil => simp [hp] at hstack
      | cons frame' stack' =>
        obtain ⟨name, outer⟩ := frame
        obtain ⟨name', outer'⟩ := frame'
        simp only [hp, List.map_cons, Prod.map_apply, id_eq, List.cons.injEq, Prod.mk.injEq] at hstack
        -- the block both close has one name
        obtain ⟨⟨rfl, houter⟩, hrest⟩ := hstack
        refine ⟨hrest, ?_⟩
        rw [spread_flush]
        simp [build, spread, spread_block h.parts, houter, letters]

/-- What is left open is put together alike. -/
theorem splice : ∀ (stack stack' : List (Text × List Part)) (parts parts' : List Part),
    stack.map (Prod.map id spread) = stack'.map (Prod.map id spread) → spread parts = spread parts' →
    spread (Report.splice stack parts) = spread (Pass.splice build stack' parts')
  | [], [], parts, parts', _, h => h
  | [], _ :: _, _, _, h, _ => by simp at h
  | _ :: _, [], _, _, h, _ => by simp at h
  | (name, outer) :: stack, (name', outer') :: stack', parts, parts', hstack, h => by
    simp only [List.map_cons, Prod.map_apply, id_eq, List.cons.injEq, Prod.mk.injEq] at hstack
    obtain ⟨⟨rfl, houter⟩, hrest⟩ := hstack
    refine splice stack stack' _ _ hrest ?_
    simp [build, spread, houter, h]

end Same

section

variable {str : Str}

theorem step_rest {st : State} {c : Char} {cs rest : Text} {x : Piece}
    (hroom : ∀ name, x = .head name → st.stack.length < MAX_NEST) : (step st c cs x rest).rest = rest := by
  cases x with
  | char ch => rfl
  | part d => rfl
  | head name => simp [step, hroom name rfl]
  | close =>
    rw [step]
    cases st.stack <;> rfl

/-- The loop runs as the pass over the pieces does, raising where they do, while no more blocks are open
than may be. -/
theorem loop_same (n : ℕ) : ∀ {st : State} {p : Pass Part Text}, Same st p →
    most_open p.stack.length (tokens str n st.rest).1 ≤ MAX_NEST →
    match loop str n st with
    | .error e => (tokens str n st.rest).2 = some e
    | .ok st' => (tokens str n st.rest).2 = none ∧
        Same st' (Pass.run build p (tokens str n st.rest).1) := by
  induction n with
  | zero =>
    intro st p h _
    exact ⟨rfl, h⟩
  | succ n ih =>
    intro st p h hopen
    cases hrest : st.rest with
    | nil =>
      simp only [loop, hrest, tokens]
      exact ⟨trivial, h⟩
    | cons c cs =>
      rw [hrest] at hopen
      cases hp : piece str c cs with
      | error e => simp [loop, hrest, tokens, hp]
      | ok read =>
        obtain ⟨x, rest⟩ := read
        simp only [loop, hrest, tokens, hp] at hopen ⊢
        -- a head is never refused for want of room
        have hroom : ∀ name, x = .head name → st.stack.length < MAX_NEST := by
          rintro name rfl
          rw [h.length_eq]
          exact (Nesting.le_most_open _ _).trans hopen
        have hclose : x = .close → c = '}' := by
          rintro rfl
          obtain ⟨t, rfl, ht⟩ := piece_reads hp
          simpa using congrArg List.head? ht
        have hnext := h.step c cs x rest hclose hroom
        have hstep := ih hnext ((step_rest hroom).symm ▸ (Nesting.most_open_step build p _ _).trans hopen)
        rw [step_rest hroom] at hstep
        exact hstep

/-- Up to the merging of literals, and raising where it does, `_parse` is the recursive descent. -/
theorem parse_spread (fmt : Text) (h : most_open 0 (tokens str fmt.length fmt).1 ≤ MAX_NEST) :
    (parse str fmt).map spread = (descent str fmt).map spread := by
  have hstart : Same ⟨[], [], [], fmt⟩ ⟨[], []⟩ := ⟨rfl, rfl⟩
  have hloop := loop_same fmt.length hstart h
  rw [parse, descent]
  cases ht : tokens str fmt.length fmt with
  | mk ts raised =>
    cases hl : loop str fmt.length ⟨[], [], [], fmt⟩ with
    | error e =>
      simp only [hl, ht] at hloop
      simp [hloop, Except.map]
    | ok st =>
      simp only [hl, ht] at hloop
      obtain ⟨rfl, hsame⟩ := hloop
      -- the heads left open come out as literals on both sides
      have hspread := Same.splice _ _ _ _ hsame.stack hsame.parts
      simp only [Except.map, Except.ok.injEq, hspread]
      rw [← Nesting.finish_run, Pass.finish]

/-- `_parse` builds what the recursive descent builds, but for the merging of adjacent literals; each
character of the string is in one place of it, and it renders alike. -/
theorem parse_eq_descent (fmt : Text) (h : most_open 0 (tokens str fmt.length fmt).1 ≤ MAX_NEST) :
    (parse str fmt).map merge = (descent str fmt).map merge ∧
    ∀ parts, parse str fmt = .ok parts → Spells str parts fmt ∧
      ∀ expected, descent str fmt = .ok expected → ∀ (ε : Type) (src : Source ε),
        render src parts = render src expected := by
  have hspread := parse_spread fmt h
  refine ⟨?_, fun parts hp => ⟨parse_spells hp, ?_⟩⟩
  · have hmerge : ∀ r : Except ValueError (List Part), r.map merge = (r.map spread).map merge := by
      intro r
      cases r with
      | error e => rfl
      | ok ps => simp [Except.map, merge_spread]
    rw [hmerge, hspread, ← hmerge]
  · intro expected he ε src
    rw [hp, he] at hspread
    have hsame : spread parts = spread expected := by simpa [Except.map] using hspread
    rw [← render_spread src parts, hsame, render_spread]

end

/-- The methods of `str` on ASCII. -/
def Str.ascii : Str where
  isidentifier s := (word s).any fun m => m.2 = []
  isdigit s := s ≠ [] ∧ s.all Char.isDigit
  int s := some (Nat.ofDigitChars 10 s 0)

/-- A head that is never closed, a block inside it, and percent signs of all three kinds. -/
theorem parse_eq_descent_unclosed :
    let fmt := "\x7d\x7bIP:\x7bTCP:%TCP.flags%\x7d 50%% of %".toList
    (parse .ascii fmt).map merge = (descent .ascii fmt).map merge ∧
      ∃ parts, parse .ascii fmt = .ok parts ∧ Spells .ascii parts fmt := by
  intro fmt
  have h := @parse_eq_descent .ascii fmt (by decide)
  exact ⟨h.1, _, rfl, (h.2 _ rfl).1⟩

end Wiry.Report
