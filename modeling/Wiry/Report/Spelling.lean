/-
The format strings a part list can come from. Each character stands in one place of one part: in a
literal, in a directive between its percent signs, or in the head or the brace of a closed block.
-/
import Wiry.Report.Sprintf

set_option autoImplicit false

namespace Wiry.Report

/-- A literal and the characters it was read from: of two percent signs one is left. -/
inductive Literal : Text → Text → Prop
  | nil : Literal [] []
  | char (c : Char) {s t : Text} : Literal s t → Literal (c :: s) (c :: t)
  | escaped {s t : Text} : Literal s t → Literal ('%' :: s) ('%' :: '%' :: t)

/-- The name of a block with its colon. -/
def IsHead (name : Text) : Prop := ∃ rest, head (name ++ rest) = some (name, rest)

/-- The part list is one of this string. -/
inductive Spells (str : Str) : List Part → Text → Prop
  | nil : Spells str [] []
  | lit {s t : Text} {ps : List Part} {r : Text} :
      Literal s t → Spells str ps r → Spells str (.lit s :: ps) (t ++ r)
  | directive {body : Text} {d : Part} {ps : List Part} {r : Text} :
      directive str body = .ok (some d) → '%' ∉ body → Spells str ps r →
      Spells str (d :: ps) ('%' :: body ++ '%' :: r)
  | block {name : Text} {body : List Part} {s : Text} {ps : List Part} {r : Text} :
      IsHead name → Spells str body s → Spells str ps r →
      Spells str (block name body :: ps) ('{' :: name ++ s ++ '}' :: r)

namespace Literal

theorem append {s t s' t' : Text} (h : Literal s t) (h' : Literal s' t') :
    Literal (s ++ s') (t ++ t') := by
  induction h with
  | nil => exact h'
  | char c _ ih => exact .char c ih
  | escaped _ ih => exact .escaped ih

theorem refl (s : Text) : Literal s s := by
  induction s with
  | nil => exact .nil
  | cons c s ih => exact .char c ih

end Literal

open Volatile (partition)

variable {str : Str}

namespace Spells

theorem append {ps qs : List Part} {s t : Text} (h : Spells str ps s) (h' : Spells str qs t) :
    Spells str (ps ++ qs) (s ++ t) := by
  induction h with
  | nil => exact h'
  | lit hlit _ ih =>
    rw [List.append_assoc]
    exact .lit hlit ih
  | directive hd hbody _ ih =>
    simpa using Spells.directive hd hbody ih
  | block hname hbody _ _ ih =>
    simpa using Spells.block hname hbody ih

end Spells

/-- The open blocks and what was read since. -/
inductive Spelt (str : Str) : List (Text × List Part) → List Part → Text → Prop
  | outside {parts : List Part} {s : Text} : Spells str parts s → Spelt str [] parts s
  | inside {name : Text} {outer : List Part} {stack : List (Text × List Part)} {parts : List Part}
      {s t : Text} : IsHead name → Spelt str stack outer s → Spells str parts t →
      Spelt str ((name, outer) :: stack) parts (s ++ '{' :: name ++ t)

namespace Spelt

variable {stack : List (Text × List Part)} {parts : List Part} {s : Text}

theorem append {ps : List Part} {t : Text} (h : Spelt str stack parts s) (h' : Spells str ps t) :
    Spelt str stack (parts ++ ps) (s ++ t) := by
  cases h with
  | outside hs => exact .outside (hs.append h')
  | inside hname houter hs =>
    rw [List.append_assoc]
    exact .inside hname houter (hs.append h')

/-- Blocks left open are literal. -/
theorem splice (h : Spelt str stack parts s) : Spells str (Report.splice stack parts) s := by
  induction stack generalizing parts s with
  | nil =>
    cases h with
    | outside hs => exact hs
  | cons frame stack ih =>
    cases h with
    | inside hname houter hs =>
      refine ih ?_
      rw [List.append_assoc]
      exact houter.append (.lit (.refl _) hs)

end Spelt

/-- A text is partitioned at the first separator. -/
theorem partition_some {sep : Char} {s a b : Text} (h : partition sep s = (a, some b)) :
    s = a ++ sep :: b ∧ sep ∉ a := by
  induction s generalizing a with
  | nil => simp [partition] at h
  | cons c s ih =>
    by_cases hc : c = sep
    · obtain ⟨rfl, rfl⟩ := by simpa [partition, hc] using h
      simp [hc]
    · obtain ⟨rfl, hmem, hb⟩ := by simpa [partition, hc, Ne.symm hc] using h
      have hcut : partition sep s = (s.takeWhile fun k => !decide (k = sep), some b) := by
        simp [partition, hmem, hb]
      obtain ⟨hs, hnot⟩ := ih hcut
      exact ⟨by rw [List.cons_append, ← hs], by simp [Ne.symm hc, hnot]⟩

/-- A word and what follows it. -/
theorem word_eq {cs w rest : Text} (h : word cs = some (w, rest)) : cs = w ++ rest := by
  cases cs with
  | nil => simp [word] at h
  | cons c cs =>
    rw [word] at h
    split at h
    · obtain ⟨rfl, rfl⟩ := by simpa using h
      simp
    · simp at h

/-- The head of a directive and what follows it. -/
theorem head_eq {cs name rest : Text} (h : head cs = some (name, rest)) : cs = name ++ rest := by
  unfold head at h
  split at h
  case h_1 layer rest' hw =>
    obtain ⟨rfl, rfl⟩ := by simpa using h
    simpa using word_eq hw
  case h_2 layer rest' hw =>
    split at h
    case h_1 field rest'' hw' =>
      obtain ⟨rfl, rfl⟩ := by simpa using h
      simpa [word_eq hw'] using word_eq hw
    case h_2 => simp at h
  case h_3 => simp at h

/-- The characters a piece was read from. -/
def Piece.Reads (str : Str) : Piece → Text → Prop
  | .char c, t => Literal [c] t
  | .part d, t => ∃ body, directive str body = .ok (some d) ∧ '%' ∉ body ∧ t = '%' :: body ++ ['%']
  | .head name, t => IsHead name ∧ t = '{' :: name
  | .close, t => t = ['}']

/-- A piece reads something. -/
theorem Piece.Reads.ne_nil {x : Piece} {t : Text} (h : x.Reads str t) : t ≠ [] := by
  cases x with
  | char c => rintro rfl; cases h
  | part d => obtain ⟨body, -, -, rfl⟩ := h; simp
  | head name => obtain ⟨-, rfl⟩ := h; simp
  | close => obtain rfl := h; simp

/-- A piece that is parsed reads a front part of the text. -/
theorem piece_reads {c : Char} {cs rest : Text} {x : Piece} (h : piece str c cs = .ok (x, rest)) :
    ∃ t, x.Reads str t ∧ c :: cs = t ++ rest := by
  have hchar : ∀ c : Char, Piece.Reads str (.char c) [c] := fun c => Literal.refl [c]
  unfold piece at h
  split at h
  case isTrue hc =>
    subst hc
    split at h
    case h_1 rest' =>
      obtain ⟨rfl, rfl⟩ := by simpa using h
      -- two percent signs are read as one
      exact ⟨['%', '%'], .escaped .nil, rfl⟩
    case h_2 =>
      split at h
      case h_1 =>
        obtain ⟨rfl, rfl⟩ := by simpa using h
        exact ⟨['%'], hchar _, rfl⟩
      case h_2 body after hpart =>
        split at h
        case h_1 => simp at h
        case h_2 =>
          obtain ⟨rfl, rfl⟩ := by simpa using h
          exact ⟨['%'], hchar _, rfl⟩
        case h_3 d hd =>
          obtain ⟨rfl, rfl⟩ := by simpa using h
          -- a directive ends at the next percent sign
          obtain ⟨rfl, hbody⟩ := partition_some hpart
          exact ⟨_, ⟨body, hd, hbody, rfl⟩, by simp⟩
  case isFalse =>
    split at h
    case isTrue hc =>
      subst hc
      split at h
      case h_1 name after hh =>
        obtain ⟨rfl, rfl⟩ := by simpa using h
        have hcs := head_eq hh
        exact ⟨_, ⟨⟨after, hcs ▸ hh⟩, rfl⟩, by simp [hcs]⟩
      case h_2 =>
        obtain ⟨rfl, rfl⟩ := by simpa using h
        exact ⟨['{'], hchar _, rfl⟩
    case isFalse =>
      split at h
      case isTrue hc =>
        obtain ⟨rfl, rfl⟩ := by simpa using h
        exact ⟨_, rfl, by simp [hc]⟩
      case isFalse =>
        obtain ⟨rfl, rfl⟩ := by simpa using h
        exact ⟨[c], hchar _, rfl⟩

/-- What the loop has behind it: its parts, and the literal it has not flushed. -/
def Read (str : Str) (fmt : Text) (st : State) : Prop :=
  ∃ s t, Spelt str st.stack st.parts s ∧ Literal st.lit t ∧ fmt = s ++ t ++ st.rest

namespace Read

variable {fmt : Text} {st : State}

theorem flush (h : Read str fmt st) : ∃ s, Spelt str st.stack st.flush s ∧ fmt = s ++ st.rest := by
  obtain ⟨s, t, hs, ht, rfl⟩ := h
  refine ⟨s ++ t, ?_, rfl⟩
  rw [State.flush]
  split
  case isTrue hlit =>
    -- an empty literal was read from nothing
    rw [hlit] at ht
    cases ht
    simpa using hs
  case isFalse => simpa using hs.append (.lit ht .nil)

theorem append (h : Read str fmt st) {c : Char} {t rest : Text} (ht : Literal [c] t)
    (hrest : st.rest = t ++ rest) : Read str fmt (st.append c rest) := by
  obtain ⟨s, t', hs, ht', rfl⟩ := h
  exact ⟨s, t' ++ t, hs, ht'.append ht, by simp [hrest, State.append]⟩

/-- One turn reads what stands there, once. -/
theorem step (h : Read str fmt st) {c : Char} {cs rest : Text} {x : Piece} (hcs : st.rest = c :: cs)
    (hx : piece str c cs = .ok (x, rest)) : Read str fmt (Report.step st c cs x rest) := by
  obtain ⟨t, ht, htr⟩ := piece_reads hx
  rw [htr] at hcs
  obtain ⟨s, hs, hfmt⟩ := h.flush
  cases x with
  | char ch => exact h.append ht hcs
  | part d =>
    obtain ⟨body, hd, hbody, rfl⟩ := ht
    refine ⟨_, [], hs.append (.directive hd hbody .nil), .nil, ?_⟩
    simp [Report.step, hfmt, hcs]
  | head name =>
    obtain ⟨hname, rfl⟩ := ht
    rw [Report.step]
    split
    · refine ⟨_, [], .inside hname hs .nil, .nil, ?_⟩
      simp [hfmt, hcs]
    · -- too deep: the brace alone is read
      refine h.append (.refl [c]) ?_
      simp [hcs, ← htr]
  | close =>
    obtain rfl := ht
    rw [Report.step]
    split
    case h_1 name outer stack hst =>
      rw [hst] at hs
      cases hs with
      | inside hname houter hinner =>
        refine ⟨_, [], houter.append (.block hname hinner .nil), .nil, ?_⟩
        simp [hfmt, hcs]
    case h_2 =>
      -- nothing is open
      obtain rfl : c = '}' := by simpa using congrArg List.head? htr
      exact h.append (.refl _) hcs

/-- A step leaves no more than the piece did. -/
theorem rest_length (st : State) {c : Char} {cs rest : Text} {x : Piece}
    (hx : piece str c cs = .ok (x, rest)) : (Report.step st c cs x rest).rest.length ≤ cs.length := by
  have hrest : rest.length ≤ cs.length := by
    obtain ⟨t, ht, htr⟩ := piece_reads hx
    have hlen := congrArg List.length htr
    rw [List.length_cons, List.length_append] at hlen
    have hpos := List.length_pos_iff.2 ht.ne_nil
    omega
  cases x with
  | char ch => exact hrest
  | part d => exact hrest
  | head name =>
    rw [Report.step]
    split
    · exact hrest
    · exact le_rfl
  | close =>
    rw [Report.step]
    split <;> exact hrest

/-- The loop reads the string to its end. -/
theorem loop (n : ℕ) : ∀ {st st' : State}, Read str fmt st → st.rest.length ≤ n →
    Report.loop str n st = .ok st' → Read str fmt st' ∧ st'.rest = [] := by
  induction n with
  | zero =>
    intro st st' h hn hl
    obtain rfl : st = st' := by simpa [Report.loop] using hl
    exact ⟨h, List.length_eq_zero_iff.1 (Nat.le_zero.1 hn)⟩
  | succ n ih =>
    intro st st' h hn hl
    rw [Report.loop] at hl
    cases hrest : st.rest with
    | nil =>
      obtain rfl : st = st' := by simpa [hrest] using hl
      exact ⟨h, hrest⟩
    -- One piece, then the rest, which is shorter.
    | cons c cs =>
      cases hx : piece str c cs with
      | error e => simp [hrest, hx] at hl
      | ok read =>
        obtain ⟨x, rest⟩ := read
        simp only [hrest, hx] at hl
        rw [hrest, List.length_cons] at hn
        exact ih (h.step hrest hx) ((rest_length st hx).trans (Nat.le_of_succ_le_succ hn)) hl

end Read

/-- The part list is one of its format string: nothing is lost, and nothing read twice. -/
theorem parse_spells {fmt : Text} {parts : List Part} (h : parse str fmt = .ok parts) :
    Spells str parts fmt := by
  rw [parse] at h
  split at h
  · simp at h
  case h_2 st hl =>
    obtain rfl := by simpa using h
    have hstart : Read str fmt ⟨[], [], [], fmt⟩ := ⟨[], [], .outside .nil, .nil, by simp⟩
    obtain ⟨hread, hrest⟩ := hstart.loop fmt.length le_rfl hl
    obtain ⟨s, hs, hfmt⟩ := hread.flush
    rw [hrest, List.append_nil] at hfmt
    exact hfmt ▸ hs.splice

end Wiry.Report
