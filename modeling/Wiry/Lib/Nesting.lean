/-
Blocks that a head opens and a mark closes, where a head whose block is never closed stands for itself.

A descent finds out whether a block is closed by reading it to its end, and reads what follows the head
again where it is not: once for each such head, so twice for each it is inside. One pass opens every
block, keeps what was read so far on a stack, and puts the pieces together again at the end.
-/
import Mathlib.Data.List.Basic
import Mathlib.Order.Lattice
import Mathlib.Tactic.Common

set_option autoImplicit false

namespace Nesting

variable {α η : Type*}

inductive Token (α η : Type*) where
  | item (a : α)
  | head (h : η)
  | close

/-- What becomes of a closed block, of a head without its mark and of a mark without its head. -/
structure Build (α η : Type*) where
  block : η → List α → α
  bare : η → α
  stray : α

/-! ## The descent -/

/-- What is read up to the mark that closes, if the reading is `inside` a block, and what follows that
mark; the end of the list is no mark. -/
def descend (B : Build α η) : ℕ → Bool → List (Token α η) → List α × Option (List (Token α η))
  | 0, _, _ => ([], none)
  | _ + 1, _, [] => ([], none)
  | n + 1, inside, .item a :: ts =>
    let (parts, rest) := descend B n inside ts
    (a :: parts, rest)
  | n + 1, inside, .head h :: ts =>
    match descend B n true ts with
    | (body, some after) =>
      let (parts, rest) := descend B n inside after
      (B.block h body :: parts, rest)
    | (_, none) =>
      -- not a block: the head alone, and what follows it a second time
      let (parts, rest) := descend B n inside ts
      (B.bare h :: parts, rest)
  | _ + 1, true, .close :: ts => ([], some ts)
  | n + 1, false, .close :: ts =>
    let (parts, rest) := descend B n false ts
    (B.stray :: parts, rest)

def descent (B : Build α η) (ts : List (Token α η)) : List α := (descend B ts.length false ts).1

/-! ## One pass -/

/-- The open blocks, each with what was read before it, and what was read since. -/
structure Pass (α η : Type*) where
  stack : List (η × List α)
  parts : List α

namespace Pass

variable (B : Build α η)

def step (p : Pass α η) : Token α η → Pass α η
  | .item a => ⟨p.stack, p.parts ++ [a]⟩
  | .head h => ⟨(h, p.parts) :: p.stack, []⟩
  | .close =>
    match p.stack with
    | (h, outer) :: stack => ⟨stack, outer ++ [B.block h p.parts]⟩
    | [] => ⟨[], p.parts ++ [B.stray]⟩

/-- The blocks that are left open are none. -/
def splice : List (η × List α) → List α → List α
  | [], parts => parts
  | (h, outer) :: stack, parts => splice stack (outer ++ B.bare h :: parts)

def finish (p : Pass α η) : List α := splice B p.stack p.parts

def run (p : Pass α η) (ts : List (Token α η)) : Pass α η := ts.foldl (step B) p

@[simp] theorem run_nil (p : Pass α η) : run B p [] = p := rfl

@[simp] theorem run_cons (p : Pass α η) (t : Token α η) (ts : List (Token α η)) :
    run B p (t :: ts) = run B (step B p t) ts := rfl

end Pass

/-- How many blocks are open at once, at most, from `depth` of them on. -/
def most_open : ℕ → List (Token α η) → ℕ
  | depth, [] => depth
  | depth, .item _ :: ts => most_open depth ts
  | depth, .head _ :: ts => most_open (depth + 1) ts
  | depth, .close :: ts => max depth (most_open (depth - 1) ts)

theorem le_most_open (ts : List (Token α η)) : ∀ depth, depth ≤ most_open depth ts := by
  induction ts with
  | nil => intro depth; exact le_rfl
  | cons t ts ih =>
    intro depth
    cases t with
    | item a => exact ih depth
    | head h => exact (Nat.le_succ depth).trans (ih (depth + 1))
    | close => exact le_max_left _ _

/-- Most are open from a step on, or before. -/
theorem most_open_step (B : Build α η) (p : Pass α η) (t : Token α η) (ts : List (Token α η)) :
    most_open (p.step B t).stack.length ts ≤ most_open p.stack.length (t :: ts) := by
  cases t with
  | item a => exact le_rfl
  | head h => exact le_rfl
  | close =>
    refine le_trans (le_of_eq ?_) (le_max_right _ _)
    rw [Pass.step]
    cases p.stack <;> rfl

/-! ## They agree -/

section Agree

variable {B : Build α η}

/-- Where no mark closes, it makes no difference whether one was looked for. -/
theorem descend_outside : ∀ (n : ℕ) (ts : List (Token α η)) (parts : List α),
    descend B n true ts = (parts, none) → descend B n false ts = (parts, none)
  | 0, _, _, h => h
  | _ + 1, [], _, h => h
  | n + 1, .item a :: ts, parts, h => by
    simp only [descend, Prod.mk.injEq] at h ⊢
    obtain ⟨rfl, hrest⟩ := h
    have hin := descend_outside n ts _ (Prod.ext rfl hrest)
    simp [hin]
  | n + 1, .head h' :: ts, parts, h => by
    simp only [descend] at h ⊢
    -- The body is closed, or the tokens ran out inside it.
    cases hbody : descend B n true ts with
    | mk body rest =>
      simp only [hbody] at h ⊢
      cases rest with
      | some after =>
        simp only [Prod.mk.injEq] at h ⊢
        obtain ⟨rfl, hrest⟩ := h
        have hin := descend_outside n after _ (Prod.ext rfl hrest)
        simp [hin]
      | none =>
        have hin := descend_outside n ts body hbody
        simpa [hin] using h
  | _ + 1, .close :: _, _, h => by simp [descend] at h

/-- The pass reads `ts` as a descent does that finds `more` there and then what closes the block. -/
def Ends (B : Build α η) (p : Pass α η) (ts : List (Token α η)) : List α × Option (List (Token α η)) → Prop
  | (more, none) => (p.run B ts).finish B = Pass.splice B p.stack (p.parts ++ more)
  | (more, some rest) => rest.length < ts.length ∧ ∃ h outer stack, p.stack = (h, outer) :: stack ∧
      p.run B ts = Pass.run B ⟨stack, outer ++ [B.block h (p.parts ++ more)]⟩ rest

/-- One part is found, and the rest behind it. -/
theorem Ends.cons {p : Pass α η} {ts after : List (Token α η)} {a : α}
    {found : List α × Option (List (Token α η))} (h : Ends B ⟨p.stack, p.parts ++ [a]⟩ after found)
    (hrun : p.run B ts = Pass.run B ⟨p.stack, p.parts ++ [a]⟩ after) (hlt : after.length < ts.length) :
    Ends B p ts (a :: found.1, found.2) := by
  obtain ⟨more, rest⟩ := found
  cases rest with
  | none => simpa [Ends, hrun] using h
  | some rest =>
    obtain ⟨hlen, hclose⟩ := h
    exact ⟨hlen.trans hlt, by simpa [hrun] using hclose⟩

/-- What the pass comes to from what it has read so far, on at most `n` tokens. -/
theorem ends_descend : ∀ (n : ℕ) (ts : List (Token α η)) (p : Pass α η), ts.length ≤ n →
    Ends B p ts (descend B n (!p.stack.isEmpty) ts)
  | 0, ts, p, hn => by
    obtain rfl : ts = [] := List.length_eq_zero_iff.1 (Nat.le_zero.1 hn)
    simp [descend, Ends, Pass.finish]
  | n + 1, [], p, _ => by simp [descend, Ends, Pass.finish]
  | n + 1, .item a :: ts, p, hn => by
    have hrest := ends_descend n ts ⟨p.stack, p.parts ++ [a]⟩ (Nat.le_of_succ_le_succ hn)
    exact hrest.cons rfl (Nat.lt_succ_self _)
  | n + 1, .head h :: ts, p, hn => by
    have hbody := ends_descend n ts ⟨(h, p.parts) :: p.stack, []⟩ (Nat.le_of_succ_le_succ hn)
    rw [descend]
    cases hd : descend B n true ts with
    | mk body rest =>
      simp only [List.isEmpty_cons, Bool.not_false, hd] at hbody
      cases rest with
      | some after =>
        -- the block is closed: what follows it is read from the place behind its mark
        obtain ⟨hlt, h', outer, stack, heq, hrun⟩ := hbody
        obtain ⟨⟨rfl, rfl⟩, rfl⟩ := by simpa using heq
        have hafter := ends_descend n after ⟨p.stack, p.parts ++ [B.block h body]⟩
          (hlt.le.trans (Nat.le_of_succ_le_succ hn))
        exact hafter.cons hrun (hlt.trans (Nat.lt_succ_self _))
      | none =>
        -- it is not, and a second reading ends where the first did
        have hagain : descend B n (!p.stack.isEmpty) ts = (body, none) := by
          cases p.stack with
          | nil => exact descend_outside n ts body hd
          | cons => exact hd
        simpa [hagain, Ends, Pass.step, Pass.splice] using hbody
  | n + 1, .close :: ts, ⟨[], parts⟩, hn => by
    have hrest := ends_descend n ts ⟨[], parts ++ [B.stray]⟩ (Nat.le_of_succ_le_succ hn)
    exact hrest.cons rfl (Nat.lt_succ_self _)
  | n + 1, .close :: ts, ⟨(h, outer) :: stack, parts⟩, _ =>
    ⟨Nat.lt_succ_self _, h, outer, stack, rfl, by simp [Pass.step]⟩

/-- One pass reads what the descent reads. -/
theorem finish_run (ts : List (Token α η)) : (Pass.run B ⟨[], []⟩ ts).finish B = descent B ts := by
  have h : Ends B ⟨[], []⟩ ts (descend B ts.length false ts) := ends_descend ts.length ts ⟨[], []⟩ le_rfl
  rw [descent]
  cases hd : descend B ts.length false ts with
  | mk more rest =>
    rw [hd] at h
    cases rest with
    | none => simpa [Ends, Pass.splice] using h
    | some rest =>
      obtain ⟨-, h', outer, stack, heq, -⟩ := h
      simp at heq

end Agree

end Nesting
