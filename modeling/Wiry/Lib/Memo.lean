/-
Memo tables: answers kept beside what they are answers of. A table is coherent with a
partial function where every answer kept is the function's.
-/
import Mathlib.Logic.Function.Basic

set_option autoImplicit false

namespace Memo

variable {κ α : Type}

/-- The answers kept, by key. -/
abbrev Table (κ α : Type) := κ → Option α

def empty : Table κ α := fun _ => none

def insert [DecidableEq κ] (t : Table κ α) (k : κ) (a : α) : Table κ α := Function.update t k (some a)

/-- Every answer kept is the one `f` gives. -/
def Coherent (f : κ → Option α) (t : Table κ α) : Prop := ∀ k a, t k = some a → f k = some a

@[simp] theorem coherent_empty (f : κ → Option α) : Coherent f empty :=
  fun _ _ h => absurd h.symm (Option.some_ne_none _)

theorem insert_eq_some [DecidableEq κ] {t : Table κ α} {k k' : κ} {a a' : α} (h : insert t k a k' = some a') :
    k' = k ∧ a' = a ∨ t k' = some a' := by
  unfold insert at h
  by_cases hk : k' = k
  · subst hk
    rw [Function.update_self, Option.some.injEq] at h
    exact .inl ⟨rfl, h.symm⟩
  · rw [Function.update_of_ne hk] at h
    exact .inr h

/-- Keeping an answer that is right keeps the table coherent. -/
theorem Coherent.insert [DecidableEq κ] {f : κ → Option α} {t : Table κ α} (h : Coherent f t) {k : κ} {a : α}
    (hk : f k = some a) : Coherent f (insert t k a) := by
  intro k' a' hin
  obtain ⟨rfl, rfl⟩ | hold := insert_eq_some hin
  · exact hk
  · exact h k' a' hold

/-- A table stays coherent when no kept answer changes. -/
theorem Coherent.congr {f g : κ → Option α} {t : Table κ α} (h : Coherent f t)
    (hfg : ∀ k a, t k = some a → g k = f k) : Coherent g t :=
  fun k a hk => (hfg k a hk).trans (h k a hk)

end Memo
