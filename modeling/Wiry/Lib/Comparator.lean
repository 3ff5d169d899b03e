/-
Three-way comparators as a sort takes them: positive where the first of two comes out ahead.

A comparator need be an order on the elements that are sorted only, and says nothing of an element
beside itself. One that goes by a key is.
-/
import Mathlib

set_option autoImplicit false

namespace Comparator

variable {α : Type*}

/-- A total preorder on the elements of a list: of two one is ahead or they tie, whichever way they
are asked about, and what is no worse than something no worse than a third is no worse than it. -/
structure Consistent (cmp : α → α → ℤ) (l : List α) : Prop where
  antisymm : ∀ a ∈ l, ∀ b ∈ l, a ≠ b → (0 < cmp a b ↔ cmp b a < 0)
  trans : ∀ a ∈ l, ∀ b ∈ l, ∀ c ∈ l, a ≠ b → b ≠ c → a ≠ c → 0 ≤ cmp a b → 0 ≤ cmp b c → 0 ≤ cmp a c

/-- The elements with what comes out ahead in front; ties keep their order. -/
def best_first (cmp : α → α → ℤ) (l : List α) : List α := l.mergeSort fun a b => decide (0 ≤ cmp a b)

section Key

variable {β : Type*} [LinearOrder β] {cmp : α → α → ℤ} (key : α → β) {l : List α}

/-- A comparator that goes by a key. -/
theorem consistent_of_key (hpos : ∀ a ∈ l, ∀ b ∈ l, a ≠ b → (0 < cmp a b ↔ key b < key a))
    (hneg : ∀ a ∈ l, ∀ b ∈ l, a ≠ b → (cmp a b < 0 ↔ key a < key b)) : Consistent cmp l where
  antisymm a ha b hb hab := by
    rw [hpos a ha b hb hab, hneg b hb a ha hab.symm]
  trans a ha b hb c hc hab hbc hac h1 h2 := by
    have hle : ∀ a ∈ l, ∀ b ∈ l, a ≠ b → 0 ≤ cmp a b → key b ≤ key a := by
      intro a ha b hb hne h
      by_contra hlt
      have hcmp := (hneg a ha b hb hne).2 (not_le.1 hlt)
      omega
    have hkey := le_trans (hle b hb c hc hbc h2) (hle a ha b hb hab h1)
    by_contra hlt
    have hcmp := (hneg a ha c hc hac).1 (by omega)
    exact absurd hkey (not_le.2 hcmp)

/-- The elements by their keys, the largest first. -/
theorem best_first_pairwise (hnonneg : ∀ a ∈ l, ∀ b ∈ l, 0 ≤ cmp a b ↔ key b ≤ key a) :
    (best_first cmp l).Pairwise fun a b => key b ≤ key a := by
  have hcongr : best_first cmp l = l.mergeSort fun a b => decide (key b ≤ key a) := by
    have hmap := List.map_mergeSort (f := id) (l := l) (r := fun a b => decide (0 ≤ cmp a b))
      (s := fun a b => decide (key b ≤ key a))
      (fun a ha b hb => decide_eq_decide.2 (hnonneg a ha b hb))
    simpa [best_first] using hmap
  have hsorted : (l.mergeSort fun a b => decide (key b ≤ key a)).Pairwise fun a b =>
      decide (key b ≤ key a) = true := by
    apply List.pairwise_mergeSort
    · intro a b c h1 h2
      simp only [decide_eq_true_eq] at h1 h2 ⊢
      exact le_trans h2 h1
    · intro a b
      simpa using le_total (key b) (key a)
  rw [hcongr]
  exact hsorted.imp of_decide_eq_true

theorem mem_best_first {a : α} : a ∈ best_first cmp l ↔ a ∈ l := List.mem_mergeSort

/-- What comes out in front is no worse than any other. -/
theorem best_first_head (hnonneg : ∀ a ∈ l, ∀ b ∈ l, 0 ≤ cmp a b ↔ key b ≤ key a) (hne : l ≠ []) :
    ∃ r rest, best_first cmp l = r :: rest ∧ r ∈ l ∧ ∀ b ∈ l, key b ≤ key r := by
  have hsorted := best_first_pairwise key hnonneg
  have hmem : ∀ b, b ∈ best_first cmp l ↔ b ∈ l := fun _ => mem_best_first
  cases hsort : best_first cmp l with
  | nil =>
    obtain ⟨b, rest, rfl⟩ := List.exists_cons_of_ne_nil hne
    have hb := (hmem b).2 List.mem_cons_self
    rw [hsort] at hb
    cases hb
  | cons r rest =>
    rw [hsort] at hsorted hmem
    refine ⟨r, rest, rfl, (hmem r).1 List.mem_cons_self, ?_⟩
    intro b hb
    rcases List.mem_cons.1 ((hmem b).2 hb) with rfl | hb
    · exact le_refl _
    · exact (List.pairwise_cons.1 hsorted).1 b hb

end Key

end Comparator
