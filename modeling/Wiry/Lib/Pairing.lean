/-
Requests paired with a stream of responses: each response goes to the first request that still waits and
that it answers, and a request that was answered waits no more.
-/
import Mathlib.Data.List.Sort
import Mathlib.Order.Defs.LinearOrder

set_option autoImplicit false

namespace Wiry.Pairing

variable {ι β : Type*} [LinearOrder ι] (rel : ι → β → Bool)

/-- Those that wait once a response has come. -/
def left (free : List ι) (b : β) : List ι :=
  match free.find? (rel · b) with
  | none => free
  | some i => free.erase i

/-- Who is paired with which response. -/
def greedy : List ι → List β → List (ι × ℕ)
  | _, [] => []
  | free, b :: bs =>
    ((free.find? (rel · b)).map (·, 0)).toList ++ (greedy (left rel free b) bs).map fun x => (x.1, x.2 + 1)

variable {rel}

theorem mem_greedy_zero {free : List ι} {b : β} {bs : List β} {i : ι} :
    (i, 0) ∈ greedy rel free (b :: bs) ↔ free.find? (rel · b) = some i := by
  simp [greedy]

theorem mem_greedy_succ {free : List ι} {b : β} {bs : List β} {i : ι} {k : ℕ} :
    (i, k + 1) ∈ greedy rel free (b :: bs) ↔ (i, k) ∈ greedy rel (left rel free b) bs := by
  simp [greedy]

variable {free : List ι} {bs : List β}

/-- What is left stays in order. -/
theorem pairwise_left (h : free.Pairwise (· < ·)) (b : β) : (left rel free b).Pairwise (· < ·) := by
  unfold left
  split
  · exact h
  · exact h.sublist List.erase_sublist

/-- A request waits on unless the response was its own. -/
theorem mem_left (h : free.Pairwise (· < ·)) {b : β} {i : ι} :
    i ∈ left rel free b ↔ i ∈ free ∧ free.find? (rel · b) ≠ some i := by
  have hnodup : free.Nodup := h.imp fun hlt => ne_of_lt hlt
  unfold left
  split
  · rename_i hnone
    simp [hnone]
  · rename_i j hj
    rw [hnodup.mem_erase_iff, hj, and_comm]
    simp [eq_comm]

/-- The first of a sorted list that a response answers. -/
theorem find_iff (h : free.Pairwise (· < ·)) {b : β} {i : ι} :
    free.find? (rel · b) = some i ↔ i ∈ free ∧ rel i b = true ∧ ∀ j ∈ free, j < i → rel j b = false := by
  -- By the list: its head is the least, so it is found exactly when it is related.
  induction free with
  | nil => simp
  | cons a free ih =>
    obtain ⟨ha, hfree⟩ := List.pairwise_cons.1 h
    rw [List.find?_cons]
    by_cases hrel : rel a b = true
    · simp only [hrel]
      constructor
      · intro heq
        cases heq
        exact ⟨List.mem_cons_self, hrel, fun j hj hlt => by
          obtain rfl | hj := List.mem_cons.1 hj
          · exact absurd hlt (lt_irrefl _)
          · exact absurd hlt (lt_asymm (ha j hj))⟩
      · rintro ⟨hmem, -, hfirst⟩
        obtain rfl | hmem := List.mem_cons.1 hmem
        · rfl
        · exact absurd (hfirst a List.mem_cons_self (ha i hmem)) (by simp [hrel])
    · simp only [Bool.not_eq_true] at hrel
      simp only [hrel]
      rw [ih hfree]
      constructor
      · rintro ⟨hmem, hi, hfirst⟩
        exact ⟨List.mem_cons_of_mem a hmem, hi, List.forall_mem_cons.2 ⟨fun _ => hrel, hfirst⟩⟩
      · rintro ⟨hmem, hi, hfirst⟩
        obtain rfl | hmem := List.mem_cons.1 hmem
        · exact absurd hi (by simp [hrel])
        · exact ⟨hmem, hi, (List.forall_mem_cons.1 hfirst).2⟩

/-- **The pairing is the one in which a response goes to the first request it answers that no earlier
response was given to.** -/
theorem mem_greedy_iff (h : free.Pairwise (· < ·)) (i : ι) (k : ℕ) :
    (i, k) ∈ greedy rel free bs ↔
      i ∈ free ∧ (∀ m < k, (i, m) ∉ greedy rel free bs) ∧ ∃ b ∈ bs[k]?, rel i b = true ∧
        ∀ j ∈ free, j < i → rel j b = true → ∃ m < k, (j, m) ∈ greedy rel free bs := by
  induction k generalizing free bs with
  | zero =>
    cases bs with
    | nil => simp [greedy]
    | cons b bs =>
      rw [mem_greedy_zero, find_iff h]
      simp
  | succ k ih =>
    cases bs with
    | nil => simp [greedy]
    | cons b bs =>
      rw [mem_greedy_succ, ih (pairwise_left h b), mem_left h]
      -- what the first response took is split off both conditions on earlier responses
      have hsplit : ∀ j, (∃ m < k + 1, (j, m) ∈ greedy rel free (b :: bs)) ↔
          free.find? (rel · b) = some j ∨ ∃ m < k, (j, m) ∈ greedy rel (left rel free b) bs := by
        intro j
        constructor
        · rintro ⟨m, hm, hmem⟩
          cases m with
          | zero => exact .inl (mem_greedy_zero.1 hmem)
          | succ m => exact .inr ⟨m, by omega, mem_greedy_succ.1 hmem⟩
        · rintro (hzero | ⟨m, hm, hmem⟩)
          · exact ⟨0, by omega, mem_greedy_zero.2 hzero⟩
          · exact ⟨m + 1, by omega, mem_greedy_succ.2 hmem⟩
      have hnone : (∀ m < k + 1, (i, m) ∉ greedy rel free (b :: bs)) ↔
          free.find? (rel · b) ≠ some i ∧ ∀ m < k, (i, m) ∉ greedy rel (left rel free b) bs := by
        have hnot := not_congr (hsplit i)
        simpa only [not_exists, not_and, not_or] using hnot
      simp only [hsplit, hnone, List.getElem?_cons_succ]
      constructor
      -- a request before `i` that the first response took is no obstacle any more
      · rintro ⟨⟨hmem, hfirst⟩, hlater, c, hc, hrel, hbefore⟩
        refine ⟨hmem, ⟨hfirst, hlater⟩, c, hc, hrel, fun j hj hlt hjrel => ?_⟩
        by_cases hj' : free.find? (rel · b) = some j
        · exact .inl hj'
        · exact .inr (hbefore j ((mem_left h).2 ⟨hj, hj'⟩) hlt hjrel)
      · rintro ⟨hmem, ⟨hfirst, hlater⟩, c, hc, hrel, hbefore⟩
        refine ⟨⟨hmem, hfirst⟩, hlater, c, hc, hrel, fun j hj hlt hjrel => ?_⟩
        obtain ⟨hjmem, hj'⟩ := (mem_left h).1 hj
        exact (hbefore j hjmem hlt hjrel).resolve_left hj'

/-- Responses are paired in the order they came. -/
theorem pairwise_greedy (free : List ι) (bs : List β) :
    (greedy rel free bs).Pairwise fun x y => x.2 < y.2 := by
  induction bs generalizing free with
  | nil => exact List.Pairwise.nil
  | cons b bs ih =>
    rw [greedy, List.pairwise_append]
    refine ⟨?_, ?_, ?_⟩
    · cases free.find? (rel · b) with
      | none => simp
      | some i => simp
    · rw [List.pairwise_map]
      exact (ih _).imp fun hlt => by simpa using hlt
    · intro x hx y hy
      obtain ⟨i, -, rfl⟩ := Option.map_eq_some_iff.1 (Option.mem_toList.1 hx)
      obtain ⟨z, -, rfl⟩ := List.mem_map.1 hy
      exact Nat.succ_pos _

end Wiry.Pairing
