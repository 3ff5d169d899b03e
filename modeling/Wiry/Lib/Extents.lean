/-
Extents, as start and length: how often a position is held when a stretch is cut into chunks, and
when it is walked in order for what other extents leave of it. Nothing here names a program.
-/
import Mathlib.Data.List.Pairwise
import Mathlib.Data.List.Count
import Mathlib.Algebra.BigOperators.Group.List.Basic
import Mathlib.Tactic.Common

set_option autoImplicit false

namespace Wiry.Extents

/-- The extent holds the position. -/
def Holds (e : ℕ × ℕ) (o : ℕ) : Prop := e.1 ≤ o ∧ o < e.1 + e.2

instance (e : ℕ × ℕ) (o : ℕ) : Decidable (Holds e o) := inferInstanceAs (Decidable (_ ∧ _))

/-- How many of the extents hold the position. -/
def times (es : List (ℕ × ℕ)) (o : ℕ) : ℕ := es.countP fun e => Holds e o

@[simp] theorem times_nil (o : ℕ) : times [] o = 0 := rfl

theorem times_cons (e : ℕ × ℕ) (es : List (ℕ × ℕ)) (o : ℕ) :
    times (e :: es) o = times es o + if Holds e o then 1 else 0 := by
  simp [times, List.countP_cons]

theorem times_append (es fs : List (ℕ × ℕ)) (o : ℕ) :
    times (es ++ fs) o = times es o + times fs o := List.countP_append ..

/-- Two extents hold no position in common. -/
def Apart (e f : ℕ × ℕ) : Prop := ∀ o, Holds e o → ¬ Holds f o

theorem Apart.symm {e f : ℕ × ℕ} (h : Apart e f) : Apart f e := fun o hf he => h o he hf

/-- Extents that share no position hold each at most once. -/
theorem times_of_apart {es : List (ℕ × ℕ)} (h : es.Pairwise Apart) (o : ℕ) :
    times es o = if ∃ e ∈ es, Holds e o then 1 else 0 := by
  induction es with
  | nil => simp
  | cons e es ih =>
    obtain ⟨hhead, htail⟩ := List.pairwise_cons.1 h
    rw [times_cons, ih htail]
    by_cases he : Holds e o
    · have hnone : ¬ ∃ f ∈ es, Holds f o := fun ⟨f, hf, hholds⟩ => hhead f hf o he hholds
      rw [if_pos he, if_neg hnone, if_pos ⟨e, List.mem_cons_self, he⟩]
    · have hsome : (∃ f ∈ e :: es, Holds f o) ↔ ∃ f ∈ es, Holds f o := by simp [he]
      rw [if_neg he, Nat.add_zero]
      exact if_congr hsome.symm rfl rfl

/-! ## Chunks -/

section Chunks

variable {α : Type}

/-- The pieces of length `n` a list is cut into, the last one shorter. -/
def chunks (n : ℕ) (l : List α) : List (List α) :=
  if 0 < n ∧ l ≠ [] then l.take n :: chunks n (l.drop n) else []
termination_by l.length
decreasing_by
  rename_i h
  have := List.length_pos_iff.2 h.2
  rw [List.length_drop]
  omega

/-- The extent of a piece, counted from the start of the first. -/
def spot (n : ℕ) (c : List α × ℕ) : ℕ × ℕ := (c.2 * n, c.1.length)

/-- Every position is in one piece. -/
theorem times_chunks {n : ℕ} (hn : 0 < n) (l : List α) (k o : ℕ) :
    times (((chunks n l).zipIdx k).map (spot n)) o = if Holds (k * n, l.length) o then 1 else 0 := by
  induction l using chunks.induct n generalizing k with
  | case1 l h ih =>
    have hpos := List.length_pos_iff.2 h.2
    rw [chunks, if_pos h, List.zipIdx_cons, List.map_cons, times_cons, ih]
    unfold spot
    rw [List.length_take, List.length_drop, Nat.succ_mul]
    clear ih
    -- the first chunk or the rest holds the place, by where it lies
    split_ifs
    all_goals
      unfold Holds at *
      grind
  | case2 l h =>
    obtain rfl : l = [] := by
      by_contra hne
      exact h ⟨hn, hne⟩
    have hout : ¬ Holds (k * n, ([] : List α).length) o := by
      unfold Holds
      simp
    rw [chunks, if_neg h, if_neg hout]
    rfl

/-- A piece is what the list has at its extent, and not empty. -/
theorem mem_chunks {n : ℕ} (l : List α) (k : ℕ) {c : List α × ℕ}
    (hc : c ∈ (chunks n l).zipIdx k) :
    k ≤ c.2 ∧ c.1 = (l.drop ((c.2 - k) * n)).take n ∧ c.1 ≠ [] := by
  induction l using chunks.induct n generalizing k with
  | case1 l h ih =>
    rw [chunks, if_pos h, List.zipIdx_cons] at hc
    rcases List.mem_cons.1 hc with rfl | hc
    · refine ⟨Nat.le_refl k, by simp, ?_⟩
      rw [ne_eq, List.take_eq_nil_iff, not_or]
      exact ⟨by omega, h.2⟩
    · obtain ⟨hk, hpart, hne⟩ := ih (k + 1) hc
      refine ⟨by omega, ?_, hne⟩
      have hidx : c.2 - k = c.2 - (k + 1) + 1 := by omega
      rw [hpart, List.drop_drop, hidx, Nat.succ_mul, Nat.add_comm n]
  | case2 l h =>
    rw [chunks, if_neg h] at hc
    exact absurd hc List.not_mem_nil

end Chunks

/-! ## What extents leave -/

/-- What a walk over `es`, in order of their starts, leaves of the stretch from `at_` to `stop`. -/
def left (stop : ℕ) : ℕ → List (ℕ × ℕ) → List (ℕ × ℕ)
  | at_, [] => if at_ < stop then [(at_, stop - at_)] else []
  | at_, e :: es =>
    if e.1 < stop then
      (if at_ < e.1 then [(at_, min e.1 stop - at_)] else []) ++ left stop (max at_ (e.1 + e.2)) es
    else if at_ < stop then [(at_, stop - at_)] else []

theorem times_stretch (a b o : ℕ) :
    times (if a < b then [(a, b - a)] else []) o = if a ≤ o ∧ o < b then 1 else 0 := by
  by_cases h : a < b
  · have hiff : Holds (a, b - a) o ↔ a ≤ o ∧ o < b := by
      unfold Holds
      dsimp only
      omega
    rw [if_pos h, times_cons, times_nil, Nat.zero_add]
    exact if_congr hiff rfl rfl
  · rw [if_neg h, times_nil, if_neg (by omega)]

/-- **What is left holds each position of the stretch that no extent holds, once.** -/
theorem times_left {stop : ℕ} {es : List (ℕ × ℕ)} (hs : es.Pairwise fun e f => e.1 ≤ f.1)
    (at_ o : ℕ) : times (left stop at_ es) o =
      if at_ ≤ o ∧ o < stop ∧ ∀ e ∈ es, ¬ Holds e o then 1 else 0 := by
  induction es generalizing at_ with
  | nil =>
    rw [left, times_stretch]
    exact if_congr (by simp) rfl rfl
  | cons e es ih =>
    obtain ⟨hhead, htail⟩ := List.pairwise_cons.1 hs
    have hcons : (∀ f ∈ e :: es, ¬ Holds f o) ↔ ¬ Holds e o ∧ ∀ f ∈ es, ¬ Holds f o :=
      List.forall_mem_cons
    -- a position in front of this extent is in front of every later one
    have hahead : o < e.1 → ¬ Holds e o ∧ ∀ f ∈ es, ¬ Holds f o := by
      intro ho
      refine ⟨fun h => absurd h.1 (by omega), fun f hf h => ?_⟩
      have hle := hhead f hf
      exact absurd h.1 (by omega)
    by_cases hin : e.1 < stop
    · have hmin : min e.1 stop = e.1 := by omega
      rw [left, if_pos hin, times_append, ih htail, hmin, times_stretch]
      by_cases ho : o < e.1
      · have hback : ¬ (max at_ (e.1 + e.2) ≤ o ∧ o < stop ∧ ∀ f ∈ es, ¬ Holds f o) :=
          fun h => absurd h.1 (by omega)
        rw [if_neg hback, Nat.add_zero]
        exact if_congr ⟨fun h => ⟨h.1, by omega, hcons.2 (hahead ho)⟩, fun h => ⟨h.1, ho⟩⟩ rfl rfl
      · have hfront : ¬ (at_ ≤ o ∧ o < e.1) := fun h => ho h.2
        have hiff : max at_ (e.1 + e.2) ≤ o ↔ at_ ≤ o ∧ ¬ Holds e o := by
          unfold Holds
          omega
        rw [if_neg hfront, Nat.zero_add]
        exact if_congr ⟨fun ⟨h1, h2, h3⟩ => ⟨(hiff.1 h1).1, h2, hcons.2 ⟨(hiff.1 h1).2, h3⟩⟩,
          fun ⟨h1, h2, h3⟩ => ⟨hiff.2 ⟨h1, (hcons.1 h3).1⟩, h2, (hcons.1 h3).2⟩⟩ rfl rfl
    · rw [left, if_neg hin, times_stretch]
      exact if_congr ⟨fun h => ⟨h.1, h.2, hcons.2 (hahead (by omega))⟩, fun h => ⟨h.1, h.2.1⟩⟩ rfl rfl

/-- What is left lies in the stretch, and is not empty. -/
theorem mem_left {stop at_ : ℕ} {es : List (ℕ × ℕ)} {x : ℕ × ℕ} (hx : x ∈ left stop at_ es) :
    at_ ≤ x.1 ∧ 0 < x.2 ∧ x.1 + x.2 ≤ stop := by
  induction es generalizing at_ with
  -- A hole is left in front of an extent, or behind the last one.
  | nil =>
    unfold left at hx
    split at hx
    · rw [List.mem_singleton.1 hx]
      dsimp only
      omega
    · exact absurd hx List.not_mem_nil
  | cons e es ih =>
    rw [left] at hx
    split at hx
    · rcases List.mem_append.1 hx with hx | hx
      · split at hx
        · rw [List.mem_singleton.1 hx]
          dsimp only
          omega
        · exact absurd hx List.not_mem_nil
      · have := ih hx
        omega
    · split at hx
      · rw [List.mem_singleton.1 hx]
        dsimp only
        omega
      · exact absurd hx List.not_mem_nil

end Wiry.Extents
