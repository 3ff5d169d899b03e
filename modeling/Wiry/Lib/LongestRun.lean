/-
The first longest run of a list: one pass that keeps the run it stands in and the best so far.

A run is a stretch of places that all satisfy a predicate. The best one is replaced only by a longer
one, so of several of one length the first stays.
-/
import Mathlib.Data.List.Induction
import Mathlib.Tactic.Common

set_option autoImplicit false

namespace LongestRun

variable {α : Type*} (p : α → Bool)

/-- The `k` places from `i` on satisfy `p`. -/
def IsRun (xs : List α) (i k : ℕ) : Prop :=
  i + k ≤ xs.length ∧ ∀ j, i ≤ j → j < i + k → ∃ x, xs[j]? = some x ∧ p x = true

/-- Where a run starts and how long it is. -/
structure Run where
  start : ℕ
  len : ℕ

/-- The best run so far and the one the pass stands in. -/
structure Scan where
  best : Run
  cur : Run

def step (s : Scan) (at_ : α × ℕ) : Scan :=
  if p at_.1 then
    let start := if s.cur.len = 0 then at_.2 else s.cur.start
    let len := s.cur.len + 1
    { best := if len > s.best.len then ⟨start, len⟩ else s.best, cur := ⟨start, len⟩ }
  else { s with cur := ⟨s.cur.start, 0⟩ }

def scan (none_ : ℕ) (xs : List α) : Scan :=
  xs.zipIdx.foldl (step p) ⟨⟨none_, 0⟩, ⟨none_, 0⟩⟩

variable {p}

theorem isRun_zero {xs : List α} {i : ℕ} (h : i ≤ xs.length) : IsRun p xs i 0 := by
  refine ⟨h, ?_⟩
  intro j hj hlt
  omega

/-- A run of a longer list ends before its last place, or takes it in. -/
theorem isRun_concat {xs : List α} {x : α} {i k : ℕ} :
    IsRun p (xs ++ [x]) i k ↔
      IsRun p xs i k ∨ (k = 0 ∧ i = xs.length + 1) ∨
        ∃ m, k = m + 1 ∧ i + m = xs.length ∧ p x = true ∧ IsRun p xs i m := by
  have hlen : (xs ++ [x]).length = xs.length + 1 := by simp
  have hold : ∀ j, j < xs.length → (xs ++ [x])[j]? = xs[j]? :=
    fun j hj => List.getElem?_append_left hj
  have hnew : (xs ++ [x])[xs.length]? = some x := by simp
  unfold IsRun
  constructor
  · rintro ⟨hle, hall⟩
    rw [hlen] at hle
    -- A run that does not reach the new element is an old one.
    by_cases hin : i + k ≤ xs.length
    · left
      refine ⟨hin, ?_⟩
      intro j hj hlt
      rw [← hold j (by omega)]
      exact hall j hj hlt
    -- One that does is empty behind it, or ends with it.
    · right
      rcases k with _ | m
      · left
        omega
      · right
        refine ⟨m, rfl, by omega, ?_, by omega, ?_⟩
        · obtain ⟨y, hy, hpy⟩ := hall xs.length (by omega) (by omega)
          rw [hnew] at hy
          cases hy
          exact hpy
        · intro j hj hlt
          rw [← hold j (by omega)]
          exact hall j hj (by omega)
  · rintro (⟨hle, hall⟩ | ⟨rfl, rfl⟩ | ⟨m, rfl, hend, hpx, hle, hall⟩)
    · refine ⟨by omega, ?_⟩
      intro j hj hlt
      rw [hold j (by omega)]
      exact hall j hj hlt
    · refine ⟨by omega, ?_⟩
      intro j hj hlt
      omega
    · refine ⟨by omega, ?_⟩
      intro j hj hlt
      by_cases hj' : j < xs.length
      · rw [hold j hj']
        exact hall j hj (by omega)
      · obtain rfl : j = xs.length := by omega
        exact ⟨x, hnew, hpx⟩

variable (p) in
/-- What the pass knows after a list: the run that ends there, and the first longest of all. -/
structure Known (xs : List α) (s : Scan) : Prop where
  cur_le : s.cur.len ≤ xs.length
  cur_start : 0 < s.cur.len → s.cur.start + s.cur.len = xs.length
  cur_run : IsRun p xs (xs.length - s.cur.len) s.cur.len
  cur_longest : ∀ i k, IsRun p xs i k → i + k = xs.length → k ≤ s.cur.len
  best_run : 0 < s.best.len → IsRun p xs s.best.start s.best.len
  best_longest : ∀ i k, IsRun p xs i k → k ≤ s.best.len
  best_first : ∀ i, 0 < s.best.len → IsRun p xs i s.best.len → s.best.start ≤ i

theorem known_nil (none_ : ℕ) : Known p [] ⟨⟨none_, 0⟩, ⟨none_, 0⟩⟩ := by
  constructor
  all_goals simp [IsRun]

section Step

variable {xs : List α} {s : Scan} {x : α} {a : ℕ}

/-- Where the run that goes on with the next place starts. -/
theorem Known.start (h : Known p xs s) :
    (if s.cur.len = 0 then xs.length else s.cur.start) + s.cur.len = xs.length := by
  split
  · omega
  · exact h.cur_start (by omega)

theorem Known.grown (h : Known p xs s) (hx : p x = true) (ha : a + s.cur.len = xs.length) :
    IsRun p (xs ++ [x]) a (s.cur.len + 1) := by
  have hrun := h.cur_run
  rw [show xs.length - s.cur.len = a by omega] at hrun
  exact isRun_concat.2 (.inr (.inr ⟨_, rfl, ha, hx, hrun⟩))

/-- Of the runs that take in the next place none is longer than the grown one. -/
theorem Known.ends_le (h : Known p xs s) {i k : ℕ} (hik : IsRun p (xs ++ [x]) i k)
    (hend : i + k = xs.length + 1) : k ≤ s.cur.len + 1 := by
  rcases isRun_concat.1 hik with hik | ⟨rfl, -⟩ | ⟨m, rfl, hm, -, hik⟩
  · have := hik.1
    omega
  · exact Nat.zero_le _
  · have := h.cur_longest i m hik hm
    omega

/-- No run is longer than the best so far, or it is one of those. -/
theorem Known.longest_le (h : Known p xs s) {i k : ℕ} (hik : IsRun p (xs ++ [x]) i k) :
    k ≤ s.best.len ∨ p x = true ∧ k ≤ s.cur.len + 1 := by
  rcases isRun_concat.1 hik with hik | ⟨rfl, -⟩ | ⟨m, rfl, hm, hpx, hik⟩
  · exact .inl (h.best_longest i k hik)
  · exact .inl (Nat.zero_le _)
  · have := h.cur_longest i m hik hm
    exact .inr ⟨hpx, by omega⟩

/-- The first of the best runs stays the first: one that takes in the next place starts later. -/
theorem Known.first_le (h : Known p xs s) {i : ℕ} (hpos : 0 < s.best.len)
    (hik : IsRun p (xs ++ [x]) i s.best.len) : s.best.start ≤ i := by
  rcases isRun_concat.1 hik with hik | ⟨hzero, -⟩ | ⟨m, hm, hend, -, hik⟩
  · exact h.best_first i hpos hik
  · omega
  · have := (h.best_run hpos).1
    omega

/-- The run grows past the best one. -/
theorem Known.longer (h : Known p xs s) (hx : p x = true) (ha : a + s.cur.len = xs.length)
    (hlonger : s.best.len < s.cur.len + 1) :
    Known p (xs ++ [x]) ⟨⟨a, s.cur.len + 1⟩, ⟨a, s.cur.len + 1⟩⟩ := by
  have hlen : (xs ++ [x]).length = xs.length + 1 := by simp
  have hgrown := h.grown hx ha
  constructor
  · simp only [hlen]
    omega
  · intro _
    simp only [hlen]
    omega
  · simp only [hlen]
    rwa [show xs.length + 1 - (s.cur.len + 1) = a by omega]
  · intro i k hik hend
    exact h.ends_le hik (by rw [hend, hlen])
  · intro _
    exact hgrown
  · intro i k hik
    have := h.longest_le hik
    simp only
    omega
  -- A run in the longer list is one of before, or ends at the new element.
  · intro i _ hik
    rcases isRun_concat.1 hik with hik | ⟨hzero, -⟩ | ⟨m, hm, hend, -, -⟩
    · have := h.best_longest i _ hik
      simp only at this
      omega
    · cases hzero
    · simp only at hm ⊢
      omega

/-- It grows, and the best one stays. -/
theorem Known.shorter (h : Known p xs s) (hx : p x = true) (ha : a + s.cur.len = xs.length)
    (hshorter : ¬s.best.len < s.cur.len + 1) :
    Known p (xs ++ [x]) ⟨s.best, ⟨a, s.cur.len + 1⟩⟩ := by
  have hlen : (xs ++ [x]).length = xs.length + 1 := by simp
  have hgrown := h.grown hx ha
  -- The best run stays, and what ends at the new element is no longer.
  constructor
  · simp only [hlen]
    omega
  · intro _
    simp only [hlen]
    omega
  · simp only [hlen]
    rwa [show xs.length + 1 - (s.cur.len + 1) = a by omega]
  · intro i k hik hend
    exact h.ends_le hik (by rw [hend, hlen])
  · intro hpos
    exact isRun_concat.2 (.inl (h.best_run hpos))
  · intro i k hik
    have := h.longest_le hik
    simp only
    omega
  · intro i hpos hik
    exact h.first_le hpos hik

/-- The run breaks off. -/
theorem Known.broken (h : Known p xs s) (hx : ¬p x = true) :
    Known p (xs ++ [x]) ⟨s.best, ⟨s.cur.start, 0⟩⟩ := by
  constructor
  · exact Nat.zero_le _
  · intro hpos
    exact absurd hpos (Nat.lt_irrefl 0)
  · exact isRun_zero (by simp)
  · intro i k hik hend
    rcases isRun_concat.1 hik with hik | ⟨rfl, -⟩ | ⟨m, -, -, hpx, -⟩
    · have := hik.1
      rw [List.length_append, List.length_singleton] at hend
      omega
    · exact Nat.zero_le _
    · exact absurd hpx hx
  · intro hpos
    exact isRun_concat.2 (.inl (h.best_run hpos))
  · intro i k hik
    exact (h.longest_le hik).resolve_right fun hlast => hx hlast.1
  · intro i hpos hik
    exact h.first_le hpos hik

/-- One more element keeps what is known about the runs so far. -/
theorem known_step (h : Known p xs s) (x : α) :
    Known p (xs ++ [x]) (step p s (x, xs.length)) := by
  unfold step
  by_cases hx : p x = true
  · rw [if_pos hx]
    by_cases hlonger : s.best.len < s.cur.len + 1
    · simp only [gt_iff_lt, if_pos hlonger]
      exact h.longer hx h.start hlonger
    · simp only [gt_iff_lt, if_neg hlonger]
      exact h.shorter hx h.start hlonger
  · rw [if_neg hx]
    exact h.broken hx

end Step

/-- **The pass finds the first longest run.** -/
theorem known_scan (none_ : ℕ) (xs : List α) : Known p xs (scan p none_ xs) := by
  induction xs using List.reverseRecOn with
  | nil => exact known_nil none_
  | append_singleton xs x ih =>
    unfold scan at ih ⊢
    rw [List.zipIdx_append, List.foldl_append]
    simpa using known_step ih x

end LongestRun
