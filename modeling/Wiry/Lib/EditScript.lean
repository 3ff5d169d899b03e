/-
Alignments of two lists, and the cheapest of them.

An alignment puts the elements of both lists in positions, one of each, or one
against nothing; what it costs is the number of positions that differ, and
`extra` more where the last position has an element of the first list against
nothing. `least` is the table of edit distances with that border, read from the
lists' ends, and the distance itself is what it is with nothing extra.
-/
import Mathlib.Data.List.Basic
import Mathlib.Tactic.Common

set_option autoImplicit false

namespace EditScript

variable {α : Type}

/-- A position of an alignment: an element of each list, or one against nothing. -/
abbrev Position (α : Type) := Option α × Option α

/-- The positions spell both lists, and none is empty. -/
inductive Aligned : List α → List α → List (Position α) → Prop where
  | nil : Aligned [] [] []
  | both {u v : List α} {ps : List (Position α)} (a b : α) :
      Aligned u v ps → Aligned (a :: u) (b :: v) ((some a, some b) :: ps)
  | drop {u v : List α} {ps : List (Position α)} (a : α) :
      Aligned u v ps → Aligned (a :: u) v ((some a, none) :: ps)
  | add {u v : List α} {ps : List (Position α)} (b : α) :
      Aligned u v ps → Aligned u (b :: v) ((none, some b) :: ps)

theorem Aligned.append {u v u' v' : List α} {ps ps' : List (Position α)} (h : Aligned u v ps)
    (h' : Aligned u' v' ps') : Aligned (u ++ u') (v ++ v') (ps ++ ps') := by
  induction h with
  | nil => exact h'
  | both a b _ ih => exact .both a b ih
  | drop a _ ih => exact .drop a ih
  | add b _ ih => exact .add b ih

/-- An alignment read from its end. -/
theorem Aligned.reverse {u v : List α} {ps : List (Position α)} (h : Aligned u v ps) :
    Aligned u.reverse v.reverse ps.reverse := by
  induction h with
  | nil => exact .nil
  | both a b _ ih =>
    rw [List.reverse_cons, List.reverse_cons, List.reverse_cons]
    exact ih.append (.both a b .nil)
  | drop a _ ih =>
    have hlast := ih.append (.drop a .nil)
    rw [List.append_nil] at hlast
    rw [List.reverse_cons, List.reverse_cons]
    exact hlast
  | add b _ ih =>
    have hlast := ih.append (.add b .nil)
    rw [List.append_nil] at hlast
    rw [List.reverse_cons, List.reverse_cons]
    exact hlast

theorem aligned_nil_iff {u v : List α} : Aligned u v [] ↔ u = [] ∧ v = [] := by
  constructor
  · rintro ⟨⟩
    exact ⟨rfl, rfl⟩
  · rintro ⟨rfl, rfl⟩
    exact .nil

/-- No position is empty. -/
theorem Aligned.not_empty {u v : List α} {ps : List (Position α)} (h : Aligned u v ps)
    {q : Position α} (hq : q ∈ ps) : ¬(q.1 = none ∧ q.2 = none) := by
  induction h with
  | nil => exact absurd hq List.not_mem_nil
  | both a b _ ih =>
    rcases List.mem_cons.1 hq with rfl | hq
    · simp
    · exact ih hq
  | drop a _ ih =>
    rcases List.mem_cons.1 hq with rfl | hq
    · simp
    · exact ih hq
  | add b _ ih =>
    rcases List.mem_cons.1 hq with rfl | hq
    · simp
    · exact ih hq

section Costs

variable [DecidableEq α]

/-- The positions that differ. -/
def differing (ps : List (Position α)) : ℕ := ps.countP fun p => p.1 ≠ p.2

/-- The last position has an element of the first list against nothing. -/
def ends_in_drop : List (Position α) → Bool
  | [] => false
  | [p] => p.2.isNone
  | _ :: ps => ends_in_drop ps

/-- The positions that differ, and `extra` for an end against nothing. -/
def cost (extra : ℕ) (ps : List (Position α)) : ℕ :=
  differing ps + if ends_in_drop ps then extra else 0

theorem differing_cons (p : Position α) (ps : List (Position α)) :
    differing (p :: ps) = differing ps + if p.1 = p.2 then 0 else 1 := by
  unfold differing
  rw [List.countP_cons]
  by_cases h : p.1 = p.2
  · simp [h]
  · simp [h]

@[simp] theorem differing_reverse (ps : List (Position α)) :
    differing ps.reverse = differing ps := List.countP_reverse

theorem cost_zero (ps : List (Position α)) : cost 0 ps = differing ps := by
  unfold cost
  split
  · rfl
  · rfl

/-- A step that is not the last adds its difference alone. -/
theorem cost_cons (extra : ℕ) (p : Position α) {ps : List (Position α)} (h : ps ≠ []) :
    cost extra (p :: ps) = cost extra ps + if p.1 = p.2 then 0 else 1 := by
  obtain ⟨q, rest, rfl⟩ := List.exists_cons_of_ne_nil h
  have hend : ends_in_drop (p :: q :: rest) = ends_in_drop (q :: rest) := rfl
  unfold cost
  rw [differing_cons, hend]
  omega

theorem cost_singleton (extra : ℕ) (p : Position α) :
    cost extra [p] = (if p.1 = p.2 then 0 else 1) + if p.2.isNone then extra else 0 := by
  unfold cost
  rw [differing_cons]
  show differing [] + _ + (if p.2.isNone = true then extra else 0) = _
  rw [show differing ([] : List (Position α)) = 0 from rfl, Nat.zero_add]

/-! ## The table -/

/-- The border of a table: elements of the first list against nothing, and something extra. -/
def border (extra : ℕ) (u : List α) : ℕ := if u = [] then 0 else u.length + extra

/-- The least cost of an alignment, by its first position. -/
def least (extra : ℕ) : List α → List α → ℕ
  | u, [] => border extra u
  | [], b :: v => v.length + 1
  | a :: u, b :: v =>
    min (least extra u v + if a = b then 0 else 1)
      (min (least extra u (b :: v) + 1) (least extra (a :: u) v + 1))
termination_by u v => u.length + v.length

theorem least_nil_right (extra : ℕ) (u : List α) : least extra u [] = border extra u := by
  rw [least]

theorem least_nil_left (extra : ℕ) (v : List α) : least extra ([] : List α) v = v.length := by
  cases v with
  | nil => rw [least_nil_right]; rfl
  | cons b v => rw [least]; rfl

/-- The recurrence of the table. -/
theorem least_cons (extra : ℕ) (a b : α) (u v : List α) :
    least extra (a :: u) (b :: v) =
      min (least extra u v + if a = b then 0 else 1)
        (min (least extra u (b :: v) + 1) (least extra (a :: u) v + 1)) := by
  rw [least]

/-- What one element against nothing adds at most to the least cost. -/
theorem least_drop_le (extra : ℕ) (a : α) (u v : List α) (h : u ≠ [] ∨ v ≠ []) :
    least extra (a :: u) v ≤ least extra u v + 1 := by
  cases v with
  | nil =>
    have hu : u ≠ [] := h.resolve_right (fun hv => hv rfl)
    rw [least_nil_right, least_nil_right]
    unfold border
    rw [if_neg (List.cons_ne_nil a u), if_neg hu, List.length_cons]
    omega
  | cons b v =>
    rw [least_cons]
    omega

theorem least_add_le (extra : ℕ) (b : α) (u v : List α) :
    least extra u (b :: v) ≤ least extra u v + 1 := by
  cases u with
  | nil =>
    simp only [least_nil_left, List.length_cons, Nat.le_refl]
  | cons a u =>
    rw [least_cons]
    omega

theorem least_both_le (extra : ℕ) (a b : α) (u v : List α) :
    least extra (a :: u) (b :: v) ≤ least extra u v + if a = b then 0 else 1 := by
  rw [least_cons]
  omega

/-- **No alignment costs less than the table says.** -/
theorem least_le_cost (extra : ℕ) {u v : List α} {ps : List (Position α)} (h : Aligned u v ps) :
    least extra u v ≤ cost extra ps := by
  -- By the alignment: each position costs at least what the least cost grows by.
  induction h with
  | nil =>
    rw [least_nil_left]
    exact Nat.zero_le _
  | @both u v ps a b hrest ih =>
    have hle := least_both_le extra a b u v
    have hdiffer : (if (some a : Option α) = some b then 0 else 1) = if a = b then 0 else 1 := by
      simp only [Option.some.injEq]
    -- The last position pays the border as well.
    by_cases hps : ps = []
    · subst hps
      obtain ⟨rfl, rfl⟩ := aligned_nil_iff.1 hrest
      rw [least_nil_left] at hle
      rw [cost_singleton, hdiffer]
      simp only [List.length_nil, Nat.zero_add] at hle
      omega
    · rw [cost_cons extra _ hps, hdiffer]
      omega
  | @drop u v ps a hrest ih =>
    by_cases hps : ps = []
    · subst hps
      obtain ⟨rfl, rfl⟩ := aligned_nil_iff.1 hrest
      rw [least_nil_right, cost_singleton]
      simp [border]
    · have hsome : u ≠ [] ∨ v ≠ [] := by
        by_contra hnone
        rw [not_or, not_not, not_not] at hnone
        obtain ⟨rfl, rfl⟩ := hnone
        cases hrest
        exact hps rfl
      have hle := least_drop_le extra a u v hsome
      rw [cost_cons extra _ hps]
      simp only [reduceCtorEq, if_false]
      omega
  | @add u v ps b hrest ih =>
    have hle := least_add_le extra b u v
    by_cases hps : ps = []
    · subst hps
      obtain ⟨rfl, rfl⟩ := aligned_nil_iff.1 hrest
      rw [least_nil_left, cost_singleton]
      simp
    · rw [cost_cons extra _ hps]
      simp only [reduceCtorEq, if_false]
      omega

/-- The first list against nothing throughout. -/
theorem exists_border (extra : ℕ) (u : List α) :
    ∃ ps, Aligned u ([] : List α) ps ∧ cost extra ps = border extra u := by
  induction u with
  | nil => exact ⟨[], .nil, rfl⟩
  | cons a u ih =>
    obtain ⟨ps, hps, hcost⟩ := ih
    refine ⟨(some a, none) :: ps, .drop a hps, ?_⟩
    by_cases hnil : ps = []
    · subst hnil
      obtain ⟨rfl, -⟩ := aligned_nil_iff.1 hps
      rw [cost_singleton]
      simp [border]
    · have hu : u ≠ [] := by
        rintro rfl
        cases hps
        exact hnil rfl
      rw [cost_cons extra _ hnil, hcost]
      unfold border
      rw [if_neg hu, if_neg (List.cons_ne_nil a u), List.length_cons]
      simp only [reduceCtorEq, if_false]
      omega

/-- A first position in front of a cheapest rest. -/
theorem cost_in_front {extra : ℕ} (p : Position α) {u v : List α} {ps : List (Position α)}
    (hps : Aligned u v ps) (hcost : cost extra ps = least extra u v)
    (hp : p.2.isNone = true → u ≠ [] ∨ v ≠ []) :
    cost extra (p :: ps) = least extra u v + if p.1 = p.2 then 0 else 1 := by
  by_cases hnil : ps = []
  · subst hnil
    obtain ⟨rfl, rfl⟩ := aligned_nil_iff.1 hps
    have hsome : ¬p.2.isNone = true := by
      intro hnone
      rcases hp hnone with h | h
      · exact h rfl
      · exact h rfl
    rw [cost_singleton, if_neg hsome, least_nil_left]
    simp
  · rw [cost_cons extra _ hnil, hcost]

/-- **Some alignment costs what the table says.** -/
theorem exists_least (extra : ℕ) (u v : List α) :
    ∃ ps, Aligned u v ps ∧ cost extra ps = least extra u v := by
  -- By the recursion of the least cost; the way that attains the minimum is taken.
  induction u, v using least.induct with
  | case1 u =>
    rw [least_nil_right]
    exact exists_border extra u
  | case2 b v =>
    rw [least_nil_left]
    have hadds : ∀ v : List α, ∃ ps, Aligned [] v ps ∧ cost extra ps = v.length := by
      intro v
      induction v with
      | nil => exact ⟨[], .nil, rfl⟩
      | cons b v ih =>
        obtain ⟨ps, hps, hcost⟩ := ih
        refine ⟨(none, some b) :: ps, .add b hps, ?_⟩
        rw [cost_in_front (none, some b) hps (by rw [hcost, least_nil_left])
          fun h => absurd h Bool.false_ne_true, least_nil_left]
        simp
    exact hadds (b :: v)
  | case3 a u b v hboth hdrop hadd =>
    rw [least_cons]
    rcases Nat.le_total (least extra u v + if a = b then 0 else 1)
      (min (least extra u (b :: v) + 1) (least extra (a :: u) v + 1)) with hle | hle
    · obtain ⟨ps, hps, hcost⟩ := hboth
      refine ⟨_, .both a b hps, ?_⟩
      rw [cost_in_front (some a, some b) hps hcost fun h => absurd h Bool.false_ne_true,
        Nat.min_eq_left hle]
      simp
    · rw [Nat.min_eq_right hle]
      rcases Nat.le_total (least extra u (b :: v) + 1) (least extra (a :: u) v + 1) with hle' | hle'
      · obtain ⟨ps, hps, hcost⟩ := hdrop
        refine ⟨_, .drop a hps, ?_⟩
        rw [cost_in_front (some a, none) hps hcost fun _ => Or.inr (List.cons_ne_nil b v),
          Nat.min_eq_left hle']
        simp
      · obtain ⟨ps, hps, hcost⟩ := hadd
        refine ⟨_, .add b hps, ?_⟩
        rw [cost_in_front (none, some b) hps hcost fun h => absurd h Bool.false_ne_true,
          Nat.min_eq_right hle']
        simp

/-! ## The distance -/

/-- The Levenshtein distance. -/
def distance (u v : List α) : ℕ := least 0 u v

theorem distance_le_differing {u v : List α} {ps : List (Position α)} (h : Aligned u v ps) :
    distance u v ≤ differing ps := by
  have hle := least_le_cost 0 h
  rwa [cost_zero] at hle

theorem exists_distance (u v : List α) : ∃ ps, Aligned u v ps ∧ differing ps = distance u v := by
  obtain ⟨ps, hps, hcost⟩ := exists_least 0 u v
  rw [cost_zero] at hcost
  exact ⟨ps, hps, hcost⟩

theorem distance_reverse_le (u v : List α) : distance u.reverse v.reverse ≤ distance u v := by
  obtain ⟨ps, hps, hcost⟩ := exists_distance u v
  have hle := distance_le_differing hps.reverse
  rwa [differing_reverse, hcost] at hle

/-- The distance is the same from either end. -/
theorem distance_reverse (u v : List α) : distance u.reverse v.reverse = distance u v := by
  have hback := distance_reverse_le u.reverse v.reverse
  rw [List.reverse_reverse, List.reverse_reverse] at hback
  exact Nat.le_antisymm (distance_reverse_le u v) hback

end Costs

end EditScript
