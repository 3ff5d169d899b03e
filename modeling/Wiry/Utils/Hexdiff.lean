/-
The alignment of `hexdiff`, `_wagner_fischer` of `python/wiry/utils.py`.

Its table has a border of its own: octets of `xb` against nothing cost one more
where the alignment begins with them. Positions are counted from 1 here, so that
the source's `-1` is 0.

`steps_loop_eq` takes the loops of the source as the table they fill, and
`cell_cost` says what one cell is. The way back through the table is then an
alignment of least cost, against `Lib.EditScript`, where the border is the
parameter `extra`.
-/
import Wiry.Lib.EditScript
import Wiry.Packet.Octets

set_option autoImplicit false

namespace Wiry.Utils

open EditScript
open Packet (Bytes slice)

/-- A cell: its cost and the step it is reached by, diagonal (0) before up (1) before left (2). -/
def cell (x y : UInt8) (corner above left : ℕ) : ℕ × ℕ :=
  let diag := corner + if x ≠ y then 1 else 0
  let up := above + 1
  let side := left + 1
  if diag ≤ up ∧ diag ≤ side then (diag, 0)
  else if up ≤ side then (up, 1)
  else (side, 2)

/-- The inner loop: the costs `cur` and the steps `row`. -/
def row_loop (x : UInt8) : Bytes → List ℕ → ℕ → ℕ → List (ℕ × ℕ)
  | y :: ys, above :: prev, corner, left =>
    let c := cell x y corner above left
    c :: row_loop x ys prev above c.1
  | _, _, _, _ => []

/-- The outer loop: the table of steps. -/
def steps_loop (yb : Bytes) : Bytes → ℕ → List ℕ → List (List ℕ)
  | [], _, _ => []
  | x :: xs, i, prev =>
    let row := row_loop x yb prev (if i = 0 then 0 else i + 1) (i + 2)
    row.map Prod.snd :: steps_loop yb xs (i + 1) (row.map Prod.fst)

/-- `steps`. -/
def steps (xb yb : Bytes) : List (List ℕ) :=
  steps_loop yb xb 0 ((List.range yb.length).map fun j => j + 1)

/-- Where a cell was reached from. -/
def move (table : List (List ℕ)) (i j : ℕ) : ℕ × ℕ :=
  if i = 0 then (0, j - 1)
  else if j = 0 then (i - 1, 0)
  else
    let step := (table.getD (i - 1) []).getD (j - 1) 0
    if step = 0 then (i - 1, j - 1)
    else if step = 1 then (i - 1, j)
    else (i, j - 1)

/-- Every move goes towards the corner. -/
theorem move_lt (table : List (List ℕ)) {i j : ℕ} (h : ¬(i = 0 ∧ j = 0)) :
    (move table i j).1 + (move table i j).2 < i + j := by
  unfold move
  split
  · omega
  · split
    · omega
    · dsimp only
      split
      · omega
      · split
        · omega
        · omega

/-- The backtracking loop, which always ends: every move leaves less of both strings. -/
def backtrack (table : List (List ℕ)) (xb yb : Bytes) (i j : ℕ) : List (Bytes × Bytes) :=
  if _h : i = 0 ∧ j = 0 then []
  else
    (slice xb (move table i j).1 i, slice yb (move table i j).2 j) ::
      backtrack table xb yb (move table i j).1 (move table i j).2
termination_by i + j
decreasing_by exact move_lt table ‹_›

def _wagner_fischer (xb yb : Bytes) : List Bytes × List Bytes :=
  let t := backtrack (steps xb yb) xb yb xb.length yb.length
  (t.map Prod.fst, t.map Prod.snd)

/-! ## The table -/

/-- The cost of a cell is the least of its three ways. -/
theorem cell_cost (x y : UInt8) (corner above left : ℕ) :
    (cell x y corner above left).1 =
      min (corner + if x = y then 0 else 1) (min (above + 1) (left + 1)) := by
  have hsame : (if x ≠ y then 1 else 0) = if x = y then 0 else 1 := by
    by_cases h : x = y
    · simp [h]
    · simp [h]
  unfold cell
  dsimp only
  rw [hsame]
  generalize (if x = y then 0 else 1) = d
  split
  · dsimp only
    omega
  · split
    · dsimp only
      omega
    · dsimp only
      omega

/-- A row, given the costs above it and its own. -/
theorem row_loop_eq (x : UInt8) (ys : Bytes) (F G : ℕ → ℕ)
    (hG : ∀ j < ys.length, G (j + 1) = (cell x (ys.getD j 0) (F j) (F (j + 1)) (G j)).1) :
    row_loop x ys ((List.range ys.length).map fun j => F (j + 1)) (F 0) (G 0) =
      (List.range ys.length).map fun j => cell x (ys.getD j 0) (F j) (F (j + 1)) (G j) := by
  induction ys generalizing F G with
  | nil => rfl
  | cons y ys ih =>
    have hfirst := hG 0 (Nat.succ_pos _)
    rw [List.getD_cons_zero] at hfirst
    have hrest := ih (fun j => F (j + 1)) (fun j => G (j + 1)) (by
      intro j hj
      have hj' := hG (j + 1) (Nat.succ_lt_succ hj)
      rwa [List.getD_cons_succ] at hj')
    rw [List.length_cons, List.range_succ_eq_map, List.map_cons, List.map_cons, List.map_map,
      List.map_map, row_loop]
    dsimp only [Function.comp_def]
    rw [List.getD_cons_zero, ← hfirst]
    simp only [List.getD_cons_succ]
    rw [← hrest]

section Table

variable (xb yb : Bytes)

/-- The cost of aligning the first `i` octets of one with the first `j` of the other. -/
def cost_at (i j : ℕ) : ℕ := least 1 (xb.take i).reverse (yb.take j).reverse

/-- The step the table holds for it. -/
def step_at (i j : ℕ) : ℕ :=
  (cell (xb.getD i 0) (yb.getD j 0) (cost_at xb yb i j) (cost_at xb yb i (j + 1))
    (cost_at xb yb (i + 1) j)).2

variable {xb yb}

theorem take_succ_reverse {b : Bytes} {i : ℕ} (h : i < b.length) :
    (b.take (i + 1)).reverse = b.getD i 0 :: (b.take i).reverse := by
  rw [List.take_add_one, List.reverse_append, List.getElem?_eq_getElem h, List.getD_eq_getElem?_getD,
    List.getElem?_eq_getElem h]
  rfl

theorem cost_at_cell {i j : ℕ} (hi : i < xb.length) (hj : j < yb.length) :
    cost_at xb yb (i + 1) (j + 1) =
      (cell (xb.getD i 0) (yb.getD j 0) (cost_at xb yb i j) (cost_at xb yb i (j + 1))
        (cost_at xb yb (i + 1) j)).1 := by
  rw [cell_cost]
  unfold cost_at
  rw [take_succ_reverse hi, take_succ_reverse hj, least_cons]

theorem cost_at_zero_left {j : ℕ} (hj : j ≤ yb.length) : cost_at xb yb 0 j = j := by
  unfold cost_at
  rw [List.take_zero, List.reverse_nil, least_nil_left, List.length_reverse, List.length_take,
    Nat.min_eq_left hj]

theorem cost_at_zero_right {i : ℕ} (hi : i ≤ xb.length) :
    cost_at xb yb i 0 = if i = 0 then 0 else i + 1 := by
  have hlen : (xb.take i).reverse.length = i := by
    rw [List.length_reverse, List.length_take, Nat.min_eq_left hi]
  unfold cost_at
  rw [List.take_zero, List.reverse_nil, least_nil_right]
  generalize (xb.take i).reverse = u at hlen
  subst hlen
  cases u with
  | nil => rfl
  | cons a u => rfl

/-- **The table the loops fill in**: every cell has the step its least cost is reached by. -/
theorem steps_loop_eq {front rest : Bytes} (hxb : xb = front ++ rest) :
    steps_loop yb rest front.length
        ((List.range yb.length).map fun j => cost_at xb yb front.length (j + 1)) =
      (List.range rest.length).map fun k =>
        (List.range yb.length).map fun j => step_at xb yb (front.length + k) j := by
  -- By the rows left; the row before the current one is the table's.
  induction rest generalizing front with
  | nil => rfl
  | cons x rest ih =>
    have hi : front.length < xb.length := by
      rw [hxb, List.length_append, List.length_cons]
      omega
    have hx : xb.getD front.length 0 = x := by
      rw [hxb, List.getD_eq_getElem?_getD, List.getElem?_append_right (Nat.le_refl _), Nat.sub_self]
      rfl
    -- The left border, as the source starts each row.
    have hborder : (if front.length = 0 then 0 else front.length + 1) =
        cost_at xb yb front.length 0 := (cost_at_zero_right (by omega)).symm
    have hleft : front.length + 2 = cost_at xb yb (front.length + 1) 0 := by
      rw [cost_at_zero_right (by omega), if_neg (Nat.succ_ne_zero _)]
    have hrow := row_loop_eq x yb (cost_at xb yb front.length) (cost_at xb yb (front.length + 1))
      (by
        intro j hj
        rw [cost_at_cell hi hj, hx])
    -- The next row is computed from this one, which is the induction's assumption again.
    have hlater := @ih (front ++ [x]) (by rw [hxb, List.append_assoc]; rfl)
    rw [List.length_append, List.length_singleton] at hlater
    rw [steps_loop, hborder, hleft, hrow, List.map_map, List.map_map, List.length_cons, List.range_succ_eq_map,
      List.map_cons, List.map_map]
    apply congrArg₂ List.cons
    · apply List.map_congr_left
      intro j _
      simp only [Function.comp_apply, step_at, Nat.add_zero, hx]
    · have hcosts : ((List.range yb.length).map (Prod.fst ∘ fun j =>
          cell x (yb.getD j 0) (cost_at xb yb front.length j) (cost_at xb yb front.length (j + 1))
            (cost_at xb yb (front.length + 1) j))) =
          (List.range yb.length).map fun j => cost_at xb yb (front.length + 1) (j + 1) := by
        apply List.map_congr_left
        intro j hj
        rw [Function.comp_apply, cost_at_cell hi (List.mem_range.1 hj), hx]
      rw [hcosts, hlater]
      apply List.map_congr_left
      intro k _
      simp only [Function.comp_apply]
      apply List.map_congr_left
      intro j _
      congr 1
      omega

/-- The table as a function of its positions. -/
theorem steps_eq : steps xb yb = (List.range xb.length).map fun i =>
    (List.range yb.length).map fun j => step_at xb yb i j := by
  have h := @steps_loop_eq xb yb [] xb rfl
  have hfirst : ((List.range yb.length).map fun j => cost_at xb yb 0 (j + 1)) =
      (List.range yb.length).map fun j => j + 1 := by
    apply List.map_congr_left
    intro j hj
    have := List.mem_range.1 hj
    exact cost_at_zero_left (by omega)
  rw [List.length_nil, hfirst] at h
  simp only [Nat.zero_add] at h
  exact h

theorem steps_getD {i j : ℕ} (hi : i < xb.length) (hj : j < yb.length) :
    ((steps xb yb).getD i []).getD j 0 = step_at xb yb i j := by
  have hrow : (steps xb yb).getD i [] = (List.range yb.length).map fun j => step_at xb yb i j := by
    rw [steps_eq, List.getD_eq_getElem?_getD, List.getElem?_map, List.getElem?_range hi]
    rfl
  rw [hrow, List.getD_eq_getElem?_getD, List.getElem?_map, List.getElem?_range hj]
  rfl

/-! ## The way back -/

/-- A position as the octet strings put there. -/
def spelt (p : Position UInt8) : Bytes × Bytes := (p.1.toList, p.2.toList)

theorem slice_one {b : Bytes} {i : ℕ} (h : i < b.length) : slice b i (i + 1) = [b.getD i 0] := by
  unfold slice
  rw [List.take_add_one, List.getElem?_eq_getElem h, List.getD_eq_getElem?_getD,
    List.getElem?_eq_getElem h]
  exact List.drop_left' (List.length_take_of_le (by omega))

theorem slice_none (b : Bytes) (i : ℕ) : slice b i i = [] := by
  unfold slice
  apply List.drop_eq_nil_of_le
  rw [List.length_take]
  omega

/-- What a cell's step says its cost is. -/
theorem cell_step (x y : UInt8) (corner above left : ℕ) :
    (cell x y corner above left).2 = 0 ∧
        (cell x y corner above left).1 = corner + (if x = y then 0 else 1) ∨
      (cell x y corner above left).2 = 1 ∧ (cell x y corner above left).1 = above + 1 ∨
      (cell x y corner above left).2 = 2 ∧ (cell x y corner above left).1 = left + 1 := by
  have hsame : (if x ≠ y then 1 else 0) = if x = y then 0 else 1 := by
    by_cases h : x = y
    · simp [h]
    · simp [h]
  unfold cell
  dsimp only
  rw [hsame]
  generalize (if x = y then 0 else 1) = d
  split
  · exact Or.inl ⟨rfl, rfl⟩
  · split
    · exact Or.inr (Or.inl ⟨rfl, rfl⟩)
    · exact Or.inr (Or.inr ⟨rfl, rfl⟩)

/-- **The way back is an alignment of what is left, at the cost of its cell.** -/
theorem backtrack_spec {i j : ℕ} (hi : i ≤ xb.length) (hj : j ≤ yb.length) :
    ∃ ps, Aligned (xb.take i).reverse (yb.take j).reverse ps ∧ cost 1 ps = cost_at xb yb i j ∧
      backtrack (steps xb yb) xb yb i j = ps.map spelt := by
  induction hn : i + j using Nat.strong_induction_on generalizing i j with
  | _ n ih =>
    subst hn
    rw [backtrack]
    by_cases hend : i = 0 ∧ j = 0
    · obtain ⟨rfl, rfl⟩ := hend
      refine ⟨[], .nil, ?_, dif_pos ⟨rfl, rfl⟩⟩
      rw [cost_at_zero_left hj]
      rfl
    · rw [dif_neg hend]
      match i, j with
      | 0, 0 => exact absurd ⟨rfl, rfl⟩ hend
      | 0, j + 1 =>
        -- along the border of the first row: only octets of `yb` are left
        obtain ⟨ps, hps, hcost, htrace⟩ := ih (0 + j) (by omega) hi (by omega) rfl
        have hmove : move (steps xb yb) 0 (j + 1) = (0, j) := rfl
        refine ⟨(none, some (yb.getD j 0)) :: ps, ?_, ?_, ?_⟩
        · rw [take_succ_reverse (by omega)]
          exact .add _ hps
        · rw [cost_in_front (none, some (yb.getD j 0)) hps hcost fun h => absurd h Bool.false_ne_true]
          rw [show least 1 (xb.take 0).reverse (yb.take j).reverse = cost_at xb yb 0 j from rfl,
            cost_at_zero_left (by omega), cost_at_zero_left hj]
          rfl
        · rw [hmove, htrace, slice_none, slice_one (by omega)]
          rfl
      | i + 1, 0 =>
        -- along the border of the first column, where the cost has one more
        obtain ⟨ps, hps, hcost, htrace⟩ := ih (i + 0) (by omega) (by omega) hj rfl
        have hmove : move (steps xb yb) (i + 1) 0 = (i, 0) := rfl
        refine ⟨(some (xb.getD i 0), none) :: ps, ?_, ?_, ?_⟩
        · rw [take_succ_reverse (by omega)]
          exact .drop _ hps
        · rw [cost_at_zero_right hi, if_neg (Nat.succ_ne_zero i)]
          by_cases hnil : ps = []
          · subst hnil
            obtain ⟨hempty, -⟩ := aligned_nil_iff.1 hps
            have hzero : i = 0 := by
              have hlen := congrArg List.length hempty
              rw [List.length_reverse, List.length_take, List.length_nil] at hlen
              omega
            rw [hzero, cost_singleton]
            rfl
          · rw [cost_cons 1 _ hnil, hcost, cost_at_zero_right (by omega)]
            have hpos : i ≠ 0 := by
              rintro rfl
              cases hps
              exact hnil rfl
            rw [if_neg hpos]
            rfl
        · rw [hmove, htrace, slice_none, slice_one (by omega)]
          rfl
      | i + 1, j + 1 =>
        have hcell := @cost_at_cell xb yb i j (by omega) (by omega)
        have htable := @steps_getD xb yb i j (by omega) (by omega)
        have hmove : move (steps xb yb) (i + 1) (j + 1) =
            if step_at xb yb i j = 0 then (i, j)
            else if step_at xb yb i j = 1 then (i, j + 1) else (i + 1, j) := by
          rw [← htable]
          rfl
        have hrow : ∀ b : Bytes, ∀ k, k + 1 ≤ b.length → (b.take (k + 1)).reverse ≠ [] := by
          intro b k hk hempty
          rw [take_succ_reverse (by omega)] at hempty
          exact List.cons_ne_nil _ _ hempty
        rcases cell_step (xb.getD i 0) (yb.getD j 0) (cost_at xb yb i j) (cost_at xb yb i (j + 1))
          (cost_at xb yb (i + 1) j) with ⟨hstep, hleast⟩ | ⟨hstep, hleast⟩ | ⟨hstep, hleast⟩
        · obtain ⟨ps, hps, hcost, htrace⟩ := ih (i + j) (by omega) (by omega) (by omega) rfl
          rw [show step_at xb yb i j = 0 from hstep, if_pos rfl] at hmove
          refine ⟨(some (xb.getD i 0), some (yb.getD j 0)) :: ps, ?_, ?_, ?_⟩
          · rw [take_succ_reverse (by omega), take_succ_reverse (by omega)]
            exact .both _ _ hps
          · rw [cost_in_front (some (xb.getD i 0), some (yb.getD j 0)) hps hcost
              fun h => absurd h Bool.false_ne_true, hcell, hleast]
            simp only [Option.some.injEq, cost_at]
          · rw [hmove, htrace, slice_one (by omega), slice_one (by omega)]
            rfl
        · obtain ⟨ps, hps, hcost, htrace⟩ := ih (i + (j + 1)) (by omega) (by omega) hj rfl
          rw [show step_at xb yb i j = 1 from hstep, if_neg Nat.one_ne_zero, if_pos rfl] at hmove
          refine ⟨(some (xb.getD i 0), none) :: ps, ?_, ?_, ?_⟩
          · rw [take_succ_reverse (i := i) (by omega)]
            exact .drop _ hps
          · rw [cost_in_front _ hps hcost fun _ => Or.inr (hrow yb j hj), hcell, hleast]
            rfl
          · rw [hmove, htrace, slice_one (by omega), slice_none]
            rfl
        · obtain ⟨ps, hps, hcost, htrace⟩ := ih (i + 1 + j) (by omega) hi (by omega) rfl
          rw [show step_at xb yb i j = 2 from hstep, if_neg (by decide), if_neg (by decide)] at hmove
          refine ⟨(none, some (yb.getD j 0)) :: ps, ?_, ?_, ?_⟩
          · rw [take_succ_reverse (i := j) (by omega)]
            exact .add _ hps
          · rw [cost_in_front (none, some (yb.getD j 0)) hps hcost
              fun h => absurd h Bool.false_ne_true, hcell, hleast]
            rfl
          · rw [hmove, htrace, slice_none, slice_one (by omega)]
            rfl

end Table

/-! ## Alignments of octet strings -/

/-- Two lists of strings of at most an octet, never both empty, that spell `xb` and `yb` from the
last to the first. -/
structure Alignment (xb yb : Bytes) (bx cy : List Bytes) : Prop where
  length_eq : bx.length = cy.length
  left : bx.reverse.flatten = xb
  right : cy.reverse.flatten = yb
  short : ∀ p ∈ bx.zip cy, p.1.length ≤ 1 ∧ p.2.length ≤ 1 ∧ ¬(p.1 = [] ∧ p.2 = [])

/-- The positions that differ. -/
def differing_positions (bx cy : List Bytes) : ℕ := (bx.zip cy).countP fun p => p.1 ≠ p.2

/-- The alignment begins with an octet of `xb` against nothing: its last position has none of
`yb`. -/
def begins_with_drop (cy : List Bytes) : Bool := cy.getLast? = some []

theorem zip_spelt (ps : List (Position UInt8)) :
    (ps.map fun p => (spelt p).1).zip (ps.map fun p => (spelt p).2) = ps.map spelt := by
  rw [List.zip_map']

theorem toList_inj {a b : Option UInt8} : a.toList = b.toList ↔ a = b := by
  cases a with
  | none => cases b with
    | none => simp
    | some b => simp
  | some a => cases b with
    | none => simp
    | some b => simp

theorem differing_spelt (ps : List (Position UInt8)) :
    differing_positions (ps.map fun p => (spelt p).1) (ps.map fun p => (spelt p).2) =
      differing ps := by
  unfold differing_positions differing
  rw [zip_spelt, List.countP_map]
  apply List.countP_congr
  intro p _
  simp only [Function.comp_apply, spelt, ne_eq, toList_inj]

/-- Whether the spelled alignment begins with a drop is read off its positions. -/
theorem begins_spelt (ps : List (Position UInt8)) :
    begins_with_drop (ps.map fun p => (spelt p).2) = ends_in_drop ps := by
  induction ps with
  | nil => rfl
  | cons p ps ih =>
    cases ps with
    | nil =>
      obtain ⟨a, b⟩ := p
      cases b with
      | none => rfl
      | some b => rfl
    | cons q ps =>
      rw [ends_in_drop.eq_3 _ _ (List.cons_ne_nil q ps), ← ih]
      rfl

/-- An alignment of elements is one of octet strings. -/
theorem alignment_of_aligned {u v : Bytes} {ps : List (Position UInt8)} (h : Aligned u v ps) :
    Alignment u.reverse v.reverse (ps.map fun p => (spelt p).1) (ps.map fun p => (spelt p).2) := by
  refine ⟨by rw [List.length_map, List.length_map], ?_, ?_, ?_⟩
  · induction h with
    | nil => rfl
    | both a b _ ih => simpa [spelt] using ih
    | drop a _ ih => simpa [spelt] using ih
    | add b _ ih => simpa [spelt] using ih
  · induction h with
    | nil => rfl
    | both a b _ ih => simpa [spelt] using ih
    | drop a _ ih => simpa [spelt] using ih
    | add b _ ih => simpa [spelt] using ih
  · rw [zip_spelt]
    intro p hp
    obtain ⟨q, hq, rfl⟩ := List.mem_map.1 hp
    refine ⟨Option.length_toList_le, Option.length_toList_le, ?_⟩
    rintro ⟨hleft, hright⟩
    exact h.not_empty hq ⟨Option.toList_eq_nil_iff.1 hleft, Option.toList_eq_nil_iff.1 hright⟩

/-- A string of at most an octet, as an element or none. -/
theorem exists_toList {b : Bytes} (h : b.length ≤ 1) : ∃ o : Option UInt8, b = o.toList := by
  match b, h with
  | [], _ => exact ⟨none, rfl⟩
  | [a], _ => exact ⟨some a, rfl⟩

/-- **Every alignment of octet strings is one of elements.** -/
theorem aligned_of_alignment {xb yb : Bytes} {bx cy : List Bytes} (h : Alignment xb yb bx cy) :
    ∃ ps, Aligned xb.reverse yb.reverse ps ∧ bx = ps.map (fun p => (spelt p).1) ∧
      cy = ps.map fun p => (spelt p).2 := by
  -- Position by position: neither side empty, or one of them.
  induction bx generalizing cy xb yb with
  | nil =>
    obtain ⟨hlen, hleft, hright, -⟩ := h
    obtain rfl := List.length_eq_zero_iff.1 hlen.symm
    rw [← hleft, ← hright]
    exact ⟨[], .nil, rfl, rfl⟩
  | cons p bx ih =>
    obtain ⟨hlen, hleft, hright, hshort⟩ := h
    obtain ⟨q, cy, rfl⟩ : ∃ q rest, cy = q :: rest :=
      List.exists_cons_of_length_eq_add_one hlen.symm
    rw [List.zip_cons_cons, List.forall_mem_cons] at hshort
    obtain ⟨⟨hp, hq, hnone⟩, hrest⟩ := hshort
    obtain ⟨ps, hps, hbx, hcy⟩ := ih ⟨Nat.succ.inj hlen, rfl, rfl, hrest⟩
    obtain ⟨a, rfl⟩ := exists_toList hp
    obtain ⟨b, rfl⟩ := exists_toList hq
    refine ⟨(a, b) :: ps, ?_, by rw [List.map_cons, ← hbx]; rfl, by rw [List.map_cons, ← hcy]; rfl⟩
    rw [← hleft, ← hright]
    cases a with
    | none => cases b with
      | none => exact absurd ⟨rfl, rfl⟩ hnone
      | some b => simpa using Aligned.add b hps
    | some a => cases b with
      | none => simpa using Aligned.drop a hps
      | some b => simpa using Aligned.both a b hps

/-- What `_wagner_fischer` returns, as positions. -/
theorem wagner_fischer_positions (xb yb : Bytes) :
    ∃ ps, Aligned xb.reverse yb.reverse ps ∧ cost 1 ps = least 1 xb.reverse yb.reverse ∧
      (_wagner_fischer xb yb).1 = ps.map (fun p => (spelt p).1) ∧
      (_wagner_fischer xb yb).2 = ps.map fun p => (spelt p).2 := by
  obtain ⟨ps, hps, hcost, htrace⟩ := @backtrack_spec xb yb _ _ le_rfl le_rfl
  unfold cost_at at hcost
  rw [List.take_length, List.take_length] at hps hcost
  refine ⟨ps, hps, hcost, ?_, ?_⟩
  · unfold _wagner_fischer
    dsimp only
    rw [htrace, List.map_map]
    rfl
  · unfold _wagner_fischer
    dsimp only
    rw [htrace, List.map_map]
    rfl

/-- **`_wagner_fischer` aligns its strings**, no alignment has fewer differing positions with one
more counted where it begins with an octet of `xb` against nothing, and the positions that differ
are as many as the edit distance or one more. -/
theorem wagner_fischer_aligns (xb yb : Bytes) :
    Alignment xb yb (_wagner_fischer xb yb).1 (_wagner_fischer xb yb).2 ∧
      (∀ bx cy, Alignment xb yb bx cy →
        differing_positions (_wagner_fischer xb yb).1 (_wagner_fischer xb yb).2 +
            (begins_with_drop (_wagner_fischer xb yb).2).toNat ≤
          differing_positions bx cy + (begins_with_drop cy).toNat) ∧
      distance xb yb ≤ differing_positions (_wagner_fischer xb yb).1 (_wagner_fischer xb yb).2 ∧
      differing_positions (_wagner_fischer xb yb).1 (_wagner_fischer xb yb).2 ≤
        distance xb yb + 1 ∧
      ((∃ bx cy, Alignment xb yb bx cy ∧ differing_positions bx cy = distance xb yb ∧
          begins_with_drop cy = false) →
        differing_positions (_wagner_fischer xb yb).1 (_wagner_fischer xb yb).2 =
          distance xb yb) := by
  obtain ⟨ps, hps, hcost, hbx, hcy⟩ := wagner_fischer_positions xb yb
  have hweight : ∀ qs : List (Position UInt8), cost 1 qs =
      differing_positions (qs.map fun p => (spelt p).1) (qs.map fun p => (spelt p).2) +
        (begins_with_drop (qs.map fun p => (spelt p).2)).toNat := by
    intro qs
    unfold cost
    rw [differing_spelt, begins_spelt]
    cases ends_in_drop qs with
    | true => rfl
    | false => rfl
  have hleast : ∀ bx cy, Alignment xb yb bx cy →
      differing_positions (_wagner_fischer xb yb).1 (_wagner_fischer xb yb).2 +
          (begins_with_drop (_wagner_fischer xb yb).2).toNat ≤
        differing_positions bx cy + (begins_with_drop cy).toNat := by
    intro bx cy h
    obtain ⟨qs, hqs, rfl, rfl⟩ := aligned_of_alignment h
    rw [hbx, hcy, ← hweight, ← hweight, hcost]
    exact least_le_cost 1 hqs
  have hlow : distance xb yb ≤
      differing_positions (_wagner_fischer xb yb).1 (_wagner_fischer xb yb).2 := by
    rw [hbx, hcy, differing_spelt, ← distance_reverse]
    exact distance_le_differing hps
  refine ⟨?_, hleast, hlow, ?_, ?_⟩
  · rw [hbx, hcy]
    have h := alignment_of_aligned hps
    rwa [List.reverse_reverse, List.reverse_reverse] at h
  · -- an alignment at the distance costs one more at most
    obtain ⟨qs, hqs, hdistance⟩ := exists_distance xb.reverse yb.reverse
    have h := alignment_of_aligned hqs
    rw [List.reverse_reverse, List.reverse_reverse] at h
    have hle := hleast _ _ h
    rw [differing_spelt qs, hdistance, distance_reverse] at hle
    have hone := Bool.toNat_le (begins_with_drop (qs.map fun p => (spelt p).2))
    omega
  · rintro ⟨bx, cy, h, hdistance, hbegins⟩
    have hle := hleast bx cy h
    rw [hdistance, hbegins, Bool.toNat_false] at hle
    omega

/-- **An octet dropped at the beginning is passed over** for two that differ and one against
nothing: three positions where two would do. -/
theorem wagner_fischer_over_distance :
    _wagner_fischer [97, 98, 97] [98, 97, 99] =
        ([[97], [98], [97]], [[99], [97], [98]]) ∧
      differing_positions [[97], [98], [97]] [[99], [97], [98]] = 3 ∧
      Alignment [97, 98, 97] [98, 97, 99] [[], [97], [98], [97]] [[99], [97], [98], []] ∧
      differing_positions [[], [97], [98], [97]] [[99], [97], [98], []] = 2 ∧
      distance [97, 98, 97] [98, 97, (99 : UInt8)] = 2 := by
  refine ⟨?_, by decide, ⟨rfl, rfl, rfl, by decide⟩, by decide, ?_⟩
  · decide +kernel
  · decide +kernel

end Wiry.Utils
