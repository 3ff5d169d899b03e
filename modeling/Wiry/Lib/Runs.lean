/-
Runs: an ordered map from positions to non-empty lists of cells.

A value bound to position `k` stands for the cells at `k`, `k + 1`, and so on,
one for each element of its list. A map whose runs do not overlap is a sparse
array, and `lookup` reads it as one: it says what sits at a position, whichever
run holds it. The operations are the two that such a buffer needs. `insert` on a
stretch no run covers adds exactly the cells of that stretch, and removing the
first run takes away exactly the lowest cells; both keep the runs apart.

`cells` is a parameter: the list a value stands for need not be the value.
-/
import Wiry.Lib.SortedMap
import Mathlib.Algebra.BigOperators.Group.List.Basic
import Mathlib.Order.Interval.Finset.Nat
import Mathlib.Tactic.Common

set_option autoImplicit false

namespace SortedMap

section Runs

variable {ν γ : Type*} (cells : ν → List γ)

/-- The position past a run. -/
def stop (x : ℕ × ν) : ℕ := x.1 + (cells x.2).length

/-- Runs are non-empty and no two of them share a position. -/
structure Apart (m : SortedMap ℕ ν) : Prop where
  nonempty : ∀ x ∈ m.entries, cells x.2 ≠ []
  disjoint : m.entries.Pairwise fun x y => stop cells x ≤ y.1

/-- The cell at a position of one run. -/
def cellAt (x : ℕ × ν) (p : ℕ) : Option γ :=
  if x.1 ≤ p then (cells x.2)[p - x.1]? else none

/-- The cell at a position, whichever run holds it. -/
def lookup (m : SortedMap ℕ ν) (p : ℕ) : Option γ :=
  m.entries.findSome? fun x => cellAt cells x p

/-- The number of cells held. -/
def total (m : SortedMap ℕ ν) : ℕ := (m.entries.map fun x => (cells x.2).length).sum

/-- The positions held. -/
def region (m : SortedMap ℕ ν) : Finset ℕ :=
  m.entries.foldr (fun x s => Finset.Ico x.1 (stop cells x) ∪ s) ∅

variable {cells}

/-! ## One run -/

/-- The positions a run holds. -/
theorem cellAt_isSome {x : ℕ × ν} {p : ℕ} :
    (cellAt cells x p).isSome ↔ x.1 ≤ p ∧ p < stop cells x := by
  unfold cellAt stop
  split
  · simp only [isSome_getElem?]
    omega
  · simp only [Option.isSome_none, Bool.false_eq_true, false_iff]
    omega

theorem cellAt_eq_none {x : ℕ × ν} {p : ℕ} :
    cellAt cells x p = none ↔ p < x.1 ∨ stop cells x ≤ p := by
  rw [← Option.not_isSome_iff_eq_none, cellAt_isSome]
  omega

theorem cellAt_of_mem {x : ℕ × ν} {p : ℕ} {c : γ} (h : cellAt cells x p = some c) :
    x.1 ≤ p ∧ p < stop cells x :=
  cellAt_isSome.1 (by rw [h]; rfl)

/-! ## Looking a position up -/

@[simp] theorem lookup_empty (p : ℕ) : lookup cells (empty : SortedMap ℕ ν) p = none := rfl

@[simp] theorem total_empty : total cells (empty : SortedMap ℕ ν) = 0 := rfl

theorem apart_empty : Apart cells (empty : SortedMap ℕ ν) :=
  ⟨by simp, List.Pairwise.nil⟩

theorem lookup_eq_none {m : SortedMap ℕ ν} {p : ℕ} :
    lookup cells m p = none ↔ ∀ x ∈ m.entries, cellAt cells x p = none := by
  simp [lookup]

theorem lookup_isSome {m : SortedMap ℕ ν} {p : ℕ} :
    (lookup cells m p).isSome ↔ ∃ x ∈ m.entries, x.1 ≤ p ∧ p < stop cells x := by
  simp only [lookup, List.isSome_findSome?, List.any_eq_true, cellAt_isSome]

theorem exists_of_lookup {m : SortedMap ℕ ν} {p : ℕ} {c : γ} (h : lookup cells m p = some c) :
    ∃ x ∈ m.entries, cellAt cells x p = some c :=
  List.exists_of_findSome?_eq_some h

/-- Two runs that are apart never both hold a position. -/
theorem Apart.unique {m : SortedMap ℕ ν} (hm : Apart cells m) {x y : ℕ × ν} {p : ℕ}
    (hx : x ∈ m.entries) (hy : y ∈ m.entries) (hxp : x.1 ≤ p ∧ p < stop cells x)
    (hyp : y.1 ≤ p ∧ p < stop cells y) : x = y := by
  by_contra hne
  have hsym : Std.Symm fun a b : ℕ × ν => stop cells a ≤ b.1 ∨ stop cells b ≤ a.1 :=
    ⟨fun _ _ h => h.symm⟩
  have hpw : m.entries.Pairwise fun a b => stop cells a ≤ b.1 ∨ stop cells b ≤ a.1 :=
    hm.disjoint.imp fun h => Or.inl h
  have h := hpw.forall hx hy hne
  omega

/-- In a map whose runs are apart, a run that holds a position is what a lookup reads. -/
theorem Apart.lookup_of_mem {m : SortedMap ℕ ν} (hm : Apart cells m) {x : ℕ × ν} {p : ℕ} {c : γ}
    (hx : x ∈ m.entries) (hc : cellAt cells x p = some c) : lookup cells m p = some c := by
  obtain ⟨d, hd⟩ := Option.isSome_iff_exists.1
    (lookup_isSome.2 ⟨x, hx, cellAt_of_mem hc⟩ : (lookup cells m p).isSome)
  obtain ⟨y, hy, hyd⟩ := exists_of_lookup hd
  have hxy : x = y := hm.unique hx hy (cellAt_of_mem hc) (cellAt_of_mem hyd)
  rw [hd, ← hyd, ← hxy, hc]

/-! ## Adding a run where there is none -/

section Insert

variable {m : SortedMap ℕ ν} {k : ℕ} {v : ν}

/-- A key inside an uncovered stretch is not bound: bound keys are covered. -/
theorem Apart.key_ne (hm : Apart cells m) (hv : cells v ≠ [])
    (hfree : ∀ p, k ≤ p → p < k + (cells v).length → lookup cells m p = none) :
    ∀ y ∈ m.entries, y.1 ≠ k := by
  intro y hy hk
  have hlen : 0 < (cells v).length := List.length_pos_iff.2 hv
  have hnone := lookup_eq_none.1 (hfree k le_rfl (by omega)) y hy
  have hpos : 0 < (cells y.2).length := List.length_pos_iff.2 (hm.nonempty y hy)
  rw [cellAt_eq_none, stop] at hnone
  omega

/-- A run that lies in an uncovered stretch ends before, or starts after, each run held. -/
theorem Apart.beside (hm : Apart cells m) (hv : cells v ≠ [])
    (hfree : ∀ p, k ≤ p → p < k + (cells v).length → lookup cells m p = none)
    {y : ℕ × ν} (hy : y ∈ m.entries) :
    (y.1 < k ∧ stop cells y ≤ k) ∨ (k < y.1 ∧ k + (cells v).length ≤ y.1) := by
  have hlen : 0 < (cells v).length := List.length_pos_iff.2 hv
  have hpos : 0 < (cells y.2).length := List.length_pos_iff.2 (hm.nonempty y hy)
  have hne := hm.key_ne hv hfree y hy
  rcases lt_or_gt_of_ne hne with h | h
  · have hk := lookup_eq_none.1 (hfree k le_rfl (by omega)) y hy
    rw [cellAt_eq_none] at hk
    omega
  · refine Or.inr ⟨h, ?_⟩
    by_contra hlt
    have hk := lookup_eq_none.1 (hfree y.1 h.le (by omega)) y hy
    rw [cellAt_eq_none, stop] at hk
    omega

/-- A run placed where nothing lies keeps the runs apart. -/
theorem Apart.insert (hm : Apart cells m) (hv : cells v ≠ [])
    (hfree : ∀ p, k ≤ p → p < k + (cells v).length → lookup cells m p = none) :
    Apart cells (m.insert k v) where
  nonempty := by
    intro x hx
    rcases mem_insert.1 hx with rfl | ⟨hx, -⟩
    · exact hv
    · exact hm.nonempty x hx
  disjoint := by
    unfold SortedMap.insert
    simp only
    rw [List.pairwise_append]
    refine ⟨hm.disjoint.filter _, List.pairwise_cons.2 ⟨?_, hm.disjoint.filter _⟩, ?_⟩
    -- Behind the new run.
    · intro y hy
      have hmem := List.mem_filter.1 hy
      have hlt : k < y.1 := by simpa using hmem.2
      have := hm.beside hv hfree hmem.1
      simp only [stop]
      omega
    -- In front of it: those runs end before it and so before what follows.
    · intro x hx y hy
      have hxm := List.mem_filter.1 hx
      have hxk : x.1 < k := by simpa using hxm.2
      have hxs : stop cells x ≤ k := by
        have := hm.beside hv hfree hxm.1
        omega
      rcases List.mem_cons.1 hy with rfl | hy
      · exact hxs
      · have hym : k < y.1 := by simpa using (List.mem_filter.1 hy).2
        omega

/-- Adding a run to an uncovered stretch adds its cells there and changes nothing else. -/
theorem Apart.lookup_insert (hm : Apart cells m) (hv : cells v ≠ [])
    (hfree : ∀ p, k ≤ p → p < k + (cells v).length → lookup cells m p = none) (p : ℕ) :
    lookup cells (m.insert k v) p = (lookup cells m p).or (cellAt cells (k, v) p) := by
  have hins := hm.insert hv hfree
  cases hl : lookup cells m p with
  | some c =>
    obtain ⟨x, hx, hc⟩ := exists_of_lookup hl
    exact hins.lookup_of_mem (mem_insert.2 (Or.inr ⟨hx, hm.key_ne hv hfree x hx⟩)) hc
  | none =>
    rw [Option.none_or]
    cases hc : cellAt cells (k, v) p with
    | some c => exact hins.lookup_of_mem (mem_insert.2 (Or.inl rfl)) hc
    | none =>
      refine lookup_eq_none.2 fun x hx => ?_
      rcases mem_insert.1 hx with rfl | ⟨hx, -⟩
      · exact hc
      · exact lookup_eq_none.1 hl x hx

theorem Apart.total_insert (hm : Apart cells m) (hv : cells v ≠ [])
    (hfree : ∀ p, k ≤ p → p < k + (cells v).length → lookup cells m p = none) :
    total cells (m.insert k v) = total cells m + (cells v).length := by
  unfold total
  rw [((insert_perm (hm.key_ne hv hfree)).map _).sum_eq, List.map_cons, List.sum_cons]
  exact Nat.add_comm _ _

end Insert

/-! ## Taking the first run away -/

section Remove

variable {m : SortedMap ℕ ν} {x : ℕ × ν}

theorem Apart.remove_first (hm : Apart cells m) (hx : m.first = some x) :
    Apart cells (m.remove x.1) := by
  obtain ⟨rest, hrest⟩ := first_eq_some.1 hx
  have hent := entries_remove_first hrest
  refine ⟨fun y hy => hm.nonempty y (mem_of_mem_remove hy), ?_⟩
  have hd := hm.disjoint
  rw [hrest] at hd
  rw [hent]
  exact (List.pairwise_cons.1 hd).2

/-- Removing the first run leaves the cells past it. -/
theorem Apart.lookup_remove_first (hm : Apart cells m) (hx : m.first = some x) (p : ℕ) :
    lookup cells (m.remove x.1) p = if stop cells x ≤ p then lookup cells m p else none := by
  obtain ⟨rest, hrest⟩ := first_eq_some.1 hx
  have hent := entries_remove_first hrest
  have hd := hm.disjoint
  rw [hrest] at hd
  have hpast : ∀ y ∈ rest, stop cells x ≤ y.1 := (List.pairwise_cons.1 hd).1
  unfold lookup
  rw [hent, hrest, List.findSome?_cons]
  split_ifs with hp
  · rw [cellAt_eq_none.2 (Or.inr hp)]
  · rw [List.findSome?_eq_none_iff]
    intro y hy
    have := hpast y hy
    exact cellAt_eq_none.2 (Or.inl (by omega))

/-- Below its first run a map holds nothing. -/
theorem lookup_lt_first (hx : m.first = some x) {p : ℕ} (hp : p < x.1) :
    lookup cells m p = none := by
  refine lookup_eq_none.2 fun y hy => cellAt_eq_none.2 (Or.inl ?_)
  have := first_le hx hy
  omega

theorem lookup_of_first_none (hx : m.first = none) (p : ℕ) : lookup cells m p = none := by
  rw [lookup_eq_none, first_eq_none.1 hx]
  simp

/-- On its first run, a map reads that run. -/
theorem Apart.lookup_first (hm : Apart cells m) (hx : m.first = some x) {p : ℕ}
    (hp : p < stop cells x) : lookup cells m p = cellAt cells x p := by
  cases hc : cellAt cells x p with
  | some c => exact hm.lookup_of_mem (mem_of_first hx) hc
  | none =>
    rw [cellAt_eq_none] at hc
    exact lookup_lt_first hx (by omega)

/-- And takes its cells away. -/
theorem total_remove_first (hx : m.first = some x) :
    total cells (m.remove x.1) + (cells x.2).length = total cells m := by
  obtain ⟨rest, hrest⟩ := first_eq_some.1 hx
  unfold total
  rw [entries_remove_first hrest, hrest, List.map_cons, List.sum_cons]
  exact Nat.add_comm _ _

end Remove

/-! ## The positions held -/

section Region

variable {m : SortedMap ℕ ν}

theorem mem_region {p : ℕ} : p ∈ region cells m ↔ (lookup cells m p).isSome := by
  rw [lookup_isSome]
  unfold region
  induction m.entries with
  | nil => simp
  | cons x rest ih => simp [ih]

/-- Runs that are apart hold as many positions as they hold cells. -/
theorem Apart.card_region (hm : Apart cells m) : (region cells m).card = total cells m := by
  have hmem : ∀ (l : List (ℕ × ν)) (p : ℕ),
      p ∈ l.foldr (fun x s => Finset.Ico x.1 (stop cells x) ∪ s) ∅ ↔
        ∃ y ∈ l, y.1 ≤ p ∧ p < stop cells y := by
    intro l p
    induction l with
    | nil => simp
    | cons y l ih => simp [ih]
  obtain ⟨entries, hsorted⟩ := m
  obtain ⟨-, hd⟩ := hm
  simp only [region, total] at hd ⊢
  induction entries with
  | nil => rfl
  | cons x rest ih =>
    obtain ⟨hx, hrest⟩ := List.pairwise_cons.1 hd
    -- disjoint runs: the first one's cells are none of the others'
    have hdisj : Disjoint (Finset.Ico x.1 (stop cells x))
        (rest.foldr (fun x s => Finset.Ico x.1 (stop cells x) ∪ s) ∅) := by
      rw [Finset.disjoint_left]
      intro p hp hq
      obtain ⟨y, hy, hyp, -⟩ := (hmem rest p).1 hq
      have := hx y hy
      have := (Finset.mem_Ico.1 hp).2
      omega
    rw [List.foldr_cons, Finset.card_union_of_disjoint hdisj,
      ih (List.pairwise_cons.1 hsorted).2 hrest, Nat.card_Ico, List.map_cons, List.sum_cons]
    simp [stop]

end Region

end Runs

end SortedMap
