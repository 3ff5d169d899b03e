/-
Ranges: an ordered map from starts to ends, read as the set of positions its
ranges hold.

`Separated` says that no range touches the next, so a set of positions has one
such map when none of its ranges is empty, and a search for the ranges around a
position has only its neighbours to look at. Nothing here names a program.
-/
import Wiry.Lib.SortedMap
import Mathlib.Data.List.Pairwise
import Mathlib.Tactic.Common

set_option autoImplicit false

namespace SortedMap

/-- A position inside one of the ranges. -/
def Covered (m : SortedMap ℕ ℕ) (p : ℕ) : Prop := ∃ x ∈ m.entries, x.1 ≤ p ∧ p < x.2

/-- Each range ends before the next one starts. -/
structure Separated (m : SortedMap ℕ ℕ) : Prop where
  ordered : ∀ x ∈ m.entries, x.1 ≤ x.2
  apart : m.entries.Pairwise fun x y => x.2 < y.1

variable {m : SortedMap ℕ ℕ} {k v : ℕ}

theorem not_covered_empty (p : ℕ) : ¬ Covered empty p := fun ⟨_, hx, _⟩ => List.not_mem_nil hx

theorem separated_empty : Separated empty := ⟨nofun, .nil⟩

/-- Of two ranges one lies past the other. -/
theorem Separated.either (h : m.Separated) {x y : ℕ × ℕ} (hx : x ∈ m.entries)
    (hy : y ∈ m.entries) (hne : x ≠ y) : x.2 < y.1 ∨ y.2 < x.1 := by
  have hsym : Std.Symm fun a b : ℕ × ℕ => a.2 < b.1 ∨ b.2 < a.1 := ⟨fun _ _ h => h.symm⟩
  exact (h.apart.imp fun h => Or.inl h : m.entries.Pairwise
    fun a b => a.2 < b.1 ∨ b.2 < a.1).forall hx hy hne

/-- A range is found by its start. -/
theorem Separated.eq_of_key (h : m.Separated) {x y : ℕ × ℕ} (hx : x ∈ m.entries)
    (hy : y ∈ m.entries) (hkey : x.1 = y.1) : x = y := by
  by_contra hne
  have hxo := h.ordered x hx
  have hyo := h.ordered y hy
  rcases h.either hx hy hne with hlt | hlt
  · omega
  · omega

/-! ## Taking a range out -/

theorem mem_remove {x : ℕ × ℕ} : x ∈ (m.remove k).entries ↔ x ∈ m.entries ∧ x.1 ≠ k := by
  simp [remove]

theorem Separated.remove (h : m.Separated) (k : ℕ) : (m.remove k).Separated where
  ordered x hx := h.ordered x (mem_remove.1 hx).1
  apart := h.apart.filter _

/-- Taking a range out leaves the positions outside it. -/
theorem Separated.covered_remove (h : m.Separated) (hx : (k, v) ∈ m.entries) (p : ℕ) :
    Covered m p ↔ Covered (m.remove k) p ∨ k ≤ p ∧ p < v := by
  constructor
  · rintro ⟨y, hy, hyp⟩
    by_cases hkey : y.1 = k
    · right
      have heq : y = (k, v) := h.eq_of_key hy hx hkey
      rwa [heq] at hyp
    · exact .inl ⟨y, mem_remove.2 ⟨hy, hkey⟩, hyp⟩
  · rintro (⟨y, hy, hyp⟩ | hp)
    · exact ⟨y, (mem_remove.1 hy).1, hyp⟩
    · exact ⟨(k, v), hx, hp⟩

/-- Removing one key of a sorted list removes one entry. -/
theorem length_filter_ne {l : List (ℕ × ℕ)} (hl : l.Pairwise fun x y => x.1 < y.1)
    (hx : (k, v) ∈ l) : (l.filter fun x => x.1 ≠ k).length + 1 = l.length := by
  induction l with
  | nil => exact absurd hx List.not_mem_nil
  | cons y l ih =>
    obtain ⟨hy, hl⟩ := List.pairwise_cons.1 hl
    rcases List.mem_cons.1 hx with rfl | hx
    · -- the keys behind it are greater
      have hrest : l.filter (fun x => x.1 ≠ k) = l := by
        refine List.filter_eq_self.2 fun x hx => ?_
        have := hy x hx
        simp only [decide_eq_true_eq]
        omega
      rw [List.filter_cons_of_neg (by simp), hrest, List.length_cons]
    · have hne : y.1 ≠ k := by
        have := hy _ hx
        dsimp only at this
        omega
      rw [List.filter_cons_of_pos (by simpa using hne), List.length_cons, List.length_cons, ih hl hx]

/-- A key is bound once. -/
theorem length_remove (hx : (k, v) ∈ m.entries) : (m.remove k).length + 1 = m.length :=
  length_filter_ne m.sorted hx

/-! ## Putting a range in -/

/-- A range put where none touches it. -/
theorem Separated.insert (h : m.Separated) (hkv : k ≤ v)
    (hfree : ∀ x ∈ m.entries, x.2 < k ∨ v < x.1) : (m.insert k v).Separated where
  ordered := by
    intro x hx
    rcases mem_insert.1 hx with rfl | ⟨hx, -⟩
    · exact hkv
    · exact h.ordered x hx
  apart := by
    unfold SortedMap.insert
    simp only
    rw [List.pairwise_append]
    refine ⟨h.apart.filter _, List.pairwise_cons.2 ⟨?_, h.apart.filter _⟩, ?_⟩
    · intro x hx
      obtain ⟨hx, hlt⟩ := List.mem_filter.1 hx
      have hlt' : k < x.1 := by simpa using hlt
      have hxo := h.ordered x hx
      rcases hfree x hx with hbelow | habove
      · omega
      · exact habove
    · intro x hx y hy
      obtain ⟨hx, hlt⟩ := List.mem_filter.1 hx
      have hlt' : x.1 < k := by simpa using hlt
      -- what starts below the new range ends below it
      have hxk : x.2 < k := by
        rcases hfree x hx with hbelow | habove
        · exact hbelow
        · omega
      rcases List.mem_cons.1 hy with rfl | hy
      · exact hxk
      · have hyk : k < y.1 := by simpa using (List.mem_filter.1 hy).2
        omega

theorem covered_insert (hfree : ∀ x ∈ m.entries, x.1 ≠ k) (p : ℕ) :
    Covered (m.insert k v) p ↔ Covered m p ∨ k ≤ p ∧ p < v := by
  constructor
  · rintro ⟨x, hx, hxp⟩
    rcases mem_insert.1 hx with rfl | ⟨hx, -⟩
    · exact .inr hxp
    · exact .inl ⟨x, hx, hxp⟩
  · rintro (⟨x, hx, hxp⟩ | hp)
    · exact ⟨x, mem_insert.2 (.inr ⟨hx, hfree x hx⟩), hxp⟩
    · exact ⟨(k, v), mem_insert.2 (.inl rfl), hp⟩

/-! ## The map of a set of positions -/

/-- Ranges none of which is empty. -/
def Filled (m : SortedMap ℕ ℕ) : Prop := ∀ x ∈ m.entries, x.1 < x.2

/-- The ranges of an interval are the interval. -/
theorem Separated.entries_eq (h : m.Separated) (hfill : m.Filled) {t : ℕ} (ht : 0 < t)
    (hcov : ∀ p, Covered m p ↔ p < t) : m.entries = [(0, t)] := by
  have hsub : ∀ x ∈ m.entries, x = (0, t) := by
    intro x hx
    have hlt := hfill x hx
    -- it starts at zero: what lies right below it is no range's
    have hlow : x.1 = 0 := by
      by_contra hne
      have hlast : x.2 - 1 < t := (hcov _).1 ⟨x, hx, by omega, by omega⟩
      obtain ⟨y, hy, hyp⟩ := (hcov (x.1 - 1)).2 (by omega)
      rcases eq_or_ne x y with rfl | hxy
      · omega
      · rcases h.either hx hy hxy with hxy | hyx
        · omega
        · omega
    -- and ends at the end
    have hhigh : x.2 = t := by
      have hle : x.2 - 1 < t := (hcov _).1 ⟨x, hx, by omega, by omega⟩
      by_contra hne
      obtain ⟨y, hy, hyp⟩ := (hcov x.2).2 (by omega)
      rcases eq_or_ne x y with rfl | hxy
      · omega
      · rcases h.either hx hy hxy with hxy | hyx
        · omega
        · have := hfill y hy
          omega
    exact Prod.ext hlow hhigh
  obtain ⟨x, hx, -⟩ := (hcov 0).2 ht
  match hm : m.entries with
  | [] =>
    rw [hm] at hx
    exact absurd hx (List.not_mem_nil)
  | [y] => rw [hsub y (hm ▸ List.mem_singleton_self y)]
  | y :: z :: rest =>
    have hs := m.sorted
    have hy := hsub y (hm ▸ List.mem_cons_self)
    have hz := hsub z (hm ▸ List.mem_cons_of_mem _ List.mem_cons_self)
    rw [hm, hy, hz] at hs
    exact absurd ((List.pairwise_cons.1 hs).1 (0, t) List.mem_cons_self) (Nat.lt_irrefl 0)

/-! ## Longest stretches -/

variable {a b : ℕ}

/-- A longest stretch of positions of a set. -/
structure Stretch (U : ℕ → Prop) (a b : ℕ) : Prop where
  lt : a < b
  inside : ∀ p, a ≤ p → p < b → U p
  before : ∀ p, p + 1 = a → ¬ U p
  behind : ¬ U b

/-- Separated ranges are the maximal stretches of what they cover. -/
theorem Separated.stretch (h : m.Separated) (hfill : m.Filled) (hx : (a, b) ∈ m.entries) :
    Stretch (Covered m) a b := by
  have hlt : a < b := hfill _ hx
  -- no other range reaches as far as the ends of this one
  have hother : ∀ y ∈ m.entries, y ≠ (a, b) → y.2 < a ∨ b < y.1 := by
    intro y hy hne
    exact h.either hy hx hne
  refine ⟨hlt, fun p hap hpb => ⟨(a, b), hx, hap, hpb⟩, ?_, ?_⟩
  · rintro p hp ⟨y, hy, hyp⟩
    rcases eq_or_ne y (a, b) with rfl | hne
    · dsimp only at hyp
      omega
    · rcases hother y hy hne with hlow | hhigh
      · omega
      · omega
  · rintro ⟨y, hy, hyp⟩
    rcases eq_or_ne y (a, b) with rfl | hne
    · dsimp only at hyp
      omega
    · rcases hother y hy hne with hlow | hhigh
      · omega
      · omega

/-- The ranges of a separated map are the longest stretches of the positions it holds. -/
theorem Separated.mem_iff_stretch (h : m.Separated) (hfill : m.Filled) :
    (a, b) ∈ m.entries ↔ Stretch (Covered m) a b := by
  refine ⟨h.stretch hfill, fun hs => ?_⟩
  obtain ⟨x, hx, hxa, hax⟩ := hs.inside a le_rfl hs.lt
  have hlong := h.stretch hfill (show (x.1, x.2) ∈ m.entries from hx)
  have hstart : x.1 = a := by
    by_contra hne
    exact hs.before (a - 1) (by omega) (hlong.inside (a - 1) (by omega) (by omega))
  have hend : x.2 = b := by
    rcases Nat.lt_trichotomy x.2 b with hlt | heq | hgt
    · exact absurd (hs.inside x.2 (by omega) hlt) hlong.behind
    · exact heq
    · exact absurd (hlong.inside b (by have := hs.lt; omega) hgt) hs.behind
  rw [← hstart, ← hend]
  exact hx

end SortedMap
