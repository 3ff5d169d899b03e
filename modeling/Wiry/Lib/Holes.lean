/-
Offsets into a list with holes.

A list of elements is laid out on a line with holes between them: a hole is
recorded by the offset in the list where it falls and by how many positions it
takes. The element at offset `o` then sits `o + skipped o` positions in, where
`skipped o` adds up the holes at or before `o`. The one fact that is not
bookkeeping is `exists_offset_or_hole`: a position of the line is the place of
an element or lies in a hole, so nothing on the line is unaccounted for.
-/
import Mathlib.Algebra.BigOperators.Group.List.Basic
import Mathlib.Algebra.Order.BigOperators.Group.List
import Mathlib.Algebra.Order.Ring.Nat
import Mathlib.Data.List.Induction
import Mathlib.Tactic.Common

set_option autoImplicit false

namespace Holes

variable {ι : Type*} (off len : ι → ℕ)

/-- The positions taken by the holes at or before offset `o`. -/
def skipped (hs : List ι) (o : ℕ) : ℕ := ((hs.filter fun h => off h ≤ o).map len).sum

/-- The positions taken by every hole. -/
def size (hs : List ι) : ℕ := (hs.map len).sum

/-- Position `i` of the line lies in hole `k`. -/
def InHole (hs : List ι) (k i : ℕ) : Prop :=
  ∃ h, hs[k]? = some h ∧ off h + size len (hs.take k) ≤ i ∧ i < off h + size len (hs.take k) + len h

variable {off len}

@[simp] theorem skipped_nil (o : ℕ) : skipped off len [] o = 0 := rfl

@[simp] theorem size_nil : size len [] = 0 := rfl

@[simp] theorem size_append (hs ks : List ι) : size len (hs ++ ks) = size len hs + size len ks := by
  simp [size]

@[simp] theorem size_singleton (h : ι) : size len [h] = len h := by
  simp [size]

theorem skipped_append (hs ks : List ι) (o : ℕ) :
    skipped off len (hs ++ ks) o = skipped off len hs o + skipped off len ks o := by
  simp [skipped]

/-- Past the last hole every hole has been skipped. -/
theorem skipped_of_forall_le {hs : List ι} {o : ℕ} (h : ∀ x ∈ hs, off x ≤ o) :
    skipped off len hs o = size len hs := by
  unfold skipped size
  rw [List.filter_eq_self.2 fun x hx => by simpa using h x hx]

/-- A hole further on changes nothing before it. -/
theorem skipped_append_of_lt {hs : List ι} {x : ι} {o : ℕ} (h : o < off x) :
    skipped off len (hs ++ [x]) o = skipped off len hs o := by
  rw [skipped_append]
  simp [skipped, h.not_ge]

theorem skipped_mono (hs : List ι) {o o' : ℕ} (h : o ≤ o') :
    skipped off len hs o ≤ skipped off len hs o' := by
  induction hs with
  | nil => exact le_rfl
  | cons x hs ih =>
    rw [← List.singleton_append, skipped_append, skipped_append]
    refine Nat.add_le_add ?_ ih
    by_cases hx : off x ≤ o
    · simp [skipped, hx, hx.trans h]
    · simp [skipped, hx]

/-- Between two offsets with no hole in between, as many holes are skipped. -/
theorem skipped_eq_of_apart {hs : List ι} {a b : ℕ} (hab : a ≤ b)
    (h : ∀ x ∈ hs, off x ≤ a ∨ b < off x) : skipped off len hs b = skipped off len hs a := by
  unfold skipped
  congr 2
  apply List.filter_congr
  intro x hx
  have := h x hx
  rw [decide_eq_decide]
  omega

/-- Elements further on stand further on. -/
theorem place_strictMono (hs : List ι) : StrictMono fun o => o + skipped off len hs o := by
  intro a b hab
  have hskip : skipped off len hs a ≤ skipped off len hs b := skipped_mono hs hab.le
  dsimp only
  omega

/-- Every position of the line is the place of an element, or lies in a hole. -/
theorem exists_offset_or_hole (hs : List ι) (hsort : hs.Pairwise fun x y => off x ≤ off y) :
    ∀ (n i : ℕ), (∀ x ∈ hs, off x ≤ n) → i < n + size len hs →
      (∃ o < n, i = o + skipped off len hs o) ∨ ∃ k, InHole off len hs k i := by
  induction hs using List.reverseRecOn with
  | nil =>
    intro n i _ hi
    exact Or.inl ⟨i, by simpa using hi, by simp⟩
  | append_singleton hs x ih =>
    intro n i hn hi
    obtain ⟨hsorted, -, hlast⟩ := List.pairwise_append.1 hsort
    have hle : ∀ y ∈ hs, off y ≤ off x := fun y hy => hlast y hy x (List.mem_singleton_self x)
    have hxn : off x ≤ n := hn x (by simp)
    rw [size_append, size_singleton] at hi
    rcases Nat.lt_or_ge i (off x + size len hs) with hbefore | hpast
    · -- Before the last hole the line is the one of the other holes.
      rcases ih hsorted (off x) i hle hbefore with ⟨o, ho, hio⟩ | ⟨k, h, hk, hlo, hhi⟩
      · exact Or.inl ⟨o, by omega, by rw [skipped_append_of_lt ho, hio]⟩
      · have hklt : k < hs.length := (List.getElem?_eq_some_iff.1 hk).1
        refine Or.inr ⟨k, h, ?_, ?_, ?_⟩
        · rw [List.getElem?_append_left hklt, hk]
        · rwa [List.take_append_of_le_length hklt.le]
        · rwa [List.take_append_of_le_length hklt.le]
    · rcases Nat.lt_or_ge i (off x + size len hs + len x) with hin | hafter
      · exact Or.inr ⟨hs.length, x, by simp, by simpa using hpast, by simpa using hin⟩
      · have hall : ∀ y ∈ hs ++ [x], off y ≤ i - (size len hs + len x) := by
          intro y hy
          have : off y ≤ off x := by
            rcases List.mem_append.1 hy with hy | hy
            · exact hle y hy
            · rw [List.mem_singleton.1 hy]
          omega
        refine Or.inl ⟨i - (size len hs + len x), by omega, ?_⟩
        rw [skipped_of_forall_le hall, size_append, size_singleton]
        omega

end Holes
