/-
Mixed-radix numerals, the last digit fastest.

`weigh` is the number a digit string stands for and `digits` the string of a number. On strings
whose digits are below their radices the two are inverse to each other, and the order of
numbers is the lexicographic order of their strings.
-/
import Mathlib.Algebra.BigOperators.Ring.List
import Mathlib.Algebra.GroupWithZero.Nat
import Mathlib.Data.List.Lex
import Mathlib.Data.Set.Function
import Mathlib.Tactic.Common

set_option autoImplicit false

namespace MixedRadix

/-- The digits of `i` to the radices `ns`. -/
def digits : List ℕ → ℕ → List ℕ
  | [], _ => []
  | n :: ns, i => i / ns.prod % n :: digits ns i

/-- What digits to the radices `ns` stand for. -/
def weigh : List ℕ → List ℕ → ℕ
  | _ :: ns, d :: ds => d * ns.prod + weigh ns ds
  | _, _ => 0

/-- Digits that are below their radices, one each. -/
def Valid (ns ds : List ℕ) : Prop := List.Forall₂ (· < ·) ds ns

/-- The digits taken off `i` one after another, by division. -/
def peel : List ℕ → ℕ → List ℕ
  | [], _ => []
  | n :: ns, i => i % n :: peel ns (i / n)

theorem peel_append (ns ms : List ℕ) (i : ℕ) :
    peel (ns ++ ms) i = peel ns i ++ peel ms (i / ns.prod) := by
  induction ns generalizing i with
  | nil =>
    rw [List.prod_nil, Nat.div_one]
    rfl
  | cons n ns ih =>
    rw [List.cons_append, peel, ih, peel, List.cons_append, List.prod_cons,
      Nat.div_div_eq_div_mul]

/-- Peeling from the fastest radix yields the digits backwards. -/
theorem peel_reverse (ns : List ℕ) (i : ℕ) : (peel ns.reverse i).reverse = digits ns i := by
  induction ns with
  | nil => rfl
  | cons n ns ih =>
    rw [List.reverse_cons, peel_append, List.reverse_append, ih, List.prod_reverse]
    rfl

theorem weigh_lt {ns ds : List ℕ} (h : Valid ns ds) : weigh ns ds < ns.prod := by
  induction h with
  | nil => exact Nat.one_pos
  | @cons d n ds ns hd _ ih =>
    rw [weigh, List.prod_cons]
    calc d * ns.prod + weigh ns ds < d * ns.prod + ns.prod := Nat.add_lt_add_left ih _
      _ = (d + 1) * ns.prod := (Nat.succ_mul _ _).symm
      _ ≤ n * ns.prod := Nat.mul_le_mul_right _ hd

theorem valid_digits {ns : List ℕ} (h : ∀ n ∈ ns, 0 < n) (i : ℕ) : Valid ns (digits ns i) := by
  induction ns with
  | nil => exact .nil
  | cons n ns ih =>
    exact .cons (Nat.mod_lt _ (h n List.mem_cons_self))
      (ih fun m hm => h m (List.mem_cons_of_mem _ hm))

/-- What a number's digits stand for. -/
theorem weigh_digits (ns : List ℕ) (i : ℕ) : weigh ns (digits ns i) = i % ns.prod := by
  induction ns with
  | nil => exact (Nat.mod_one i).symm
  | cons n ns ih =>
    rw [digits, weigh, ih, List.prod_cons, Nat.mul_comm n, Nat.mod_mul, Nat.mul_comm]
    exact Nat.add_comm _ _

/-- Digit strings are weighed in their lexicographic order. -/
theorem weigh_lt_weigh {ns ds es : List ℕ} (hds : Valid ns ds) (hes : Valid ns es)
    (hlt : List.Lex (· < ·) ds es) : weigh ns ds < weigh ns es := by
  induction hds generalizing es with
  | nil =>
    cases hes
    cases hlt
  | @cons d n ds ns hd hds ih =>
    cases hes with
    | @cons e _ es _ he hes =>
      rw [weigh, weigh]
      cases hlt with
      | cons hlt => exact Nat.add_lt_add_left (ih hes hlt) _
      | rel hlt =>
        calc d * ns.prod + weigh ns ds < d * ns.prod + ns.prod :=
              Nat.add_lt_add_left (weigh_lt hds) _
          _ = (d + 1) * ns.prod := (Nat.succ_mul _ _).symm
          _ ≤ e * ns.prod := Nat.mul_le_mul_right _ hlt
          _ ≤ e * ns.prod + weigh ns es := Nat.le_add_right _ _

/-- Two numerals over the same radices are ordered or equal. -/
theorem lex_trichotomy {ns ds es : List ℕ} (hds : Valid ns ds) (hes : Valid ns es) :
    List.Lex (· < ·) ds es ∨ ds = es ∨ List.Lex (· < ·) es ds := by
  induction hds generalizing es with
  | nil =>
    cases hes
    exact Or.inr (Or.inl rfl)
  | @cons d n ds ns hd hds ih =>
    cases hes with
    | @cons e _ es _ he hes =>
      rcases Nat.lt_trichotomy d e with hlt | rfl | hgt
      · exact Or.inl (.rel hlt)
      · rcases ih hes with hlt | rfl | hgt
        · exact Or.inl (.cons hlt)
        · exact Or.inr (Or.inl rfl)
        · exact Or.inr (Or.inr (.cons hgt))
      · exact Or.inr (Or.inr (.rel hgt))

theorem weigh_injOn {ns ds es : List ℕ} (hds : Valid ns ds) (hes : Valid ns es)
    (h : weigh ns ds = weigh ns es) : ds = es := by
  rcases lex_trichotomy hds hes with hlt | heq | hgt
  · exact absurd h (weigh_lt_weigh hds hes hlt).ne
  · exact heq
  · exact absurd h (weigh_lt_weigh hes hds hgt).ne'

theorem radix_pos {ns : List ℕ} (h : 0 < ns.prod) : ∀ n ∈ ns, 0 < n := by
  intro n hn
  refine Nat.pos_of_ne_zero fun hzero => ?_
  rw [hzero] at hn
  have hprod : ns.prod = 0 := List.prod_eq_zero hn
  exact h.ne' hprod

/-- The numbers below the product of the radices are the digit strings, one each. -/
theorem digits_bijOn (ns : List ℕ) :
    Set.BijOn (digits ns) { i | i < ns.prod } { ds | Valid ns ds } := by
  refine ⟨fun i hi => valid_digits (radix_pos (Nat.zero_lt_of_lt hi)) i, fun i hi j hj h => ?_,
    fun ds hds => ⟨weigh ns ds, weigh_lt hds, ?_⟩⟩
  · have hweigh := congrArg (weigh ns) h
    rwa [weigh_digits, weigh_digits, Nat.mod_eq_of_lt hi, Nat.mod_eq_of_lt hj] at hweigh
  · have hpos := radix_pos (Nat.zero_lt_of_lt (weigh_lt hds))
    refine weigh_injOn (valid_digits hpos _) hds ?_
    rw [weigh_digits, Nat.mod_eq_of_lt (weigh_lt hds)]

/-- Numbers are in the lexicographic order of their digits. -/
theorem digits_lex {ns : List ℕ} {i j : ℕ} (hij : i < j) (hj : j < ns.prod) :
    List.Lex (· < ·) (digits ns i) (digits ns j) := by
  have hpos := radix_pos (Nat.zero_lt_of_lt hj)
  have hi : weigh ns (digits ns i) = i := by
    rw [weigh_digits, Nat.mod_eq_of_lt (hij.trans hj)]
  have hj' : weigh ns (digits ns j) = j := by rw [weigh_digits, Nat.mod_eq_of_lt hj]
  rcases lex_trichotomy (valid_digits hpos i) (valid_digits hpos j) with hlt | heq | hgt
  · exact hlt
  · rw [← hi, ← hj', heq] at hij
    exact absurd hij (Nat.lt_irrefl _)
  · have hback := weigh_lt_weigh (valid_digits hpos j) (valid_digits hpos i) hgt
    rw [hi, hj'] at hback
    exact absurd hback hij.not_gt

end MixedRadix
