/-
Two linked running sums: that of a list, and that of the sums of its prefixes.

A number counts once in the first and once for every place from its own to the end in the second,
so what two adjacent numbers add to both sums depends on where they stand only through what is
behind them. `settles` is the choice of the two that makes both sums multiples of a modulus.
-/
import Mathlib.Tactic.Common
import Mathlib.Tactic.Linarith
import Mathlib.Tactic.Ring

set_option autoImplicit false

namespace Fletcher

/-- The running sum, and the running sum of those. -/
def sums (xs : List ℤ) : ℤ × ℤ :=
  xs.foldl (fun c x => (c.1 + x, c.2 + (c.1 + x))) (0, 0)

/-- Each number times the places from its own to the end. -/
def weight : List ℤ → ℤ
  | [] => 0
  | x :: xs => (xs.length + 1) * x + weight xs

/-- The two running sums in closed form. -/
theorem sums_eq (xs : List ℤ) : sums xs = (xs.sum, weight xs) := by
  -- the sums so far count in every later one
  have hfrom : ∀ a b : ℤ, xs.foldl (fun c x => (c.1 + x, c.2 + (c.1 + x))) (a, b) =
      (a + xs.sum, b + xs.length * a + weight xs) := by
    induction xs with
    | nil => simp [weight]
    | cons x xs ih =>
      intro a b
      rw [List.foldl_cons, ih]
      simp only [List.sum_cons, List.length_cons, weight, Prod.mk.injEq]
      constructor
      · ring
      · push_cast
        ring
  simp [sums, hfrom]

theorem weight_append (xs ys : List ℤ) :
    weight (xs ++ ys) = weight xs + ys.length * xs.sum + weight ys := by
  induction xs with
  | nil => simp [weight]
  | cons x xs ih =>
    simp only [List.cons_append, weight, ih, List.length_append, List.sum_cons]
    push_cast
    ring

/-- Two numbers in a list, their places held by zeros. -/
theorem weight_around (pre post : List ℤ) (x y : ℤ) :
    weight (pre ++ [x, y] ++ post) =
      weight (pre ++ [0, 0] ++ post) + (post.length + 2) * x + (post.length + 1) * y := by
  simp only [weight_append, List.sum_append, List.sum_cons, List.sum_nil, List.length_cons,
    List.length_nil, weight]
  push_cast
  ring

theorem sum_around (pre post : List ℤ) (x y : ℤ) :
    (pre ++ [x, y] ++ post).sum = (pre ++ [0, 0] ++ post).sum + x + y := by
  simp only [List.sum_append, List.sum_cons, List.sum_nil]
  ring

/-- **Two numbers settle both sums** when together they cancel the first and the one in front
cancels what the other leaves of the second. -/
theorem settles {m : ℤ} {pre post : List ℤ} {x y : ℤ}
    (hsum : m ∣ (pre ++ [0, 0] ++ post).sum + x + y)
    (hfront : m ∣ x - ((post.length + 1) * (pre ++ [0, 0] ++ post).sum -
      weight (pre ++ [0, 0] ++ post))) :
    m ∣ (sums (pre ++ [x, y] ++ post)).1 ∧ m ∣ (sums (pre ++ [x, y] ++ post)).2 := by
  rw [sums_eq, sum_around, weight_around]
  refine ⟨hsum, ?_⟩
  -- the second sum is what `x` leaves over, and the first one as often as there are places behind
  have hsplit : weight (pre ++ [0, 0] ++ post) + (post.length + 2) * x + (post.length + 1) * y =
      (x - ((post.length + 1) * (pre ++ [0, 0] ++ post).sum - weight (pre ++ [0, 0] ++ post))) +
        (post.length + 1) * ((pre ++ [0, 0] ++ post).sum + x + y) := by
    ring
  rw [hsplit]
  exact Int.dvd_add hfront (Dvd.dvd.mul_left hsum _)

end Fletcher
