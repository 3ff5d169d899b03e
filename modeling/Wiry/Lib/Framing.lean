/-
Cutting a stream into messages by a length function that sees only what has
arrived: `none` while the first message is not all there. When more octets never
change an answer given, cutting early gives the front of cutting late. Nothing
here names a program.
-/
import Mathlib

set_option autoImplicit false

namespace Wiry.Framing

variable {α : Type}

/-- The extents, as offset and length, that `len` cuts off `d` from `at_` on. -/
def cut (len : List α → Option ℕ) (d : List α) (at_ : ℕ) : List (ℕ × ℕ) :=
  if at_ < d.length then
    match len (d.drop at_) with
    | some n => if 0 < n then (at_, n) :: cut len d (at_ + n) else []
    | none => []
  else []
termination_by d.length - at_

/-- An answer is never taken back, and never runs past what has arrived. -/
structure Framer (len : List α → Option ℕ) : Prop where
  stable : ∀ {d : List α} {n : ℕ}, len d = some n → ∀ e, len (d ++ e) = some n
  fits : ∀ {d : List α} {n : ℕ}, len d = some n → n ≤ d.length

section Cut

variable {len : List α → Option ℕ} {d : List α} {at_ n : ℕ}

theorem cut_of_some (hlt : at_ < d.length) (h : len (d.drop at_) = some n) (hn : 0 < n) :
    cut len d at_ = (at_, n) :: cut len d (at_ + n) := by
  rw [cut, if_pos hlt, h]
  exact if_pos hn

theorem cut_of_le (h : d.length ≤ at_) : cut len d at_ = [] := by
  rw [cut]
  exact if_neg (by omega)

/-- The induction rule: cutting stops, or takes one message and goes on behind it. -/
theorem cut_induction {P : ℕ → List (ℕ × ℕ) → Prop}
    (stop : ∀ a, P a [])
    (step : ∀ a n, a < d.length → len (d.drop a) = some n → 0 < n →
      P (a + n) (cut len d (a + n)) → P a ((a, n) :: cut len d (a + n)))
    (a : ℕ) : P a (cut len d a) := by
  rw [cut]
  split
  · rename_i hlt
    split
    · rename_i n hlen
      split
      · rename_i hn
        exact step a n hlt hlen hn (cut_induction stop step (a + n))
      · exact stop a
    · exact stop a
  · exact stop a
termination_by d.length - a

/-- **Cutting early is the front of cutting late.** -/
theorem cut_append (hf : Framer len) (d e : List α) (at_ : ℕ) :
    cut len d at_ <+: cut len (d ++ e) at_ := by
  refine cut_induction (P := fun a ms => ms <+: cut len (d ++ e) a) ?_ ?_ at_
  · intro a
    exact List.nil_prefix
  · intro a n hlt hlen hn ih
    -- the message already complete is the same one with more behind it
    have hlate : len ((d ++ e).drop a) = some n := by
      rw [List.drop_append_of_le_length hlt.le]
      exact hf.stable hlen e
    have hlt' : a < (d ++ e).length := by
      rw [List.length_append]
      omega
    rw [cut_of_some hlt' hlate hn]
    exact List.prefix_cons_inj _ |>.2 ih

/-- Extents that follow one another from `a`, none of them empty, and end by `stop`. -/
def Contiguous : ℕ → List (ℕ × ℕ) → ℕ → Prop
  | a, [], stop => a ≤ stop
  | a, m :: ms, stop => m.1 = a ∧ 0 < m.2 ∧ Contiguous (a + m.2) ms stop

theorem cut_contiguous (hf : Framer len) (d : List α) (hle : at_ ≤ d.length) :
    Contiguous at_ (cut len d at_) d.length := by
  refine cut_induction (P := fun a ms => a ≤ d.length → Contiguous a ms d.length) ?_ ?_ at_ hle
  · intro a ha
    exact ha
  · intro a n hlt hlen hn ih _
    have hfit := hf.fits hlen
    rw [List.length_drop] at hfit
    exact ⟨rfl, hn, ih (by omega)⟩

/-- Cutting from an offset is cutting what lies behind it. -/
theorem cut_drop (len : List α → Option ℕ) (d : List α) (m a : ℕ) :
    cut len d (m + a) = (cut len (d.drop m) a).map fun x => (m + x.1, x.2) := by
  refine cut_induction (d := d.drop m)
    (P := fun a ms => ms = cut len (d.drop m) a →
      cut len d (m + a) = ms.map fun x => (m + x.1, x.2)) ?_ ?_ a rfl
  · -- where cutting the rest stops, cutting the whole stops too
    intro a hstop
    rw [cut] at hstop
    rw [cut, List.length_drop] at *
    rw [List.drop_drop] at hstop
    by_cases hlt : a < d.length - m
    · rw [if_pos hlt] at hstop
      rw [if_pos (by omega : m + a < d.length)]
      rcases hlen : len (d.drop (m + a)) with - | n
      · rfl
      · rw [hlen] at hstop
        by_cases hn : 0 < n
        · simp [hn] at hstop
        · simp [hn]
    · rw [if_neg (by omega : ¬ m + a < d.length)]
      rfl
  · intro a n hlt hlen hn ih _
    rw [List.length_drop] at hlt
    rw [List.drop_drop] at hlen
    rw [cut_of_some (by omega) hlen hn, List.map_cons, Nat.add_assoc, ih rfl]

/-- The end of the first `k` of the extents cut from `a` on. -/
def finish (a : ℕ) (ms : List (ℕ × ℕ)) (k : ℕ) : ℕ := a + ((ms.take k).map Prod.snd).sum

theorem finish_cons (a k : ℕ) (m : ℕ × ℕ) (ms : List (ℕ × ℕ)) :
    finish a (m :: ms) (k + 1) = finish (a + m.2) ms k := by
  simp [finish, Nat.add_assoc]

/-- **The rest frames by itself**: from the end of the `k`-th message on come the others. -/
theorem cut_rest (len : List α → Option ℕ) (d : List α) (at_ k : ℕ)
    (hk : k ≤ (cut len d at_).length) :
    (cut len d at_).drop k = cut len d (finish at_ (cut len d at_) k) := by
  induction k generalizing at_ with
  | zero =>
    simp [finish]
  | succ k ih =>
    refine cut_induction (d := d)
      (P := fun a ms => cut len d a = ms → k + 1 ≤ ms.length →
        ms.drop (k + 1) = cut len d (finish a ms (k + 1))) ?_ ?_ at_ rfl hk
    · intro a _ hlen
      exact absurd hlen (by simp)
    · intro a n _ _ _ _ _ hlen
      rw [List.length_cons] at hlen
      rw [finish_cons, List.drop_succ_cons]
      exact ih (a + n) (by omega)

/-- The extents of pieces laid end to end from `a`. -/
def extents : ℕ → List (List α) → List (ℕ × ℕ)
  | _, [] => []
  | a, p :: ps => (a, p.length) :: extents (a + p.length) ps

/-- **Pieces that are each one message are framed as they were laid.** -/
theorem cut_flatten (hf : Framer len) {ps : List (List α)}
    (hps : ∀ p ∈ ps, p ≠ [] ∧ len p = some p.length) : cut len ps.flatten 0 = extents 0 ps := by
  -- the cut starts behind any front that is already framed
  have hfrom : ∀ (front : List α), cut len (front ++ ps.flatten) front.length =
      extents front.length ps := by
    induction ps with
    | nil =>
      intro front
      rw [List.flatten_nil, List.append_nil]
      exact cut_of_le le_rfl
    | cons p ps ih =>
      intro front
      obtain ⟨hne, hp⟩ := hps p List.mem_cons_self
      have hpos := List.length_pos_iff.2 hne
      have hhead : len ((front ++ (p :: ps).flatten).drop front.length) = some p.length := by
        rw [List.drop_left, List.flatten_cons]
        exact hf.stable hp _
      rw [cut_of_some (by simp; omega) hhead hpos]
      have hrest := ih (fun q hq => hps q (List.mem_cons_of_mem _ hq)) (front ++ p)
      rw [List.append_assoc, List.length_append, ← List.flatten_cons] at hrest
      rw [hrest]
      rfl
  exact hfrom []

end Cut

end Wiry.Framing
