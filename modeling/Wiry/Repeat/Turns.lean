/-
One turn of the loop in `walk_in` of `crates/wiry-core/src/repeat.rs`, in the arithmetic it runs in.

An element's width is a sum that saturates at `usize::MAX`, and where it starts is added to it
unchecked. `turn_checked` is the turn with that sum held to 64 bits and every slice required to be in
bounds: it fails exactly where start and width come to `2 ^ 64` or more.
-/
import Wiry.Lib.Checked
import Wiry.Repeat.Group

set_option autoImplicit false

namespace Wiry.Repeat

open Packet (Bytes read_bits slice slice_checked slice_checked_eq)
open Checked (fit add fit_bind add_bind some_bind)

/-! ## Saturating widths -/

/-- A width as the code has it and as the numbers have it: the same, or both past the end of any
buffer. -/
def SameWidth (s t : ℕ) : Prop := s = t ∨ USIZE_MAX ≤ s ∧ USIZE_MAX ≤ t

theorem SameWidth.add {s t : ℕ} (h : SameWidth s t) (x scale : ℕ) :
    SameWidth (saturating_add s (saturating_mul x scale)) (t + x * scale) := by
  unfold SameWidth saturating_add saturating_mul at *
  omega

theorem SameWidth.foldl {terms : List LenTerm} (e : Bytes) {s t : ℕ} (h : SameWidth s t) :
    SameWidth
      (terms.foldl
        (fun a t => saturating_add a (saturating_mul (read_bits e t.bit_off t.bit_len) t.scale)) s)
      (terms.foldl (fun a t => a + read_bits e t.bit_off t.bit_len * t.scale) t) := by
  induction terms generalizing s t with
  | nil => exact h
  | cons term terms ih => exact ih (h.add _ _)

namespace GroupDesc

variable {Sub : Type} (g : GroupDesc Sub)

/-- `elem_len`, saturating. -/
def elem_width (e : Bytes) : ℕ :=
  match g.elem with
  | .Fixed n => n
  | .Computed base terms least =>
    max (terms.foldl
      (fun a t => saturating_add a (saturating_mul (read_bits e t.bit_off t.bit_len) t.scale)) base) least

/-- So are an element's. -/
theorem elem_width_same (e : Bytes) : SameWidth (g.elem_width e) (g.elem_len e) := by
  unfold elem_width elem_len
  cases g.elem with
  | Fixed n => exact .inl rfl
  | Computed base terms least =>
    have hsum : SameWidth _ _ := @SameWidth.foldl terms e _ _ (.inl (rfl : base = base))
    dsimp only
    unfold SameWidth at hsum ⊢
    omega

/-! ## One turn -/

end GroupDesc

/-- What a turn of the loop comes to: an end, or an element's octets and what may still be spent. -/
inductive Turn where
  | stop (b : Budget)
  | go (octets : Bytes) (b : Budget)

namespace GroupDesc

variable {Sub : Type} (g : GroupDesc Sub)

/-- One turn, at octet `i` and element `idx`. -/
def turn (want : Option ℕ) (region : Bytes) (i idx : ℕ) (b : Budget) : Turn :=
  if i < region.length then
    if want.any (· ≤ idx) then .stop b
    else
      match b.spend_item with
      | none => .stop b
      | some b =>
        let total := g.elem_len (region.drop i)
        if total = 0 ∨ i + total > region.length then .stop b else .go (slice region i (i + total)) b
  else .stop b

/-- The turn as the code runs it. -/
def turn_checked (want : Option ℕ) (region : Bytes) (i idx : ℕ) (b : Budget) : Option Turn :=
  if i < region.length then
    if want.any (· ≤ idx) then some (.stop b)
    else
      match b.spend_item with
      | none => some (.stop b)
      | some b => do
        let front ← slice_checked region i region.length
        let total := g.elem_width front
        if total = 0 then some (.stop b)
        else do
          let stop ← add i total
          if stop > region.length then some (.stop b)
          else do
            let octets ← slice_checked region i stop
            some (.go octets b)
  else some (.stop b)

/-- The element a turn comes to, if it comes to one, starts and ends below `2 ^ 64`. -/
def TurnClear (want : Option ℕ) (region : Bytes) (i idx : ℕ) (b : Budget) : Prop :=
  i < region.length → want.any (· ≤ idx) = false → 0 < b.items →
    i + g.elem_width (region.drop i) < 2 ^ 64

instance (want : Option ℕ) (region : Bytes) (i idx : ℕ) (b : Budget) :
    Decidable (g.TurnClear want region i idx b) := by
  unfold TurnClear
  infer_instance

variable {g} {want : Option ℕ} {region : Bytes} {i idx : ℕ} {b : Budget}

theorem slice_to_end (hi : i ≤ region.length) :
    slice_checked region i region.length = some (region.drop i) := by
  rw [slice_checked_eq hi le_rfl, slice, List.take_length]

/-- A clear turn is made without overflow. -/
theorem turn_checked_of_clear (hlen : region.length < 2 ^ 63) (h : g.TurnClear want region i idx b) :
    g.turn_checked want region i idx b = some (g.turn want region i idx b) := by
  unfold turn_checked turn
  by_cases hi : i < region.length
  · rw [if_pos hi, if_pos hi]
    cases hwant : want.any (· ≤ idx) with
    | true => rw [if_pos rfl, if_pos rfl]
    | false =>
      rw [if_neg Bool.false_ne_true, if_neg Bool.false_ne_true]
      -- The sum is asked for only inside the region, while items are wanted and left.
      by_cases hitems : b.items = 0
      · rw [Budget.spend_item, if_pos hitems]
      · have hwidth := h hi hwant (Nat.pos_of_ne_zero hitems)
        have hsame := g.elem_width_same (region.drop i)
        unfold SameWidth USIZE_MAX at hsame
        rw [Budget.spend_item, if_neg hitems]
        dsimp only
        rw [some_bind (slice_to_end hi.le)]
        by_cases hzero : g.elem_width (region.drop i) = 0
        · rw [if_pos hzero, if_pos (.inl (by omega))]
        · rw [if_neg hzero, add_bind hwidth]
          by_cases hstop : i + g.elem_width (region.drop i) > region.length
          · rw [if_pos hstop, if_pos (.inr (by omega))]
          · have hequal : g.elem_width (region.drop i) = g.elem_len (region.drop i) := by omega
            rw [if_neg hstop, if_neg (by omega), hequal,
              some_bind (slice_checked_eq (by omega) (by omega))]
  · rw [if_neg hi, if_neg hi]

/-- One that is not clear overflows. -/
theorem turn_checked_of_not_clear (hlen : region.length < 2 ^ 63)
    (h : ¬g.TurnClear want region i idx b) :
    g.turn_checked want region i idx b = none := by
  unfold TurnClear at h
  push Not at h
  obtain ⟨hi, hwant, hitems, hwidth⟩ := h
  unfold turn_checked
  rw [if_pos hi, hwant, if_neg Bool.false_ne_true, Budget.spend_item, if_neg (by omega)]
  dsimp only
  rw [some_bind (slice_to_end hi.le), if_neg (by omega), add, fit, if_neg (by omega)]
  rfl

/-- A turn that goes on takes an item, and an element that lies in the region and has some width. -/
theorem turn_go {octets : Bytes} {b' : Budget} (h : g.turn want region i idx b = .go octets b') :
    0 < b.items ∧ b' = { b with items := b.items - 1 } ∧ 0 < octets.length ∧
      i + octets.length ≤ region.length ∧ octets = slice region i (i + octets.length) := by
  -- Along the guards of a turn, in the order of the source.
  unfold turn at h
  by_cases hi : i < region.length
  · rw [if_pos hi] at h
    cases hwant : want.any (· ≤ idx) with
    | true =>
      rw [hwant, if_pos rfl] at h
      cases h
    | false =>
      rw [hwant, if_neg Bool.false_ne_true] at h
      by_cases hitems : b.items = 0
      · rw [Budget.spend_item, if_pos hitems] at h
        cases h
      · rw [Budget.spend_item, if_neg hitems] at h
        dsimp only at h
        by_cases hstop : g.elem_len (region.drop i) = 0 ∨ i + g.elem_len (region.drop i) > region.length
        · rw [if_pos hstop] at h
          cases h
        · rw [if_neg hstop, Turn.go.injEq] at h
          obtain ⟨rfl, rfl⟩ := h
          have hlen : (slice region i (i + g.elem_len (region.drop i))).length =
              g.elem_len (region.drop i) := by
            rw [Packet.length_slice (by omega)]
            omega
          rw [hlen]
          exact ⟨by omega, rfl, by omega, by omega, rfl⟩
  · rw [if_neg hi] at h
    cases h

/-- A turn that ends the loop may have taken an item for nothing. -/
theorem turn_stop {b' : Budget} (h : g.turn want region i idx b = .stop b') :
    b'.items ≤ b.items ∧ b'.bytes = b.bytes := by
  -- By the guards of a turn; only the last ones have spent an item.
  unfold turn at h
  by_cases hi : i < region.length
  · rw [if_pos hi] at h
    cases hwant : want.any (· ≤ idx) with
    | true =>
      rw [hwant, if_pos rfl, Turn.stop.injEq] at h
      rw [← h]
      exact ⟨le_rfl, rfl⟩
    | false =>
      rw [hwant, if_neg Bool.false_ne_true] at h
      by_cases hitems : b.items = 0
      · rw [Budget.spend_item, if_pos hitems, Turn.stop.injEq] at h
        rw [← h]
        exact ⟨le_rfl, rfl⟩
      · rw [Budget.spend_item, if_neg hitems] at h
        dsimp only at h
        split at h
        · rw [Turn.stop.injEq] at h
          rw [← h]
          exact ⟨Nat.sub_le _ _, rfl⟩
        · cases h
  · rw [if_neg hi, Turn.stop.injEq] at h
    rw [← h]
    exact ⟨le_rfl, rfl⟩

end GroupDesc

/-! ## The loop by its turns -/

namespace GroupDesc

variable {Sub : Type} {g : GroupDesc Sub} {want : Option ℕ} {region : Bytes} {n i idx : ℕ}
  {b b' : Budget}

section

variable [Level Sub]

/-- The walk ends where a turn stops. -/
theorem visit_from_of_stop (h : g.turn want region i idx b = .stop b') :
    g.visit_from want region (n + 1) i idx b = ([], b') := by
  unfold turn at h
  -- The loop makes the turn's tests in the turn's order.
  rw [visit_from]
  by_cases hi : i < region.length
  · rw [if_pos hi] at h ⊢
    cases hwant : want.any (· ≤ idx) with
    | true =>
      rw [hwant, if_pos rfl, Turn.stop.injEq] at h
      rw [if_pos rfl, h]
    | false =>
      rw [hwant, if_neg Bool.false_ne_true] at h
      rw [if_neg Bool.false_ne_true]
      cases hspend : b.spend_item with
      | none =>
        rw [hspend, Turn.stop.injEq] at h
        rw [← h]
      | some spent =>
        rw [hspend] at h
        dsimp only at h ⊢
        split at h
        · rename_i hstop
          rw [if_pos hstop, Turn.stop.inj h]
        · cases h
  · rw [if_neg hi, Turn.stop.injEq] at h
    rw [if_neg hi, h]

/-- A turn that goes on visits its element and walks on behind it. -/
theorem visit_from_of_go {octets : Bytes} (h : g.turn want region i idx b = .go octets b') :
    g.visit_from want region (n + 1) i idx b =
      (⟨i, octets, (g.element octets idx b').1⟩ ::
          (g.visit_from want region n (i + g.stride octets.length) (idx + 1)
            (g.element octets idx b').2).1,
        (g.visit_from want region n (i + g.stride octets.length) (idx + 1)
          (g.element octets idx b').2).2) := by
  -- The guards of the turn are the walk's own.
  unfold turn at h
  rw [visit_from]
  by_cases hi : i < region.length
  · rw [if_pos hi] at h ⊢
    cases hwant : want.any (· ≤ idx) with
    | true =>
      rw [hwant, if_pos rfl] at h
      cases h
    | false =>
      rw [hwant, if_neg Bool.false_ne_true] at h
      rw [if_neg Bool.false_ne_true]
      cases hspend : b.spend_item with
      | none =>
        rw [hspend] at h
        cases h
      | some spent =>
        rw [hspend] at h
        dsimp only at h ⊢
        split at h
        · cases h
        · rename_i hstop
          rw [Turn.go.injEq] at h
          obtain ⟨rfl, rfl⟩ := h
          have hlen : (slice region i (i + g.elem_len (region.drop i))).length =
              g.elem_len (region.drop i) := by
            rw [Packet.length_slice (by omega)]
            omega
          rw [if_neg hstop, hlen]
  · rw [if_neg hi] at h
    cases h

end

/-- Where the budget is not used up, `region_len` stops where the walk does. -/
theorem measure_from_of_stop (h : g.turn want region i idx b = .stop b') (hleft : 0 < b'.items) :
    g.measure_from want region (n + 1) i idx = (i, idx) := by
  unfold turn at h
  rw [measure_from]
  -- Every way to stop but the spent item stops the measuring turn too.
  by_cases hi : i < region.length
  · rw [if_pos hi] at h ⊢
    cases hwant : want.any (· ≤ idx) with
    | true => rw [if_pos rfl]
    | false =>
      rw [hwant, if_neg Bool.false_ne_true] at h
      rw [if_neg Bool.false_ne_true]
      by_cases hitems : b.items = 0
      · rw [Budget.spend_item, if_pos hitems, Turn.stop.injEq] at h
        rw [← h, hitems] at hleft
        cases hleft
      · rw [Budget.spend_item, if_neg hitems] at h
        dsimp only at h ⊢
        split at h
        · rename_i hstop
          rw [if_pos hstop]
        · cases h
  · rw [if_neg hi]

/-- Measuring makes the same turns. -/
theorem measure_from_of_go {octets : Bytes} (h : g.turn want region i idx b = .go octets b') :
    g.measure_from want region (n + 1) i idx =
      g.measure_from want region n (i + g.stride octets.length) (idx + 1) := by
  -- And measuring's, which spends nothing.
  unfold turn at h
  rw [measure_from]
  by_cases hi : i < region.length
  · rw [if_pos hi] at h ⊢
    cases hwant : want.any (· ≤ idx) with
    | true =>
      rw [hwant, if_pos rfl] at h
      cases h
    | false =>
      rw [hwant, if_neg Bool.false_ne_true] at h
      rw [if_neg Bool.false_ne_true]
      cases hspend : b.spend_item with
      | none =>
        rw [hspend] at h
        cases h
      | some spent =>
        rw [hspend] at h
        dsimp only at h ⊢
        split at h
        · cases h
        · rename_i hstop
          rw [Turn.go.injEq] at h
          have hlen : octets.length = g.elem_len (region.drop i) := by
            rw [← h.1, Packet.length_slice (by omega)]
            omega
          rw [if_neg hstop, hlen]
  · rw [if_neg hi] at h
    cases h

end GroupDesc

end Wiry.Repeat
