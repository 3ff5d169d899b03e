/-
The pieces a split visits: they cut the payload up, start on a boundary of the
unit, and are no more than a group may hold.

The two splitters share them, so what is said of the pieces is said once: they
come one behind the other (`cuts_from_pairwise`), every octet is in one of them
(`cuts_from_all`), and their number is bounded by the units of the payload
(`length_cuts_from`).
-/
import Wiry.Frag.Rejoin

set_option autoImplicit false

namespace Wiry.Frag

open Wiry.Packet

variable {unit len n at_ : ℕ}

/-- A piece is as long as the unit, or reaches the end. -/
theorem mem_cuts_from (hunit : 0 < unit) {c : ℕ × ℕ} (h : c ∈ cuts_from unit len n at_) :
    at_ ≤ c.1 ∧ c.1 < len ∧ c.2 = min unit (len - c.1) ∧ unit ∣ c.1 - at_ := by
  induction n generalizing at_ with
  | zero => exact absurd h List.not_mem_nil
  | succ n ih =>
    rw [cuts_from] at h
    by_cases hlt : at_ < len
    · rw [if_pos hlt] at h
      rcases List.mem_cons.1 h with rfl | h
      · exact ⟨le_rfl, hlt, rfl, by simp⟩
      · obtain ⟨hle, hend, hlen, d, hd⟩ := ih h
        -- there is a next piece only where this one is as long as the unit
        have hfull : min unit (len - at_) = unit := by omega
        rw [hfull] at hle hd
        refine ⟨by omega, hend, hlen, d + 1, ?_⟩
        rw [Nat.mul_succ]
        omega
    · rw [if_neg hlt] at h
      exact absurd h List.not_mem_nil

theorem cuts_from_pairwise (hunit : 0 < unit) :
    (cuts_from unit len n at_).Pairwise fun c d => c.1 + c.2 ≤ d.1 := by
  induction n generalizing at_ with
  | zero => exact List.Pairwise.nil
  | succ n ih =>
    rw [cuts_from]
    by_cases hlt : at_ < len
    · rw [if_pos hlt, List.pairwise_cons]
      exact ⟨fun d hd => (mem_cuts_from hunit hd).1, ih⟩
    · rw [if_neg hlt]
      exact List.Pairwise.nil

theorem cuts_from_all (hunit : 0 < unit) (hn : len - at_ ≤ n) {i : ℕ} (hi : at_ ≤ i)
    (hlen : i < len) : ∃ c ∈ cuts_from unit len n at_, c.1 ≤ i ∧ i < c.1 + c.2 := by
  induction n generalizing at_ with
  | zero => omega
  | succ n ih =>
    rw [cuts_from, if_pos (by omega)]
    by_cases hin : i < at_ + min unit (len - at_)
    · exact ⟨_, List.mem_cons_self, hi, hin⟩
    · obtain ⟨c, hc, hic⟩ := ih (by omega) (Nat.le_of_not_lt hin)
      exact ⟨c, List.mem_cons_of_mem _ hc, hic⟩

/-- There are no more pieces than units, the last one rounded up. -/
theorem length_cuts_from (hunit : 0 < unit) :
    (cuts_from unit len n at_).length * unit < len - at_ + unit := by
  induction n generalizing at_ with
  | zero =>
    rw [cuts_from, List.length_nil, Nat.zero_mul]
    omega
  | succ n ih =>
    rw [cuts_from]
    by_cases hlt : at_ < len
    · have hrest := @ih (at_ + min unit (len - at_))
      rw [if_pos hlt, List.length_cons, Nat.succ_mul]
      by_cases hfull : unit ≤ len - at_
      · rw [Nat.min_eq_left hfull] at hrest ⊢
        omega
      · -- the last piece: nothing is left behind it
        have hnil : (cuts_from unit len n (at_ + min unit (len - at_))).length * unit = 0 := by
          have hstop : ¬ at_ + min unit (len - at_) < len := by omega
          cases n with
          | zero => rw [cuts_from, List.length_nil, Nat.zero_mul]
          | succ n => rw [cuts_from, if_neg hstop, List.length_nil, Nat.zero_mul]
        omega
    · rw [if_neg hlt, List.length_nil, Nat.zero_mul]
      omega

/-- The pieces of a split cut its payload. -/
theorem cuts_cut (hunit : 0 < unit) (P : Bytes) : Cut P (cuts unit P.length) where
  inside c hc := by
    obtain ⟨-, hend, hlen, -⟩ := mem_cuts_from hunit hc
    exact ⟨by omega, by omega⟩
  apart := (cuts_from_pairwise hunit).imp fun hle => .inl hle
  all i hi := cuts_from_all hunit (by omega) (Nat.zero_le i) hi

/-- Pieces start on boundaries of eight octets where the unit is so many. -/
theorem dvd_of_mem_cuts (hunit : 0 < unit) (hdvd : 8 ∣ unit) {c : ℕ × ℕ} (h : c ∈ cuts unit len) :
    8 ∣ c.1 := by
  obtain ⟨-, -, -, hd⟩ := mem_cuts_from hunit h
  exact Nat.dvd_trans hdvd hd

/-- The only piece at zero is the first. -/
theorem cut_zero (hunit : 0 < unit) (hlen : unit < len) {c : ℕ × ℕ} (h : c ∈ cuts unit len)
    (hc : c.1 = 0) : c = (0, unit) := by
  obtain ⟨-, -, hn, -⟩ := mem_cuts_from hunit h
  rw [hc, Nat.sub_zero, Nat.min_eq_left (Nat.le_of_lt hlen)] at hn
  exact Prod.ext hc hn

/-- A datagram has no more pieces than are taken. -/
theorem length_cuts (hunit : 8 ≤ unit) (hlen : len ≤ MAX_DATAGRAM + 1) :
    (cuts unit len).length ≤ MAX_FRAGS := by
  have hmul : (cuts_from unit len len 0).length * unit < len - 0 + unit :=
    length_cuts_from (by omega)
  unfold cuts
  generalize (cuts_from unit len len 0).length = m at hmul ⊢
  unfold MAX_DATAGRAM at hlen
  unfold MAX_FRAGS
  by_contra hmany
  have h8193 : 8193 * unit ≤ m * unit := Nat.mul_le_mul_right _ (by omega)
  omega

end Wiry.Frag
