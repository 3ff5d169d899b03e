/-
What the generators draw: every draw lies in its range, no step of one overflows, and a range whose
width divides `2 ^ 64` is covered.

The `_checked` definitions are the draws with each operation that a debug build checks made to
fail: subtraction, addition, multiplication, and an index into an alphabet or a pick list.
-/
import Wiry.Generate.Plan
import Wiry.Lib.Checked
import Wiry.Lib.Mixers

set_option autoImplicit false

namespace Wiry.Generate

open Checked (fit sub fit_bind sub_bind)

/-! ## One word -/

/-- The mixing of `next_u64`, of the state it has just stepped to. -/
def mixed (state : UInt64) : UInt64 :=
  let z := (state ^^^ (state >>> 30)) * 0xBF58476D1CE4E5B9
  let z := (z ^^^ (z >>> 27)) * 0x94D049BB133111EB
  z ^^^ (z >>> 31)

theorem next_u64_fst (rng : Rng) : rng.next_u64.1 = mixed (rng.state + 0x9E3779B97F4A7C15) := rfl

theorem next_u64_snd (rng : Rng) : rng.next_u64.2.state = rng.state + 0x9E3779B97F4A7C15 := rfl

/-- The mixer loses nothing. -/
theorem mixed_injective : Function.Injective mixed := by
  intro x y h
  -- The five steps are undone from the last one back.
  have hthird := Mixers.xor_shift_injective (k := 31) (by decide) h
  have hsecond := Mixers.mul_injective (b := 0x319642b2d24d8ec3) (by decide) hthird
  have hshift := Mixers.xor_shift_injective (k := 27) (by decide) hsecond
  have hfirst := Mixers.mul_injective (b := 0x96de1b173f119089) (by decide) hshift
  exact Mixers.xor_shift_injective (k := 30) (by decide) hfirst

/-- **Every word is a draw.** -/
theorem exists_next_u64 (drawn : UInt64) : ∃ rng : Rng, rng.next_u64.1 = drawn := by
  obtain ⟨state, hstate⟩ := Mixers.takes_every_value mixed_injective drawn
  refine ⟨⟨state - 0x9E3779B97F4A7C15⟩, ?_⟩
  rw [next_u64_fst, UInt64.sub_add_cancel, hstate]

/-- Every word is the second one of two draws. -/
theorem exists_second_u64 (drawn : UInt64) : ∃ rng : Rng, rng.next_u64.2.next_u64.1 = drawn := by
  obtain ⟨after, hafter⟩ := exists_next_u64 drawn
  refine ⟨⟨after.state - 0x9E3779B97F4A7C15⟩, ?_⟩
  rw [← hafter, next_u64_fst, next_u64_fst, next_u64_snd, UInt64.sub_add_cancel]

theorem next_u128_lt (rng : Rng) : rng.next_u128.1 < 2 ^ 128 := by
  have hhi : rng.next_u64.1.toNat <<< 64 < 2 ^ 128 := by
    rw [Nat.shiftLeft_eq]
    have hlt := rng.next_u64.1.toNat_lt
    omega
  have hlo : rng.next_u64.2.next_u64.1.toNat < 2 ^ 128 := by
    have hlt := rng.next_u64.2.next_u64.1.toNat_lt
    omega
  exact Nat.or_lt_two_pow hhi hlo

/-- What two words spell is the second one, modulo what divides `2 ^ 64`. -/
theorem next_u128_mod (rng : Rng) {n : ℕ} (hn : n ∣ 2 ^ 64) :
    rng.next_u128.1 % n = rng.next_u64.2.next_u64.1.toNat % n := by
  have hor : rng.next_u128.1 = 2 ^ 64 * rng.next_u64.1.toNat + rng.next_u64.2.next_u64.1.toNat := by
    rw [Nat.two_pow_add_eq_or_of_lt rng.next_u64.2.next_u64.1.toNat_lt, Nat.mul_comm,
      ← Nat.shiftLeft_eq]
    rfl
  rw [hor, Nat.add_mod, Nat.mod_eq_zero_of_dvd (hn.mul_right _), Nat.zero_add, Nat.mod_mod]

/-! ## Ranges -/

/-- `in_range` with every operation checked, and the narrowing to 64 bits too. -/
def Rng.in_range_checked (rng : Rng) (lo hi : UInt64) : Option (UInt64 × Rng) :=
  if hi ≤ lo then some (lo, rng)
  else do
    let span ← sub hi.toNat lo.toNat
    let (drawn, rng) := rng.next_u64
    if span = U64_MAX then some (drawn, rng)
    else do
      let width ← fit 64 (span + 1)
      let product ← fit 128 (drawn.toNat * width)
      let step ← fit 64 (product >>> 64)
      let n ← fit 64 (lo.toNat + step)
      some (UInt64.ofNat n, rng)

def Rng.in_range_wide_checked (rng : Rng) (lo hi : BitVec 128) : Option (ℕ × Rng) :=
  if hi ≤ lo then some (lo.toNat, rng)
  else do
    let span ← sub hi.toNat lo.toNat
    let (drawn, rng) := rng.next_u128
    if span = U128_MAX then some (drawn, rng)
    else do
      let width ← fit 128 (span + 1)
      let n ← fit 128 (lo.toNat + drawn % width)
      some (n, rng)

/-- The high half of a word times a width is less than the width. -/
theorem scaled_lt {drawn : ℕ} (hdrawn : drawn < 2 ^ 64) (span : ℕ) :
    (drawn * (span + 1)) >>> 64 < span + 1 := by
  rw [Nat.shiftRight_eq_div_pow, Nat.div_lt_iff_lt_mul (Nat.two_pow_pos 64), Nat.mul_comm]
  exact Nat.mul_lt_mul_of_pos_left hdrawn (Nat.succ_pos span)

/-- A range of more than one value takes one word. -/
theorem in_range_snd (rng : Rng) {lo hi : UInt64} (hlt : lo < hi) :
    (rng.in_range lo hi).2 = rng.next_u64.2 := by
  unfold Rng.in_range
  rw [if_neg (UInt64.not_le.2 hlt)]
  dsimp only
  split
  · rfl
  · rfl

/-- What `in_range` computes below the full range, in exact arithmetic. -/
theorem toNat_in_range (rng : Rng) {lo hi : UInt64} (hlt : lo < hi)
    (hspan : hi.toNat - lo.toNat ≠ U64_MAX) :
    (rng.in_range lo hi).1.toNat =
      lo.toNat + (rng.next_u64.1.toNat * (hi.toNat - lo.toNat + 1)) >>> 64 := by
  have hle : lo ≤ hi := UInt64.le_of_lt hlt
  have hnat := UInt64.lt_iff_toNat_lt.1 hlt
  have hhi := hi.toNat_lt
  have hstep := scaled_lt rng.next_u64.1.toNat_lt (hi.toNat - lo.toNat)
  have hsub : (hi - lo).toNat = hi.toNat - lo.toNat := UInt64.toNat_sub_of_le _ _ hle
  unfold Rng.in_range
  rw [if_neg (UInt64.not_le.2 hlt)]
  simp only [hsub, if_neg hspan]
  generalize (rng.next_u64.1.toNat * (hi.toNat - lo.toNat + 1)) >>> 64 = step at hstep
  rw [UInt64.toNat_add, UInt64.toNat_ofNat', Nat.mod_eq_of_lt (a := step) (by omega),
    Nat.mod_eq_of_lt (by omega)]

/-- The full range draws a whole word. -/
theorem in_range_full (rng : Rng) {lo hi : UInt64} (hlt : lo < hi)
    (hspan : hi.toNat - lo.toNat = U64_MAX) : rng.in_range lo hi = rng.next_u64 := by
  have hsub : (hi - lo).toNat = hi.toNat - lo.toNat :=
    UInt64.toNat_sub_of_le _ _ (UInt64.le_of_lt hlt)
  unfold Rng.in_range
  rw [if_neg (UInt64.not_le.2 hlt)]
  simp only [hsub, if_pos hspan]

/-- A draw lies between its bounds, both included. -/
theorem in_range_bounds (rng : Rng) {lo hi : UInt64} (hle : lo ≤ hi) :
    lo ≤ (rng.in_range lo hi).1 ∧ (rng.in_range lo hi).1 ≤ hi := by
  by_cases hlt : lo < hi
  · have hnat := UInt64.lt_iff_toNat_lt.1 hlt
    have hhi := hi.toNat_lt
    rw [UInt64.le_iff_toNat_le, UInt64.le_iff_toNat_le]
    by_cases hspan : hi.toNat - lo.toNat = U64_MAX
    · have hdrawn := (rng.in_range lo hi).1.toNat_lt
      unfold U64_MAX at hspan
      omega
    · have hstep := scaled_lt rng.next_u64.1.toNat_lt (hi.toNat - lo.toNat)
      rw [toNat_in_range rng hlt hspan]
      omega
  · have hge : hi ≤ lo := UInt64.not_lt.1 hlt
    have hval : (rng.in_range lo hi).1 = lo := by
      unfold Rng.in_range
      rw [if_pos hge]
    rw [hval]
    exact ⟨UInt64.le_refl _, hle⟩

/-- **No step of `in_range` overflows.** -/
theorem in_range_checked_eq (rng : Rng) (lo hi : UInt64) :
    rng.in_range_checked lo hi = some (rng.in_range lo hi) := by
  by_cases hge : hi ≤ lo
  · unfold Rng.in_range_checked Rng.in_range
    rw [if_pos hge, if_pos hge]
  -- A span of the whole width is handled apart; any other is at most `2 ^ 64 - 1` wide.
  · have hlt : lo < hi := UInt64.not_le.1 hge
    have hnat := UInt64.lt_iff_toNat_lt.1 hlt
    have hhi := hi.toNat_lt
    unfold Rng.in_range_checked
    rw [if_neg hge, sub_bind (Nat.le_of_lt hnat)]
    dsimp only
    by_cases hspan : hi.toNat - lo.toNat = U64_MAX
    · rw [in_range_full rng hlt hspan, if_pos hspan]
    · have hwidth : hi.toNat - lo.toNat + 1 < 2 ^ 64 := by
        unfold U64_MAX at hspan
        omega
      have hdrawn := rng.next_u64.1.toNat_lt
      -- the product of two words fits twice the width
      have hproduct : rng.next_u64.1.toNat * (hi.toNat - lo.toNat + 1) < 2 ^ 128 :=
        calc rng.next_u64.1.toNat * (hi.toNat - lo.toNat + 1)
            < 2 ^ 64 * 2 ^ 64 := Nat.mul_lt_mul'' hdrawn hwidth
          _ = 2 ^ 128 := (Nat.pow_add 2 64 64).symm
      have hstep := scaled_lt hdrawn (hi.toNat - lo.toNat)
      have hval := toNat_in_range rng hlt hspan
      rw [if_neg hspan, fit_bind hwidth, fit_bind hproduct]
      generalize (rng.next_u64.1.toNat * (hi.toNat - lo.toNat + 1)) >>> 64 = step at hstep hval
      have hsum : lo.toNat + step < 2 ^ 64 := by omega
      rw [fit_bind (Nat.lt_trans hstep hwidth), fit_bind hsum, ← hval, UInt64.ofNat_toNat,
        ← in_range_snd rng hlt]

/-! ## Wide ranges -/

theorem in_range_wide_of_lt (rng : Rng) {lo hi : BitVec 128} (hlt : lo < hi) :
    rng.in_range_wide lo hi =
      if hi.toNat - lo.toNat = U128_MAX then rng.next_u128
      else (lo.toNat + rng.next_u128.1 % (hi.toNat - lo.toNat + 1), rng.next_u128.2) := by
  unfold Rng.in_range_wide
  rw [if_neg (BitVec.not_le.2 hlt)]

/-- So does a draw of 128 bits. -/
theorem in_range_wide_bounds (rng : Rng) {lo hi : BitVec 128} (hle : lo ≤ hi) :
    lo.toNat ≤ (rng.in_range_wide lo hi).1 ∧ (rng.in_range_wide lo hi).1 ≤ hi.toNat := by
  by_cases hlt : lo < hi
  · have hnat := BitVec.lt_def.1 hlt
    have hhi := hi.isLt
    rw [in_range_wide_of_lt rng hlt]
    -- Over the whole width the draw is the value; else it is reduced first.
    by_cases hspan : hi.toNat - lo.toNat = U128_MAX
    · have hdrawn := next_u128_lt rng
      rw [if_pos hspan]
      unfold U128_MAX at hspan
      omega
    · have hmod : rng.next_u128.1 % (hi.toNat - lo.toNat + 1) < hi.toNat - lo.toNat + 1 :=
        Nat.mod_lt _ (Nat.succ_pos _)
      rw [if_neg hspan]
      dsimp only
      omega
  · have hge : hi ≤ lo := BitVec.not_lt.1 hlt
    have hval : (rng.in_range_wide lo hi).1 = lo.toNat := by
      unfold Rng.in_range_wide
      rw [if_pos hge]
    rw [hval]
    exact ⟨le_rfl, BitVec.le_def.1 hle⟩

/-- **No step of `in_range_wide` overflows.** -/
theorem in_range_wide_checked_eq (rng : Rng) (lo hi : BitVec 128) :
    rng.in_range_wide_checked lo hi = some (rng.in_range_wide lo hi) := by
  by_cases hge : hi ≤ lo
  · unfold Rng.in_range_wide_checked Rng.in_range_wide
    rw [if_pos hge, if_pos hge]
  · have hlt : lo < hi := BitVec.not_le.1 hge
    have hnat := BitVec.lt_def.1 hlt
    have hhi := hi.isLt
    rw [in_range_wide_of_lt rng hlt]
    unfold Rng.in_range_wide_checked
    rw [if_neg hge, sub_bind (Nat.le_of_lt hnat)]
    dsimp only
    by_cases hspan : hi.toNat - lo.toNat = U128_MAX
    · rw [if_pos hspan, if_pos hspan]
    · have hwidth : hi.toNat - lo.toNat + 1 < 2 ^ 128 := by
        unfold U128_MAX at hspan
        omega
      have hmod : rng.next_u128.1 % (hi.toNat - lo.toNat + 1) < hi.toNat - lo.toNat + 1 :=
        Nat.mod_lt _ (Nat.succ_pos _)
      have hsum : lo.toNat + rng.next_u128.1 % (hi.toNat - lo.toNat + 1) < 2 ^ 128 := by omega
      rw [if_neg hspan, if_neg hspan, fit_bind hwidth, fit_bind hsum]

/-! ## Coverage -/

/-- The word whose scaling is `k`, where the width divides `2 ^ 64`. -/
theorem scaled_exact {k width : ℕ} (hwidth : width ∣ 2 ^ 64) :
    (k * (2 ^ 64 / width) * width) >>> 64 = k := by
  rw [Nat.shiftRight_eq_div_pow, Nat.mul_assoc, Nat.div_mul_cancel hwidth]
  exact Nat.mul_div_cancel _ (by decide)

/-- **Every value of a range whose width divides `2 ^ 64` is drawn by some word.** -/
theorem exists_in_range {lo hi v : UInt64} (hlo : lo ≤ v) (hhi : v ≤ hi)
    (hwidth : hi.toNat - lo.toNat + 1 ∣ 2 ^ 64) : ∃ rng : Rng, (rng.in_range lo hi).1 = v := by
  have hlov := UInt64.le_iff_toNat_le.1 hlo
  have hvhi := UInt64.le_iff_toNat_le.1 hhi
  -- A width that divides `2 ^ 64` is reached by the word at the start of the value's share.
  by_cases hlt : lo < hi
  · by_cases hspan : hi.toNat - lo.toNat = U64_MAX
    · obtain ⟨rng, hrng⟩ := exists_next_u64 v
      refine ⟨rng, ?_⟩
      rw [in_range_full rng hlt hspan, hrng]
    · have hquot : 0 < 2 ^ 64 / (hi.toNat - lo.toNat + 1) :=
        Nat.div_pos (Nat.le_of_dvd (by decide) hwidth) (Nat.succ_pos _)
      -- that word is one: the share lies under `2 ^ 64`
      have hword : (v.toNat - lo.toNat) * (2 ^ 64 / (hi.toNat - lo.toNat + 1)) < 2 ^ 64 := by
        calc (v.toNat - lo.toNat) * (2 ^ 64 / (hi.toNat - lo.toNat + 1))
            < (hi.toNat - lo.toNat + 1) * (2 ^ 64 / (hi.toNat - lo.toNat + 1)) :=
              Nat.mul_lt_mul_of_pos_right (by omega) hquot
          _ = 2 ^ 64 := Nat.mul_div_cancel' hwidth
      obtain ⟨rng, hrng⟩ := exists_next_u64
        (UInt64.ofNat ((v.toNat - lo.toNat) * (2 ^ 64 / (hi.toNat - lo.toNat + 1))))
      refine ⟨rng, ?_⟩
      apply UInt64.toNat_inj.1
      rw [toNat_in_range rng hlt hspan, hrng, UInt64.toNat_ofNat', Nat.mod_eq_of_lt hword,
        scaled_exact hwidth]
      omega
  · have hge : hi ≤ lo := UInt64.not_lt.1 hlt
    refine ⟨⟨0⟩, ?_⟩
    unfold Rng.in_range
    rw [if_pos hge]
    exact UInt64.le_antisymm hlo (UInt64.le_trans hhi hge)

/-- Below 128 bits the second word alone covers such a range. -/
theorem exists_in_range_wide {lo hi v : BitVec 128} (hlo : lo ≤ v) (hhi : v ≤ hi)
    (hwidth : hi.toNat - lo.toNat + 1 ∣ 2 ^ 64) :
    ∃ rng : Rng, (rng.in_range_wide lo hi).1 = v.toNat := by
  have hlov := BitVec.le_def.1 hlo
  have hvhi := BitVec.le_def.1 hhi
  have hle := Nat.le_of_dvd (by decide) hwidth
  by_cases hlt : lo < hi
  · have hspan : hi.toNat - lo.toNat ≠ U128_MAX := by
      unfold U128_MAX
      omega
    -- the low half of the draw decides, the width dividing it
    obtain ⟨rng, hrng⟩ := exists_second_u64 (UInt64.ofNat (v.toNat - lo.toNat))
    refine ⟨rng, ?_⟩
    rw [in_range_wide_of_lt rng hlt, if_neg hspan]
    dsimp only
    rw [next_u128_mod rng hwidth, hrng, UInt64.toNat_ofNat',
      Nat.mod_eq_of_lt (a := v.toNat - lo.toNat) (by omega), Nat.mod_eq_of_lt (by omega)]
    omega
  · have hge : hi ≤ lo := BitVec.not_lt.1 hlt
    refine ⟨⟨0⟩, ?_⟩
    unfold Rng.in_range_wide
    rw [if_pos hge]
    have hhilo := BitVec.le_def.1 hge
    dsimp only
    omega

/-! ## Indices -/

/-- The loop of `RandBytes` with its index checked. -/
def rand_bytes_checked (alphabet : Option (List UInt8)) : ℕ → Rng → Option (List UInt8 × Rng)
  | 0, rng => some ([], rng)
  | n + 1, rng => do
    let (o, rng) ←
      match alphabet with
      | some (a :: rest) => do
        let (i, rng) ← rng.in_range_checked 0 (UInt64.ofNat rest.length)
        let o ← (a :: rest)[i.toNat]?
        some (o, rng)
      | _ =>
        let (drawn, rng) := rng.next_u64
        some (drawn.toUInt8, rng)
    let (out, rng) ← rand_bytes_checked alphabet n rng
    some (o :: out, rng)

mutual

/-- `Gen.at` with its draws and its indices checked. -/
def Gen.at_checked : Gen → ℕ → Rng → Option (GenVal × Rng)
  | .One v, index, rng => some ((Gen.One v).at index rng)
  | .Range lo hi, index, rng => some ((Gen.Range lo hi).at index rng)
  | .Addrs lo hi width, index, rng => some ((Gen.Addrs lo hi width).at index rng)
  | .Seq parts, index, rng => do
    match ← at_part_checked parts index rng with
    | some r => some r
    | none => do
      let last ← at_last_checked parts rng
      some (last.getD (.Uint 0, rng))
  | .RandNum lo hi, _, rng => do
    let (n, rng) ← rng.in_range_checked lo hi
    some (.Uint n, rng)
  | .RandAddr lo hi width, _, rng => do
    let (n, rng) ← rng.in_range_wide_checked lo hi
    some (addr_val n width, rng)
  | .RandBytes lo hi alphabet, _, rng => do
    let (n, rng) ← rng.in_range_checked lo hi
    let (out, rng) ← rand_bytes_checked alphabet n.toNat rng
    some (.Bytes out, rng)
  | .RandPick vals, _, rng =>
    match vals with
    | [] => some (.Uint 0, rng)
    | v :: rest => do
      let (i, rng) ← rng.in_range_checked 0 (UInt64.ofNat rest.length)
      let picked ← (v :: rest)[i.toNat]?
      some (picked, rng)

def at_part_checked : List Gen → ℕ → Rng → Option (Option (GenVal × Rng))
  | [], _, _ => some none
  | g :: parts, left, rng =>
    if left < g.count then (g.at_checked left rng).map some
    else do
      let left ← sub left g.count
      at_part_checked parts left rng

def at_last_checked : List Gen → Rng → Option (Option (GenVal × Rng))
  | [], _ => some none
  | [g], rng => (g.at_checked 0 rng).map some
  | _ :: g :: parts, rng => at_last_checked (g :: parts) rng

end

/-- A draw from nothing up to the last index is an index. -/
theorem getElem?_in_range {α : Type} (x : α) (rest : List α) (d : α) (rng : Rng) :
    (x :: rest)[(rng.in_range 0 (UInt64.ofNat rest.length)).1.toNat]? =
      some ((x :: rest).getD (rng.in_range 0 (UInt64.ofNat rest.length)).1.toNat d) := by
  have hbound := (in_range_bounds rng (UInt64.zero_le (a := UInt64.ofNat rest.length))).2
  rw [UInt64.le_iff_toNat_le, UInt64.toNat_ofNat'] at hbound
  have hmod := Nat.mod_le rest.length (2 ^ 64)
  have hlt : (rng.in_range 0 (UInt64.ofNat rest.length)).1.toNat < (x :: rest).length := by
    rw [List.length_cons]
    omega
  rw [List.getD_eq_getElem?_getD, List.getElem?_eq_getElem hlt, Option.getD_some]

/-- No index of the alphabet is out of bounds. -/
theorem rand_bytes_checked_eq (alphabet : Option (List UInt8)) (n : ℕ) (rng : Rng) :
    rand_bytes_checked alphabet n rng = some (rand_bytes alphabet n rng) := by
  induction n generalizing rng with
  | zero => rfl
  | succ n ih =>
    unfold rand_bytes_checked rand_bytes
    match alphabet with
    | none =>
      simp only [Option.bind_eq_bind, Option.bind_some, ih]
    | some [] =>
      simp only [Option.bind_eq_bind, Option.bind_some, ih]
    | some (a :: rest) =>
      dsimp only
      rw [in_range_checked_eq]
      simp only [Option.bind_eq_bind, Option.bind_some, getElem?_in_range a rest 0 rng, ih]

mutual

/-- **`Gen::at` never overflows and never indexes outside an alphabet or a pick list.** -/
theorem at_checked_eq (g : Gen) (index : ℕ) (rng : Rng) :
    g.at_checked index rng = some (g.at index rng) := by
  -- Only a sequence and the random generators compute; each by its own checked sum.
  cases g with
  | One v => rw [Gen.at_checked]
  | Range lo hi => rw [Gen.at_checked]
  | Addrs lo hi width => rw [Gen.at_checked]
  | Seq parts =>
    rw [Gen.at_checked, Gen.at, at_part_checked_eq, at_last_checked_eq]
    cases at_part parts index rng with
    | none => rfl
    | some r => rfl
  | RandNum lo hi =>
    rw [Gen.at_checked, Gen.at, in_range_checked_eq]
    rfl
  | RandAddr lo hi width =>
    rw [Gen.at_checked, Gen.at, in_range_wide_checked_eq]
    rfl
  | RandBytes lo hi alphabet =>
    rw [Gen.at_checked, Gen.at, in_range_checked_eq]
    simp only [Option.bind_eq_bind, Option.bind_some, rand_bytes_checked_eq]
  | RandPick vals =>
    cases vals with
    | nil => rw [Gen.at_checked, Gen.at]
    | cons v rest =>
      rw [Gen.at_checked, Gen.at]
      simp only [in_range_checked_eq, Option.bind_eq_bind, Option.bind_some,
        getElem?_in_range v rest v rng]

theorem at_part_checked_eq (parts : List Gen) (left : ℕ) (rng : Rng) :
    at_part_checked parts left rng = some (at_part parts left rng) := by
  cases parts with
  | nil => rw [at_part_checked, at_part]
  | cons g parts =>
    rw [at_part_checked, at_part]
    by_cases hleft : left < g.count
    · rw [if_pos hleft, if_pos hleft, at_checked_eq g left rng, Option.map_some]
    · rw [if_neg hleft, if_neg hleft, sub_bind (by omega)]
      exact at_part_checked_eq parts (left - g.count) rng

theorem at_last_checked_eq (parts : List Gen) (rng : Rng) :
    at_last_checked parts rng = some (at_last parts rng) := by
  match parts with
  | [] => rw [at_last_checked, at_last]
  | [g] => rw [at_last_checked, at_last, at_checked_eq g 0 rng, Option.map_some]
  | _ :: g :: parts =>
    rw [at_last_checked, at_last]
    exact at_last_checked_eq (g :: parts) rng

end

/-! ## What is drawn -/

/-- **Draws stay in their ranges, without overflow, cover a range whose width divides `2 ^ 64`, and
index only what is there.** -/
theorem draws_in_range :
    (∀ (rng : Rng) (lo hi : UInt64), lo ≤ hi →
      (lo ≤ (rng.in_range lo hi).1 ∧ (rng.in_range lo hi).1 ≤ hi) ∧
      rng.in_range_checked lo hi = some (rng.in_range lo hi)) ∧
    (∀ (rng : Rng) (lo hi : BitVec 128), lo ≤ hi →
      (lo.toNat ≤ (rng.in_range_wide lo hi).1 ∧ (rng.in_range_wide lo hi).1 ≤ hi.toNat) ∧
      rng.in_range_wide_checked lo hi = some (rng.in_range_wide lo hi)) ∧
    (∀ lo hi v : UInt64, lo ≤ v → v ≤ hi → hi.toNat - lo.toNat + 1 ∣ 2 ^ 64 →
      ∃ rng : Rng, (rng.in_range lo hi).1 = v) ∧
    (∀ lo hi v : BitVec 128, lo ≤ v → v ≤ hi → hi.toNat - lo.toNat + 1 ∣ 2 ^ 64 →
      ∃ rng : Rng, (rng.in_range_wide lo hi).1 = v.toNat) ∧
    ∀ (g : Gen) (index : ℕ) (rng : Rng), g.at_checked index rng = some (g.at index rng) := by
  refine ⟨?_, ?_, ?_, ?_, at_checked_eq⟩
  · intro rng lo hi hle
    exact ⟨in_range_bounds rng hle, in_range_checked_eq rng lo hi⟩
  · intro rng lo hi hle
    exact ⟨in_range_wide_bounds rng hle, in_range_wide_checked_eq rng lo hi⟩
  · intro lo hi v hlo hhi hwidth
    exact exists_in_range hlo hhi hwidth
  · intro lo hi v hlo hhi hwidth
    exact exists_in_range_wide hlo hhi hwidth

/-- The widest range there is, one of four ports, and the widest range of addresses. -/
theorem draws_in_range_witness :
    (Rng.in_range_checked ⟨7⟩ 0 18446744073709551615 = some (Rng.in_range ⟨7⟩ 0 18446744073709551615)) ∧
    (∃ rng : Rng, (rng.in_range 80 83).1 = 82) ∧
    (Rng.in_range_wide ⟨7⟩ 0 (BitVec.allOnes 128)).1 ≤ (BitVec.allOnes 128).toNat ∧
    ∃ rng : Rng, (rng.in_range_wide 80#128 83#128).1 = 82 :=
  ⟨(draws_in_range.1 ⟨7⟩ 0 18446744073709551615 (by decide)).2,
    draws_in_range.2.2.1 80 83 82 (by decide) (by decide) (by decide),
    (draws_in_range.2.1 ⟨7⟩ 0 (BitVec.allOnes 128) (by decide)).1.2,
    draws_in_range.2.2.2.1 80#128 83#128 82#128 (by decide) (by decide) (by decide)⟩

end Wiry.Generate
