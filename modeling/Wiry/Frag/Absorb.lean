/-
What `Group::absorb` does: a payload is added to the positions a group holds, and
an octet is written only where no earlier fragment claimed it.

The ranges held are a `SortedMap`, kept apart by `Separated`. The code merges
at most one range below the new one and then any number above it; `AbsorbInv`
is the invariant of both steps, and says of every position whether it is
covered so far and whose octet stands there. Its induction is on the turns,
which the number of ranges bounds.
-/
import Wiry.Frag.Group

set_option autoImplicit false

namespace Wiry.Frag

open Wiry.Packet SortedMap

/-! ## Octets copied -/

theorem length_resized (data : Bytes) (end_ : ℕ) :
    (resized data end_).length = max data.length end_ := by
  unfold resized
  rw [List.length_append, List.length_replicate]
  omega

theorem resized_getElem? (data : Bytes) (end_ p : ℕ) :
    (resized data end_)[p]? = if p < data.length then data[p]?
      else if p < end_ then some 0 else none := by
  unfold resized
  by_cases hp : p < data.length
  · rw [List.getElem?_append_left hp, if_pos hp]
  · rw [List.getElem?_append_right (Nat.le_of_not_lt hp), if_neg hp, List.getElem?_replicate]
    by_cases hend : p < end_
    · rw [if_pos (by omega), if_pos hend]
    · rw [if_neg (by omega), if_neg hend]

section CopyUpto

variable {data src : Bytes} {start from_ upto : ℕ}

theorem length_copy_source (hstart : start ≤ from_) (hsrc : upto ≤ start + src.length)
    (hlt : from_ < upto) : (slice src (from_ - start) (upto - start)).length = upto - from_ := by
  rw [length_slice (by omega)]
  omega

/-- Copying keeps its length. -/
theorem length_copy_upto (hstart : start ≤ from_) (hsrc : upto ≤ start + src.length)
    (hdata : upto ≤ data.length) : (copy_upto data src start from_ upto).length = data.length := by
  unfold copy_upto
  split
  · rename_i hlt
    apply length_put
    rw [length_copy_source hstart hsrc hlt]
    omega
  · rfl

/-- A copy writes the payload's own octets, and only where it is told to. -/
theorem copy_upto_getElem? (hstart : start ≤ from_) (hsrc : upto ≤ start + src.length)
    (hdata : upto ≤ data.length) (p : ℕ) :
    (copy_upto data src start from_ upto)[p]? =
      if from_ ≤ p ∧ p < upto then src[p - start]? else data[p]? := by
  unfold copy_upto
  split
  · rename_i hlt
    have hlen : (slice src (from_ - start) (upto - start)).length = upto - from_ :=
      length_copy_source hstart hsrc hlt
    rw [put_getElem? (by omega), hlen]
    by_cases hp : from_ ≤ p ∧ p < upto
    · rw [if_pos (by omega), if_pos hp, slice_getElem?, if_pos (by omega)]
      congr 1
      omega
    · rw [if_neg (by omega), if_neg hp]
  · rw [if_neg (by omega)]

end CopyUpto

/-! ## The loop -/

/-- What the loop of `absorb` keeps, against the ranges and the octets it started from. -/
structure AbsorbInv (got : SortedMap ℕ ℕ) (data src : Bytes) (start : ℕ) (s : Absorbing) : Prop where
  separated : s.got.Separated
  left : ∀ x ∈ s.got.entries, x ∈ got.entries
  lo_le : s.lo ≤ start
  start_le : start ≤ s.at_
  hi_eq : s.hi = max (start + src.length) s.at_
  /-- A range left ends before the one being built starts, or starts past what was copied. -/
  beside : ∀ x ∈ s.got.entries, x.2 < s.lo ∨ s.at_ < x.1
  covered : ∀ p, Covered s.got p ∨ s.lo ≤ p ∧ p < s.at_ ↔
    Covered got p ∨ start ≤ p ∧ p < min s.at_ (start + src.length)
  length_eq : s.data.length = data.length
  octets : ∀ p, ¬ (start ≤ p ∧ p < min s.at_ (start + src.length) ∧ ¬ Covered got p) →
    s.data[p]? = data[p]?
  copied : ∀ p, start ≤ p → p < min s.at_ (start + src.length) → ¬ Covered got p →
    s.data[p]? = src[p - start]?

variable {got : SortedMap ℕ ℕ} {data src : Bytes} {start : ℕ}

/-- What is not yet copied and lies below every range left is held by none of the ranges the group
started with. -/
theorem AbsorbInv.not_covered {s : Absorbing} (h : AbsorbInv got data src start s) {p : ℕ}
    (hp : s.at_ ≤ p) (hbelow : ∀ x ∈ s.got.entries, s.at_ < x.1 → p < x.1) : ¬ Covered got p := by
  intro hcov
  rcases (h.covered p).2 (.inl hcov) with ⟨x, hx, hxp⟩ | ⟨-, hlt⟩
  · have hlo := h.lo_le
    have hat := h.start_le
    rcases h.beside x hx with hlow | hhigh
    · omega
    · have := hbelow x hx hhigh
      omega
  · omega

/-- The ranges below the new one: those that reach it are merged, and their octets win. -/
theorem absorb_below_inv (hgot : got.Separated) :
    AbsorbInv got data src start (absorb_below got data start (start + src.length)) := by
  -- nothing is swallowed: the ranges below end before the payload starts
  have hnone : (∀ x ∈ got.entries, x.1 ≤ start → x.2 < start) →
      AbsorbInv got data src start ⟨start, start + src.length, start, got, data⟩ := by
    intro hlow
    refine ⟨hgot, fun _ h => h, le_rfl, le_rfl, ?_, ?_, ?_, rfl, fun _ _ => rfl, ?_⟩
    · exact (Nat.max_eq_left (Nat.le_add_right _ _)).symm
    · intro x hx
      rcases Nat.lt_or_ge start x.1 with hlt | hge
      · exact .inr hlt
      · exact .inl (hlow x hx hge)
    · intro p
      dsimp only
      constructor
      · rintro (hc | hp)
        · exact .inl hc
        · omega
      · rintro (hc | hp)
        · exact .inl hc
        · omega
    · intro p hp hlt
      dsimp only at hlt
      omega
  unfold absorb_below
  cases hfloor : got.floor start with
  | none =>
    apply hnone
    intro x hx hle
    have := floor_eq_none hfloor x hx
    omega
  | some x =>
    obtain ⟨a, b⟩ := x
    obtain ⟨hmem, hle, hmax⟩ := floor_eq_some hfloor
    dsimp only at hle hmax ⊢
    by_cases hb : b ≥ start
    · -- the range below reaches the payload, and becomes its lower part
      rw [if_pos hb]
      have hbeside : ∀ x ∈ (got.remove a).entries, x.2 < a ∨ b < x.1 := by
        intro x hx
        obtain ⟨hx, hkey⟩ := mem_remove.1 hx
        exact hgot.either hx hmem fun heq => hkey (congrArg Prod.fst heq)
      have hmaxb : max start b = b := Nat.max_eq_right hb
      refine ⟨hgot.remove a, fun x hx => (mem_remove.1 hx).1, hle, Nat.le_max_left _ _, ?_, ?_, ?_, rfl,
        fun _ _ => rfl, ?_⟩
      · dsimp only
        omega
      · rw [hmaxb]
        exact hbeside
      · intro p
        rw [hmaxb, hgot.covered_remove hmem p]
        dsimp only
        constructor
        · rintro (hc | hp)
          · exact .inl (.inl hc)
          · exact .inl (.inr hp)
        · rintro ((hc | hp) | hp)
          · exact .inl hc
          · exact .inr hp
          · exact .inr (by omega)
      · intro p hp hlt hfree
        exact absurd ⟨(a, b), hmem, by dsimp only; omega, by dsimp only at hlt ⊢; omega⟩ hfree
    · rw [if_neg hb]
      apply hnone
      intro x hx hxle
      rcases eq_or_ne x (a, b) with rfl | hne
      · dsimp only
        omega
      · rcases hgot.either hx hmem hne with hlt | hlt
        · have := hmax x hx hxle
          dsimp only at hlt
          omega
        · have := hmax x hx hxle
          have := hgot.ordered _ hmem
          dsimp only at *
          omega

/-- One turn: the least range that starts inside the payload is swallowed. -/
theorem AbsorbInv.turn {s : Absorbing} (h : AbsorbInv got data src start s)
    (hroom : start + src.length ≤ data.length) {a b : ℕ}
    (hceil : s.got.ceil start = some (a, b)) (hin : a ≤ start + src.length) :
    AbsorbInv got data src start
      { s with
        data := copy_upto s.data src start s.at_ (min a (start + src.length))
        at_ := max s.at_ b
        hi := max s.hi b
        got := s.got.remove a } := by
  obtain ⟨hmem, hle, hmin⟩ := ceil_eq_some hceil
  dsimp only at hle hmin
  have hlo := h.lo_le
  have hat := h.start_le
  have hab : a ≤ b := h.separated.ordered _ hmem
  -- the range found lies past what was copied
  have hpast : s.at_ < a := by
    rcases h.beside _ hmem with hlow | hhigh
    · dsimp only at hlow
      omega
    · exact hhigh
  have hmaxb : max s.at_ b = b := Nat.max_eq_right (by omega)
  have hmina : min a (start + src.length) = a := Nat.min_eq_left hin
  have hdata := h.length_eq
  -- and nothing lies between
  have hgap : ∀ p, s.at_ ≤ p → p < a → ¬ Covered got p := by
    intro p hp hpa
    apply h.not_covered hp
    intro x hx hxat
    have := hmin x hx (by omega)
    omega
  rw [hmina, hmaxb]
  have hcopy : ∀ p, (copy_upto s.data src start s.at_ a)[p]? =
      if s.at_ ≤ p ∧ p < a then src[p - start]? else s.data[p]? :=
    fun p => copy_upto_getElem? hat hin (by omega) p
  refine ⟨h.separated.remove a, fun x hx => h.left x (mem_remove.1 hx).1, hlo,
    by dsimp only; omega, ?_, ?_, ?_, ?_, ?_, ?_⟩
  · have := h.hi_eq
    dsimp only
    omega
  · intro x hx
    obtain ⟨hx, hkey⟩ := mem_remove.1 hx
    rcases h.beside x hx with hlow | hhigh
    · exact .inl hlow
    · right
      have hax := hmin x hx (by omega)
      rcases h.separated.either hx hmem fun heq => hkey (congrArg Prod.fst heq) with hlt | hlt
      · have := h.separated.ordered x hx
        dsimp only at hlt
        omega
      · exact hlt
  · intro p
    have hold := h.covered p
    have hrem := h.separated.covered_remove hmem p
    dsimp only
    constructor
    · rintro (hc | ⟨hlop, hpb⟩)
      · rcases hold.1 (.inl (hrem.2 (.inl hc))) with hc | hp
        · exact .inl hc
        · exact .inr (by omega)
      · by_cases hpat : p < s.at_
        · rcases hold.1 (.inr ⟨hlop, hpat⟩) with hc | hp
          · exact .inl hc
          · exact .inr (by omega)
        · by_cases hpa : p < a
          · exact .inr (by omega)
          · rcases hold.1 (.inl (hrem.2 (.inr ⟨by omega, hpb⟩))) with hc | hp
            · exact .inl hc
            · omega
    · rintro (hc | hp)
      · rcases hold.2 (.inl hc) with hc | hp
        · rcases hrem.1 hc with hc | hp
          · exact .inl hc
          · exact .inr (by omega)
        · exact .inr (by omega)
      · exact .inr (by omega)
  · dsimp only
    rw [length_copy_upto hat hin (by omega)]
    exact hdata
  · intro p hp
    dsimp only at hp ⊢
    rw [hcopy p]
    by_cases hin' : s.at_ ≤ p ∧ p < a
    · exact absurd ⟨by omega, by omega, hgap p hin'.1 hin'.2⟩ hp
    · rw [if_neg hin']
      apply h.octets
      rintro ⟨hsp, hlt, hfree⟩
      exact hp ⟨hsp, by omega, hfree⟩
  · intro p hsp hlt hfree
    dsimp only at hlt ⊢
    rw [hcopy p]
    by_cases hin' : s.at_ ≤ p ∧ p < a
    · rw [if_pos hin']
    · rw [if_neg hin']
      apply h.copied p hsp _ hfree
      by_contra hnot
      -- what lies past the gap is the range's own
      rcases (h.covered p).1 (.inl ⟨(a, b), hmem, by dsimp only; omega, by dsimp only; omega⟩)
        with hc | hp
      · exact hfree hc
      · omega

/-- The loop keeps its invariant, and with a turn for each range it ends for want of one. -/
theorem absorb_loop_inv (hroom : start + src.length ≤ data.length) (n : ℕ) (s : Absorbing)
    (h : AbsorbInv got data src start s) (hfuel : s.got.length ≤ n) :
    AbsorbInv got data src start (absorb_loop src start (start + src.length) n s) ∧
      ∀ x ∈ (absorb_loop src start (start + src.length) n s).got.entries,
        start ≤ x.1 → start + src.length < x.1 := by
  -- By the fuel, which the ranges still held bound: each turn removes one.
  induction n generalizing s with
  | zero =>
    refine ⟨h, fun x hx _ => ?_⟩
    -- Without fuel there is no range left to reach the merged one.
    have hnil : s.got.entries = [] := List.length_eq_zero_iff.1 (Nat.le_zero.1 hfuel)
    rw [absorb_loop, hnil] at hx
    exact absurd hx List.not_mem_nil
  | succ n ih =>
    rw [absorb_loop]
    split
    · rename_i hnone
      refine ⟨h, fun x hx hle => ?_⟩
      cases hceil : s.got.ceil start with
      | none =>
        have := ceil_eq_none hceil x hx
        omega
      | some y =>
        obtain ⟨-, -, hmin⟩ := ceil_eq_some hceil
        have hge := hmin x hx hle
        rw [hceil, Option.filter_eq_none_iff] at hnone
        have hout : ¬ y.1 ≤ start + src.length := by simpa using hnone y rfl
        omega
    · rename_i a b hsome
      obtain ⟨hceil, hin⟩ := Option.filter_eq_some_iff.1 hsome
      have hmem := (ceil_eq_some hceil).1
      apply ih
      · exact h.turn hroom hceil (by simpa using hin)
      · have := length_remove hmem
        dsimp only
        omega

/-! ## The whole of `absorb` -/

namespace Group

variable {g : Group}

/-- The state `absorb` inserts its range from. -/
def absorbing (g : Group) (start : ℕ) (src : Bytes) : Absorbing :=
  absorb_loop src start (start + src.length) g.got.length
    (absorb_below g.got (resized g.data (start + src.length)) start (start + src.length))

/-- The whole loop keeps the same invariant, and in the end no range is left that touches the merged
one. -/
theorem absorbing_inv (hg : g.got.Separated) (start : ℕ) (src : Bytes) :
    AbsorbInv g.got (resized g.data (start + src.length)) src start (g.absorbing start src) ∧
      ∀ x ∈ (g.absorbing start src).got.entries,
        x.2 < (g.absorbing start src).lo ∨ (g.absorbing start src).hi < x.1 := by
  have hroom : start + src.length ≤ (resized g.data (start + src.length)).length := by
    rw [length_resized]
    exact Nat.le_max_right _ _
  -- The run that reaches from below is absorbed first, then those above, one after another.
  have hbelow : AbsorbInv g.got (resized g.data (start + src.length)) src start
      (absorb_below g.got (resized g.data (start + src.length)) start (start + src.length)) :=
    absorb_below_inv hg
  have hfuel : (absorb_below g.got (resized g.data (start + src.length)) start
      (start + src.length)).got.length ≤ g.got.length := by
    unfold absorb_below
    split
    · split
      · exact List.length_filter_le _ _
      · exact le_rfl
    · exact le_rfl
  obtain ⟨hinv, hend⟩ := absorb_loop_inv hroom _ _ hbelow hfuel
  refine ⟨hinv, fun x hx => ?_⟩
  have hlo := hinv.lo_le
  have hat := hinv.start_le
  -- What is left touches neither end.
  rcases hinv.beside x hx with hlow | hhigh
  · exact .inl hlow
  · right
    have hpast := hend x hx (by omega)
    have hhi : (g.absorbing start src).hi = _ := hinv.hi_eq
    rw [hhi]
    exact Nat.max_lt.2 ⟨hpast, hhigh⟩

theorem absorb_cases (hg : g.got.Separated) (start : ℕ) (src : Bytes) :
    ∃ s, AbsorbInv g.got (resized g.data (start + src.length)) src start s ∧
      (∀ x ∈ s.got.entries, x.2 < s.lo ∨ s.hi < x.1) ∧
      g.absorb start src =
        { g with
          data := copy_upto s.data src start s.at_ (start + src.length)
          got := s.got.insert s.lo s.hi } := by
  obtain ⟨hinv, hbeside⟩ := absorbing_inv hg start src
  exact ⟨g.absorbing start src, hinv, hbeside, rfl⟩

/-- The ranges stay separated. -/
theorem separated_absorb (hg : g.got.Separated) (start : ℕ) (src : Bytes) :
    (g.absorb start src).got.Separated := by
  obtain ⟨s, hinv, hbeside, heq⟩ := absorb_cases hg start src
  have hlo := hinv.lo_le
  have hat := hinv.start_le
  rw [heq]
  apply hinv.separated.insert _ hbeside
  rw [hinv.hi_eq]
  omega

/-- The positions held are those held before and the payload's. -/
theorem covered_absorb (hg : g.got.Separated) (start : ℕ) (src : Bytes) (p : ℕ) :
    Covered (g.absorb start src).got p ↔
      Covered g.got p ∨ start ≤ p ∧ p < start + src.length := by
  obtain ⟨s, hinv, hbeside, heq⟩ := absorb_cases hg start src
  have hlo := hinv.lo_le
  have hat := hinv.start_le
  have hhi := hinv.hi_eq
  -- The merged range's key is new: every other range lies strictly below or above it.
  have hkey : ∀ x ∈ s.got.entries, x.1 ≠ s.lo := by
    intro x hx heq
    have := hinv.separated.ordered x hx
    rcases hbeside x hx with hlow | hhigh
    · omega
    · omega
  have hcov := hinv.covered p
  rw [heq, covered_insert hkey]
  constructor
  -- The merged range covers nothing but what was covered and what came in.
  · rintro (hc | hp)
    · rcases hcov.1 (.inl hc) with hc | hp
      · exact .inl hc
      · exact .inr (by omega)
    · by_cases hpat : p < s.at_
      · rcases hcov.1 (.inr ⟨hp.1, hpat⟩) with hc | hp
        · exact .inl hc
        · exact .inr (by omega)
      · exact .inr (by omega)
  · rintro (hc | hp)
    · rcases hcov.2 (.inl hc) with hc | hp
      · exact .inl hc
      · exact .inr (by omega)
    · exact .inr (by omega)

/-- Absorbing octets leaves no empty range. -/
theorem filled_absorb (hg : g.got.Separated) (hfill : g.got.Filled) (start : ℕ) {src : Bytes}
    (hsrc : src ≠ []) : (g.absorb start src).got.Filled := by
  have hlen := List.length_pos_iff.2 hsrc
  obtain ⟨s, hinv, -, heq⟩ := absorb_cases hg start src
  have hlo := hinv.lo_le
  have hhi := hinv.hi_eq
  rw [heq]
  intro x hx
  rcases mem_insert.1 hx with rfl | ⟨hx, -⟩
  · dsimp only
    omega
  · exact hfill x (hinv.left x hx)

/-- The octets held never shrink. -/
theorem length_absorb (hg : g.got.Separated) (start : ℕ) (src : Bytes) :
    (g.absorb start src).data.length = max g.data.length (start + src.length) := by
  obtain ⟨s, hinv, -, heq⟩ := absorb_cases hg start src
  have hlen := hinv.length_eq
  rw [length_resized] at hlen
  rw [heq]
  dsimp only
  rw [length_copy_upto hinv.start_le le_rfl (by omega), hlen]

/-- **First writer wins**: a position keeps the octet of the first fragment that claimed it. -/
theorem absorb_getElem? (hg : g.got.Separated) (start : ℕ) (src : Bytes) (p : ℕ)
    [Decidable (Covered g.got p)] :
    (g.absorb start src).data[p]? =
      if start ≤ p ∧ p < start + src.length ∧ ¬ Covered g.got p then src[p - start]?
      else (resized g.data (start + src.length))[p]? := by
  obtain ⟨s, hinv, hbeside, heq⟩ := absorb_cases hg start src
  have hlen := hinv.length_eq
  have hat := hinv.start_le
  have hhi := hinv.hi_eq
  rw [length_resized] at hlen
  rw [heq]
  dsimp only
  rw [copy_upto_getElem? hat le_rfl (by omega)]
  by_cases hpat : s.at_ ≤ p ∧ p < start + src.length
  · -- the stretch behind the last range
    have hfree : ¬ Covered g.got p := by
      apply hinv.not_covered hpat.1
      intro x hx hxat
      rcases hbeside x hx with hlow | hhigh
      · have := hinv.separated.ordered x hx
        have := hinv.lo_le
        omega
      · omega
    rw [if_pos hpat, if_pos ⟨by omega, hpat.2, hfree⟩]
  · rw [if_neg hpat]
    by_cases hp : start ≤ p ∧ p < start + src.length ∧ ¬ Covered g.got p
    · rw [if_pos hp]
      exact hinv.copied p hp.1 (by omega) hp.2.2
    · rw [if_neg hp]
      apply hinv.octets
      rintro ⟨hsp, hlt, hfree⟩
      exact hp ⟨hsp, by omega, hfree⟩

end Group

end Wiry.Frag
