/-
What a plan enumerates.

A fixed generator has a list of elements, a `Seq` the concatenation of its parts'. Its count is
their number and `at` reads them, as long as that number is one a `u128` can hold. Over a plan
the indices below the count are the mixed-radix numerals of one position per slot.
-/
import Mathlib.Algebra.BigOperators.Group.List.Lemmas
import Mathlib.Algebra.BigOperators.Ring.List
import Mathlib.Data.List.GetD
import Wiry.Generate.Plan
import Wiry.Lib.MixedRadix

set_option autoImplicit false

namespace Wiry.Generate

/-! ## Elements -/

mutual

/-- Draws nothing. -/
def Gen.fixed : Gen → Bool
  | .One _ => true
  | .Range _ _ => true
  | .Addrs _ _ _ => true
  | .Seq parts => all_fixed parts
  | _ => false

def all_fixed : List Gen → Bool
  | [] => true
  | g :: parts => g.fixed && all_fixed parts

end

mutual

/-- What a fixed generator yields, in order. -/
def Gen.elements : Gen → List GenVal
  | .One v => [v]
  | .Range lo hi =>
    (List.range (hi.toNat + 1 - lo.toNat)).map fun i => .Uint (UInt64.ofNat (lo.toNat + i))
  | .Addrs lo hi width =>
    (List.range (hi.toNat + 1 - lo.toNat)).map fun i => addr_val (lo.toNat + i) width
  | .Seq parts => elements_of parts
  | _ => []

def elements_of : List Gen → List GenVal
  | [] => []
  | g :: parts => g.elements ++ elements_of parts

end

theorem elements_of_eq (parts : List Gen) : elements_of parts = parts.flatMap Gen.elements := by
  induction parts with
  | nil => rfl
  | cons g parts ih => rw [elements_of, ih, List.flatMap_cons]

theorem all_fixed_iff (parts : List Gen) :
    all_fixed parts = true ↔ ∀ g ∈ parts, g.fixed = true := by
  induction parts with
  | nil => exact iff_of_true rfl fun g hg => absurd hg List.not_mem_nil
  | cons g parts ih => rw [all_fixed, Bool.and_eq_true, ih, List.forall_mem_cons]

/-! ## Saturation -/

theorem saturating_add_min (a b : ℕ) :
    saturating_add (min a U128_MAX) (min b U128_MAX) = min (a + b) U128_MAX := by
  unfold saturating_add
  omega

/-- Saturating products of saturated numbers are the saturated product. -/
theorem saturating_mul_min (a b : ℕ) :
    saturating_mul (min a U128_MAX) (min b U128_MAX) = min (a * b) U128_MAX := by
  unfold saturating_mul
  rcases Nat.eq_zero_or_pos a with rfl | ha
  · simp only [Nat.zero_min, Nat.zero_mul]
  rcases Nat.eq_zero_or_pos b with rfl | hb
  · simp only [Nat.zero_min, Nat.mul_zero]
  rcases le_total a U128_MAX with hA | hA
  · rcases le_total b U128_MAX with hB | hB
    · rw [min_eq_left hA, min_eq_left hB]
    · have hfull : U128_MAX ≤ a * U128_MAX := Nat.le_mul_of_pos_left _ ha
      have hab : U128_MAX ≤ a * b := hB.trans (Nat.le_mul_of_pos_left _ ha)
      rw [min_eq_left hA, min_eq_right hB, min_eq_right hfull, min_eq_right hab]
  · have hab : U128_MAX ≤ a * b := hA.trans (Nat.le_mul_of_pos_right _ hb)
    have hpos : 0 < min b U128_MAX := lt_min hb (by decide)
    have hfull : U128_MAX ≤ U128_MAX * min b U128_MAX := Nat.le_mul_of_pos_right _ hpos
    rw [min_eq_right hA, min_eq_right hfull, min_eq_right hab]

/-! ## One generator -/

mutual

/-- A fixed generator counts its elements, up to the ceiling of u128. -/
theorem count_eq : ∀ {g : Gen}, g.fixed = true → g.count = min g.elements.length U128_MAX
  | .One v, _ => by
    unfold Gen.count Gen.elements
    rfl
  | .Range lo hi, _ => by
    unfold Gen.count Gen.elements
    rw [List.length_map, List.length_range]
    have hlo := lo.toNat_lt
    have hhi := hi.toNat_lt
    have hmax : (2 : ℕ) ^ 64 ≤ U128_MAX := by decide
    split
    · next hlt =>
      have hlt := UInt64.lt_iff_toNat_lt.1 hlt
      omega
    · next hle =>
      have hle := UInt64.le_iff_toNat_le.1 (UInt64.not_lt.1 hle)
      rw [UInt64.toNat_sub_of_le _ _ (UInt64.not_lt.1 ‹_›)]
      omega
  | .Addrs lo hi width, _ => by
    unfold Gen.count Gen.elements saturating_add
    rw [List.length_map, List.length_range]
    split
    · next hlt =>
      have hlt := BitVec.lt_def.1 hlt
      omega
    · next hle =>
      have hle := BitVec.not_lt.1 hle
      have hle' := BitVec.le_def.1 hle
      rw [BitVec.toNat_sub_of_le hle]
      omega
  | .Seq parts, h => by
    unfold Gen.count Gen.elements
    have hfixed : all_fixed parts = true := by
      unfold Gen.fixed at h
      exact h
    have hcount := count_from_eq hfixed 0
    rwa [Nat.zero_min, Nat.zero_add] at hcount
  -- The random generators are not fixed.
  | .RandNum _ _, h => by cases h
  | .RandAddr _ _ _, h => by cases h
  | .RandBytes _ _ _, h => by cases h
  | .RandPick _, h => by cases h

theorem count_from_eq : ∀ {parts : List Gen}, all_fixed parts = true → ∀ a : ℕ,
    count_from (min a U128_MAX) parts = min (a + (elements_of parts).length) U128_MAX
  | [], _, a => by
    unfold count_from elements_of
    rfl
  | g :: parts, h, a => by
    unfold all_fixed at h
    have h := Bool.and_eq_true_iff.1 h
    unfold count_from elements_of
    rw [count_eq h.1, saturating_add_min, count_from_eq h.2, List.length_append, Nat.add_assoc]

end

mutual

/-- `at` reads the elements, and draws nothing. -/
theorem at_eq : ∀ {g : Gen}, g.fixed = true → g.elements.length ≤ U128_MAX → ∀ (i : ℕ)
    (h : i < g.elements.length) (rng : Rng), g.at i rng = (g.elements[i], rng)
  | .One v, _, _, i, h, rng => by
    unfold Gen.elements at h
    have hi : i = 0 := Nat.lt_one_iff.1 h
    subst hi
    unfold Gen.at
    simp only [Gen.elements, List.getElem_cons_zero]
  | .Range lo hi, _, _, i, h, rng => by
    unfold Gen.elements at h
    rw [List.length_map, List.length_range] at h
    have hhi := hi.toNat_lt
    unfold Gen.at
    simp only [Gen.elements, List.getElem_map, List.getElem_range]
    have hmin : min i (hi.toNat - lo.toNat) = i := by omega
    have hsum : min (lo.toNat + i % 2 ^ 64) U64_MAX = lo.toNat + i := by
      rw [Nat.mod_eq_of_lt (by omega)]
      have hmax : U64_MAX = 2 ^ 64 - 1 := rfl
      omega
    rw [hmin, hsum]
  -- An address range counts up from its first address without reaching the ceiling.
  | .Addrs lo hi width, _, _, i, h, rng => by
    unfold Gen.elements at h
    rw [List.length_map, List.length_range] at h
    have hhi := hi.isLt
    unfold Gen.at
    simp only [Gen.elements, List.getElem_map, List.getElem_range]
    have hsum : saturating_add lo.toNat (min i (hi.toNat - lo.toNat)) = lo.toNat + i := by
      unfold saturating_add
      have hmax : U128_MAX = 2 ^ 128 - 1 := rfl
      omega
    rw [hsum]
  | .Seq parts, hfixed, hroom, i, h, rng => by
    have hfixed : all_fixed parts = true := by
      unfold Gen.fixed at hfixed
      exact hfixed
    unfold Gen.elements at hroom
    have h' := h
    unfold Gen.elements at h'
    unfold Gen.at
    rw [at_part_eq hfixed hroom i h' rng]
    simp only [Gen.elements]
  | .RandNum _ _, hfixed, _, _, _, _ => by cases hfixed
  | .RandAddr _ _ _, hfixed, _, _, _, _ => by cases hfixed
  | .RandBytes _ _ _, hfixed, _, _, _, _ => by cases hfixed
  | .RandPick _, hfixed, _, _, _, _ => by cases hfixed

/-- A fixed sequence is indexed like the list of its elements, and draws nothing. -/
theorem at_part_eq : ∀ {parts : List Gen}, all_fixed parts = true →
    (elements_of parts).length ≤ U128_MAX → ∀ (i : ℕ) (h : i < (elements_of parts).length)
      (rng : Rng), at_part parts i rng = some ((elements_of parts)[i], rng)
  | [], _, _, i, h, _ => absurd h (Nat.not_lt_zero i)
  | g :: parts, hfixed, hroom, i, h, rng => by
    unfold all_fixed at hfixed
    have hfixed := Bool.and_eq_true_iff.1 hfixed
    unfold elements_of at hroom
    have h' := h
    unfold elements_of at h'
    rw [List.length_append] at hroom h'
    -- the part's count is exact, all of them together being under the ceiling
    have hcount : g.count = g.elements.length := by
      rw [count_eq hfixed.1]
      exact min_eq_left (by omega)
    unfold at_part
    rw [hcount]
    simp only [elements_of]
    split
    · next hlt =>
      rw [at_eq hfixed.1 (by omega) i hlt rng, List.getElem_append_left hlt]
    · next hge =>
      rw [at_part_eq hfixed.2 (by omega) (i - g.elements.length) (by omega) rng,
        List.getElem_append_right (Nat.not_lt.1 hge)]

end

/-! ## A plan -/

namespace Plan

variable (p : Plan)

/-- How many elements each slot has. -/
def radices : List ℕ := p.slots.map fun s => s.gen.elements.length

/-- The position of each slot at an index. -/
def positions (index : ℕ) : List ℕ := MixedRadix.digits p.radices index

/-- The elements at one position per slot. -/
def row (ds : List ℕ) : List (ℕ × List Char × GenVal) :=
  (p.slots.zip ds).map fun x => (x.1.layer, x.1.name, x.1.gen.elements.getD x.2 (.Uint 0))

variable {p}

/-- A plan counts the product of its slots. -/
theorem count_min (hfixed : ∀ s ∈ p.slots, s.gen.fixed = true) :
    p.count = min p.radices.prod U128_MAX := by
  have hfold (slots : List Slot) (h : ∀ s ∈ slots, s.gen.fixed = true) (a : ℕ) :
      slots.foldl (fun a s => saturating_mul a s.gen.count) (min a U128_MAX)
        = min (a * (slots.map fun s => s.gen.elements.length).prod) U128_MAX := by
    induction slots generalizing a with
    | nil => rw [List.foldl_nil, List.map_nil, List.prod_nil, Nat.mul_one]
    | cons s slots ih =>
      rw [List.foldl_cons, count_eq (h s List.mem_cons_self), saturating_mul_min,
        ih (fun s' hs' => h s' (List.mem_cons_of_mem _ hs')), List.map_cons, List.prod_cons,
        Nat.mul_assoc]
  have hcount := hfold p.slots hfixed 1
  rwa [Nat.one_mul] at hcount

/-- The digits taken are those of the mixed-radix numeral. -/
theorem take_digits_eq {slots : List Slot} (hfixed : ∀ s ∈ slots, s.gen.fixed = true)
    (hroom : ∀ s ∈ slots, 0 < s.gen.elements.length ∧ s.gen.elements.length ≤ U128_MAX) (i : ℕ) :
    take_digits slots i = MixedRadix.peel (slots.map fun s => s.gen.elements.length) i := by
  induction slots generalizing i with
  | nil => rfl
  | cons s slots ih =>
    have hs := hroom s List.mem_cons_self
    have hcount : max s.gen.count 1 = s.gen.elements.length := by
      rw [count_eq (hfixed s List.mem_cons_self), min_eq_left hs.2]
      exact max_eq_left hs.1
    rw [take_digits, hcount, ih (fun s' hs' => hfixed s' (List.mem_cons_of_mem _ hs'))
      (fun s' hs' => hroom s' (List.mem_cons_of_mem _ hs'))]
    rfl

/-- Fixed slots give the elements at their digits, and draw nothing. -/
theorem draw_eq {slots : List Slot} (hfixed : ∀ s ∈ slots, s.gen.fixed = true)
    (hroom : ∀ s ∈ slots, s.gen.elements.length ≤ U128_MAX) (rng : Rng) : ∀ {ds : List ℕ},
    MixedRadix.Valid (slots.map fun s => s.gen.elements.length) ds →
      draw (slots.zip ds) rng = ((slots.zip ds).map fun x =>
        (x.1.layer, x.1.name, x.1.gen.elements.getD x.2 (.Uint 0)), rng) := by
  induction slots with
  | nil => exact fun _ => rfl
  | cons s slots ih =>
    intro ds hds
    cases hds with
    | @cons d _ ds _ hd hds =>
      have hlater := ih (fun s' hs' => hfixed s' (List.mem_cons_of_mem _ hs'))
        (fun s' hs' => hroom s' (List.mem_cons_of_mem _ hs')) hds
      have hat := at_eq (hfixed s List.mem_cons_self) (hroom s List.mem_cons_self) d hd rng
      rw [List.zip_cons_cons, draw, hat]
      dsimp only
      rw [hlater, List.map_cons, List.getD_eq_getElem _ _ hd]

theorem slot_room (hroom : p.radices.prod ≤ U128_MAX) (hpos : 0 < p.radices.prod) :
    ∀ s ∈ p.slots, 0 < s.gen.elements.length ∧ s.gen.elements.length ≤ U128_MAX := by
  intro s hs
  have hmem : s.gen.elements.length ∈ p.radices := List.mem_map.2 ⟨s, hs, rfl⟩
  exact ⟨MixedRadix.radix_pos hpos _ hmem,
    (Nat.le_of_dvd hpos (List.dvd_prod hmem)).trans hroom⟩

/-- A row of the plan is read off the positions of its index. -/
theorem values_at_eq (hfixed : ∀ s ∈ p.slots, s.gen.fixed = true)
    (hroom : p.radices.prod ≤ U128_MAX) {index : ℕ} (hindex : index < p.radices.prod) (rng : Rng) :
    p.values_at index rng = (p.row (p.positions index), rng) := by
  have hpos := Nat.zero_lt_of_lt hindex
  have hslots := slot_room hroom hpos
  have hdigits : (take_digits p.slots.reverse index).reverse = p.positions index := by
    rw [take_digits_eq (fun s hs => hfixed s (List.mem_reverse.1 hs))
      (fun s hs => hslots s (List.mem_reverse.1 hs)), List.map_reverse]
    exact MixedRadix.peel_reverse _ _
  unfold values_at
  rw [hdigits]
  exact draw_eq hfixed (fun s hs => (hslots s hs).2) rng
    (MixedRadix.valid_digits (MixedRadix.radix_pos hpos) index)

/-- `Plan.new` keeps every slot, slower ones first. -/
theorem new_ordered (slots : List (Slot × ℕ)) :
    ((Plan.new slots).slots.Perm (slots.map Prod.fst)) ∧
      (Plan.new slots).slots.Pairwise (fun a b => a.layer ≤ b.layer) := by
  have htrans : ∀ a b c : Slot × ℕ, slower a b = true → slower b c = true → slower a c = true := by
    intro a b c hab hbc
    unfold slower at *
    simp only [decide_eq_true_eq] at *
    omega
  have htotal : ∀ a b : Slot × ℕ, (slower a b || slower b a) = true := by
    intro a b
    unfold slower
    simp only [Bool.or_eq_true, decide_eq_true_eq]
    omega
  refine ⟨(List.mergeSort_perm slots slower).map _, ?_⟩
  refine List.Pairwise.map _ ?_ (List.pairwise_mergeSort htrans htotal slots)
  intro a b hab
  unfold slower at hab
  simp only [decide_eq_true_eq] at hab
  omega

end Plan

/-- The indices below the count of a plan of fixed generators are the combinations of one position
per slot, one each and in mixed-radix order, the last slot fastest. -/
theorem plan_enumerates (p : Plan) (hfixed : ∀ s ∈ p.slots, s.gen.fixed = true)
    (hroom : p.radices.prod ≤ U128_MAX) :
    p.count = p.radices.prod ∧
    (∀ index < p.count, ∀ rng, p.values_at index rng = (p.row (p.positions index), rng)) ∧
    Set.BijOn p.positions { index | index < p.count }
      { ds | List.Forall₂ (· < ·) ds (p.slots.map fun s => s.gen.elements.length) } ∧
    (∀ i j, i < j → j < p.count → List.Lex (· < ·) (p.positions i) (p.positions j)) ∧
    (∀ parts : List Gen, (∀ g ∈ parts, g.fixed = true) →
      (parts.flatMap Gen.elements).length ≤ U128_MAX →
        ∀ (i : ℕ) (h : i < (parts.flatMap Gen.elements).length) (rng : Rng),
          (Gen.Seq parts).at i rng = ((parts.flatMap Gen.elements)[i], rng)) ∧
    ((∃ s ∈ p.slots, s.gen.elements = []) → p.count = 0) := by
  have hcount : p.count = p.radices.prod := by
    rw [Plan.count_min hfixed, min_eq_left hroom]
  -- Count, rows, bijection, order, sequences and empty slots, each from its own lemma.
  refine ⟨hcount, ?_, ?_, ?_, ?_, ?_⟩
  · intro index hindex rng
    rw [hcount] at hindex
    exact Plan.values_at_eq hfixed hroom hindex rng
  · rw [hcount]
    exact MixedRadix.digits_bijOn p.radices
  · intro i j hij hj
    rw [hcount] at hj
    exact MixedRadix.digits_lex hij hj
  · intro parts hparts hlength i h rng
    have helements : (Gen.Seq parts).elements = parts.flatMap Gen.elements := by
      rw [Gen.elements, elements_of_eq]
    have hseq : (Gen.Seq parts).fixed = true := by
      rw [Gen.fixed]
      exact (all_fixed_iff parts).2 hparts
    have hat := at_eq hseq (by rwa [helements]) i (by rwa [helements]) rng
    rw [hat]
    simp only [helements]
  · rintro ⟨s, hs, hempty⟩
    rw [hcount]
    have hmem : 0 ∈ p.radices := List.mem_map.2 ⟨s, hs, by rw [hempty, List.length_nil]⟩
    exact List.prod_eq_zero hmem

/-- Two slots, the second a `Seq` with an empty part. -/
theorem plan_enumerates_sample :
    let p : Plan :=
      ⟨[⟨0, [], .Range 5 6⟩, ⟨1, [], .Seq [.Range 1 0, .One (.Uint 7), .One (.Uint 9)]⟩]⟩
    p.count = 4 ∧ p.values_at 2 ⟨0⟩ = ([(0, [], .Uint 6), (1, [], .Uint 7)], ⟨0⟩) := by
  intro p
  obtain ⟨hcount, hvalues, -⟩ := plan_enumerates p (by decide) (by decide)
  exact ⟨hcount, hvalues 2 (by decide) ⟨0⟩⟩

end Wiry.Generate
