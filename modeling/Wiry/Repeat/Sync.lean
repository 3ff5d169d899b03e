/-
What `sync` of `crates/wiry-core/src/repeat.rs` writes, against what a walk then takes from it.

A walk under a count is the walk of the whole region cut after that many elements; under a length it
is the walk of a cut region, which comes to the same elements where each of them ends inside the cut
and measures the same there.

Both are settled over the numbers first, `visits_synced_iff`, and then as the code runs: `sync_checked`
and `visits_checked` fail where a sum of theirs leaves 64 bits, and `synced_walk_iff` says exactly which
records come through both and are read alike.
-/
import Wiry.Repeat.Bounded

set_option autoImplicit false

namespace Wiry.Repeat

open Packet (Bytes FieldDesc read_bits write_bits slice)
open Checked (fit add add_bind some_bind)
open Bits

/-! ## The field -/

/-- A field of any width reads back what was written, its high bits dropped. -/
theorem read_write_any {rec : Bytes} {bit_off bit_len : ℕ} (h : bit_off + bit_len ≤ rec.length * 8)
    (v : ℕ) : read_bits (write_bits rec bit_off bit_len v) bit_off bit_len = v % 2 ^ min bit_len 64 := by
  by_cases hlen : bit_len ≤ 64
  · rw [Nat.min_eq_left hlen]
    exact Packet.read_write_bits h hlen v
  · rw [Nat.min_eq_right (by omega)]
    unfold read_bits
    rw [Packet.length_write_bits, if_neg (by omega), if_neg (by omega)]
    apply Nat.eq_of_testBit_eq
    intro k
    rw [Nat.testBit_mod_two_pow, Nat.testBit_mod_two_pow, testBit_spell]
    by_cases hk : k < 64
    · rw [if_pos (by omega)]
      unfold write_bits
      rw [if_neg (by omega), if_pos (by omega), Packet.bit_write_low (by rw [Packet.length_set_bits]; omega),
        if_pos (by omega)]
      congr 2
      omega
    · rw [decide_eq_false hk, Bool.false_and, Bool.false_and]

/-- A write before `start` leaves everything from there on. -/
theorem drop_write_bits (rec : Bytes) {bit_off bit_len start : ℕ} (h : bit_off + bit_len ≤ 8 * start)
    (v : ℕ) : (write_bits rec bit_off bit_len v).drop start = rec.drop start := by
  apply List.ext_getElem?
  intro n
  rw [List.getElem?_drop, List.getElem?_drop]
  apply getElem?_eq_of_bits (Packet.length_write_bits _ _ _ _)
  intro i hlo hhi
  exact Packet.bit_write_bits_of_apart _ _ _ _ (.inr (by omega))

namespace GroupDesc

variable {Sub : Type} (g : GroupDesc Sub)

/-- The extent field lies before the region. -/
def FieldFirst : Prop :=
  match g.extent with
  | .Count bit_off bit_len => bit_off + bit_len ≤ 8 * g.start
  | .Length bit_off bit_len _ _ => bit_off + bit_len ≤ 8 * g.start
  | .Rest => True

/-- `sync` leaves the region alone. -/
theorem rest_sync (h : g.FieldFirst) (rec : Bytes) : g.rest (g.sync rec) = g.rest rec := by
  unfold FieldFirst at h
  unfold sync rest
  split
  · cases hext : g.extent with
    | Count bit_off bit_len =>
      rw [hext] at h
      exact drop_write_bits rec h _
    | Length bit_off bit_len scale covers =>
      rw [hext] at h
      exact drop_write_bits rec h _
    | Rest => rfl
  · rfl

/-! ## The whole region -/

/-- How far the elements of the whole region reach, and how many they are. -/
def measured (rec : Bytes) : ℕ × ℕ := g.measure_from none (g.rest rec) MAX_ELEMENTS 0 0

theorem measure_from_free (want : Option ℕ) (region : Bytes) (n i idx : ℕ) :
    g.free.measure_from want region n i idx = g.measure_from want region n i idx := by
  have hlen : ∀ e, g.free.elem_len e = g.elem_len e := fun _ => rfl
  have hstride : ∀ total, g.free.stride total = g.stride total := fun _ => rfl
  induction n generalizing i idx with
  | zero => rfl
  | succ n ih =>
    rw [measure_from, measure_from]
    simp only [hlen, hstride, ih]

theorem region_len_free {rec : Bytes} (h : g.applies rec = true) :
    g.free.region_len rec = (g.measured rec).1 := by
  have happlies : g.free.applies rec = true := h
  unfold region_len
  rw [if_pos happlies, measure_from_free]
  rfl

variable [Level Sub]

theorem visit_from_free (want : Option ℕ) (region : Bytes) (n i idx : ℕ) (b : Budget) :
    g.free.visit_from want region n i idx b = g.visit_from want region n i idx b := by
  have hlen : ∀ e, g.free.elem_len e = g.elem_len e := fun _ => rfl
  have hstride : ∀ total, g.free.stride total = g.stride total := fun _ => rfl
  have helement : ∀ e idx b, g.free.element e idx b = g.element e idx b := fun _ _ _ => rfl
  induction n generalizing i idx b with
  | zero => rfl
  | succ n ih =>
    rw [visit_from, visit_from]
    simp only [hlen, hstride, helement, ih]

/-- The elements of the whole region. -/
def whole (rec : Bytes) : List Visit := (g.visit_from none (g.rest rec) MAX_ELEMENTS 0 0 .new).1

theorem visits_free {rec : Bytes} (h : g.applies rec = true) :
    (g.free.visits rec .new).1 = g.whole rec := by
  have happlies : g.free.applies rec = true := h
  unfold visits
  rw [if_pos happlies, visit_from_free]
  rfl

/-! ## Under a count -/

/-- **A count cuts the walk after that many elements.** -/
theorem visit_from_count (w : ℕ) (region : Bytes) (n i idx : ℕ) (b : Budget) :
    (g.visit_from (some w) region n i idx b).1 =
      (g.visit_from none region n i idx b).1.take (w - idx) := by
  induction n generalizing i idx b with
  | zero => rw [visit_from, visit_from, List.take_nil]
  | succ n ih =>
    rw [visit_from, visit_from]
    by_cases hi : i < region.length
    · rw [if_pos hi, if_pos hi, if_neg (show ¬(none : Option ℕ).any (· ≤ idx) = true from Bool.false_ne_true)]
      by_cases hw : w ≤ idx
      · rw [if_pos (show (some w).any (· ≤ idx) = true from decide_eq_true hw),
          Nat.sub_eq_zero_of_le hw, List.take_zero]
      · rw [if_neg (show ¬(some w).any (· ≤ idx) = true from fun h => hw (of_decide_eq_true h))]
        split
        · rw [List.take_nil]
        · dsimp only
          split
          · rw [List.take_nil]
          · obtain ⟨k, hk⟩ := Nat.exists_eq_add_of_le' (show 1 ≤ w - idx by omega)
            rw [hk, List.take_succ_cons, ih, show w - (idx + 1) = k by omega]
    · rw [if_neg hi, if_neg hi, List.take_nil]

/-! ## Under a length -/

/-- An element that ends within `k` octets of its region and measures the same there. -/
def Within (region : Bytes) (k : ℕ) (v : Visit) : Prop :=
  v.off + v.octets.length ≤ k ∧ g.elem_len ((region.take k).drop v.off) = v.octets.length

/-- **A cut region has the same elements exactly when each of them is within the cut**, where the cut is
no further than the elements reach. -/
theorem visit_from_take_iff {region : Bytes} {k : ℕ} (n i idx : ℕ) (b : Budget)
    (hk : k ≤ (g.measure_from none region n i idx).1) :
    (g.visit_from none (region.take k) n i idx b).1 = (g.visit_from none region n i idx b).1 ↔
      ∀ v ∈ (g.visit_from none region n i idx b).1, g.Within region k v := by
  have hlen : (region.take k).length = min k region.length := List.length_take
  induction n generalizing i idx b with
  | zero => exact ⟨fun _ _ hv => absurd hv List.not_mem_nil, fun _ => rfl⟩
  | succ n ih =>
    have hnone : ¬(none : Option ℕ).any (· ≤ idx) = true := Bool.false_ne_true
    rw [visit_from, visit_from]
    rw [measure_from] at hk
    by_cases hi : i < region.length
    · rw [if_pos hi, if_neg hnone] at hk
      rw [if_pos hi, if_neg hnone, if_neg hnone]
      cases hspend : b.spend_item with
      | none =>
        dsimp only
        rw [ite_self]
        exact ⟨fun _ _ hv => absurd hv List.not_mem_nil, fun _ => rfl⟩
      | some b =>
        dsimp only at hk ⊢
        by_cases hstop : g.elem_len (region.drop i) = 0 ∨
            i + g.elem_len (region.drop i) > region.length
        · rw [if_pos hstop] at hk ⊢
          rw [if_neg (show ¬i < (region.take k).length by omega)]
          exact ⟨fun _ _ hv => absurd hv List.not_mem_nil, fun _ => rfl⟩
        · rw [if_neg hstop] at hk ⊢
          obtain ⟨total, htotal⟩ : ∃ total, total = g.elem_len (region.drop i) := ⟨_, rfl⟩
          rw [← htotal] at hk hstop ⊢
          have hoctets : (slice region i (i + total)).length = total := by
            rw [Packet.length_slice (by omega)]
            omega
          dsimp only
          rw [List.forall_mem_cons]
          by_cases hin : i + total ≤ k ∧ g.elem_len ((region.take k).drop i) = total
          · have hhead : g.Within region k
                ⟨i, slice region i (i + total), (g.element (slice region i (i + total)) idx b).1⟩ := by
              refine ⟨?_, ?_⟩
              · dsimp only
                rw [hoctets]
                exact hin.1
              · exact hin.2.trans hoctets.symm
            have hslice : slice (region.take k) i (i + total) = slice region i (i + total) := by
              unfold slice
              rw [List.take_take, Nat.min_eq_left hin.1]
            rw [if_pos (show i < (region.take k).length by omega), hin.2,
              if_neg (show ¬(total = 0 ∨ i + total > (region.take k).length) by omega), hslice]
            dsimp only
            rw [List.cons_eq_cons, and_iff_right rfl, and_iff_right hhead]
            exact ih _ _ _ hk
          · refine ⟨fun h => absurd ?_ hin, fun h => absurd ⟨?_, ?_⟩ hin⟩
            · -- an element of the cut region ends inside it
              split at h
              · split at h
                · exact absurd h.symm (List.cons_ne_nil _ _)
                · rename_i hgo
                  have hoct := congrArg Visit.octets (List.cons.inj h).1
                  have hsame := congrArg List.length hoct
                  dsimp only at hsame
                  rw [hoctets, Packet.length_slice (by omega)] at hsame
                  exact ⟨by omega, by omega⟩
              · exact absurd h.symm (List.cons_ne_nil _ _)
            · have h1 := h.1.1
              dsimp only at h1
              rwa [hoctets] at h1
            · have h2 := h.1.2
              dsimp only at h2
              rwa [hoctets] at h2
    · rw [if_neg hi, if_neg (show ¬i < (region.take k).length by omega)]
      exact ⟨fun _ _ hv => absurd hv List.not_mem_nil, fun _ => rfl⟩

/-! ## After `sync` -/

/-- An empty region has no elements. -/
theorem visit_from_nil (want : Option ℕ) (n i idx : ℕ) (b : Budget) :
    (g.visit_from want [] n i idx b).1 = [] := by
  cases n with
  | zero => rfl
  | succ n =>
    rw [visit_from, if_neg (show ¬i < ([] : Bytes).length from Nat.not_lt_zero i)]

/-- The extent field holds what the elements of the region take: their number, or an extent each of them
is within. -/
def Describes (rec : Bytes) : Prop :=
  match g.extent with
  | .Count _ bit_len => (g.whole rec).length ≤ (g.measured rec).2 % 2 ^ min bit_len 64
  | .Length _ bit_len scale covers =>
    ∀ v ∈ g.whole rec, g.Within (g.rest rec)
      (saturating_mul (((g.measured rec).1 + covers) / max scale 1 % 2 ^ min bit_len 64) scale - covers) v
  | .Rest => True

/-- What a length field says is never further than the elements reach. -/
theorem stored_length_le (used covers scale m : ℕ) :
    saturating_mul ((used + covers) / max scale 1 % m) scale - covers ≤ used := by
  have hmod := Nat.mod_le ((used + covers) / max scale 1) m
  have hmul : (used + covers) / max scale 1 % m * scale ≤ used + covers := by
    calc (used + covers) / max scale 1 % m * scale
        ≤ (used + covers) / max scale 1 * max scale 1 := Nat.mul_le_mul hmod (Nat.le_max_left _ _)
      _ ≤ used + covers := Nat.div_mul_le_self _ _
  have hsat : saturating_mul ((used + covers) / max scale 1 % m) scale ≤
      (used + covers) / max scale 1 % m * scale := Nat.min_le_left _ _
  omega

omit [Level Sub] in
/-- A group applies after `sync` only if it did before: where it does not, `sync` writes nothing. -/
theorem applies_of_sync {rec : Bytes} (h : g.applies (g.sync rec) = true) : g.applies rec = true := by
  by_contra hnot
  have hsame : g.sync rec = rec := if_neg hnot
  rw [hsame] at h
  exact hnot h

/-- Over the numbers a walk comes to the elements of the whole region after `sync` exactly when the field
has room for what describes them. -/
theorem visits_synced_iff (hfirst : g.FieldFirst) (rec : Bytes) :
    (g.visits (g.sync rec) .new).1 = (g.free.visits (g.sync rec) .new).1 ↔
      (g.applies (g.sync rec) = true → g.Describes rec) := by
  by_cases hafter : g.applies (g.sync rec) = true
  swap
  · have hfree : ¬g.free.applies (g.sync rec) = true := hafter
    unfold visits
    rw [if_neg hafter, if_neg hfree]
    exact ⟨fun _ h => absurd h hafter, fun _ => rfl⟩
  have hbefore := g.applies_of_sync hafter
  have hrest := g.rest_sync hfirst rec
  have hwhole : (g.free.visits (g.sync rec) .new).1 = g.whole rec := by
    rw [g.visits_free hafter, whole, hrest]
    rfl
  have hvisits : (g.visits (g.sync rec) .new).1 =
      (g.visit_from (g.wanted (g.sync rec)) (g.region (g.sync rec)) MAX_ELEMENTS 0 0 .new).1 := by
    unfold visits
    rw [if_pos hafter]
  rw [hwhole, hvisits, imp_iff_right hafter]
  -- a record that ends before its field has no region
  have hshort : ∀ bit_off bit_len, bit_off + bit_len ≤ 8 * g.start →
      ¬bit_off + bit_len ≤ rec.length * 8 → g.rest rec = [] := by
    intro bit_off bit_len hle hout
    apply List.drop_eq_nil_of_le
    omega
  unfold FieldFirst at hfirst
  unfold Describes wanted region
  cases hext : g.extent with
  | Rest =>
    rw [hrest]
    exact ⟨fun _ => trivial, fun _ => rfl⟩
  | Count bit_off bit_len =>
    rw [hext] at hfirst
    dsimp only
    rw [hrest, visit_from_count, Nat.sub_zero]
    show (g.whole rec).take _ = g.whole rec ↔ _
    rw [List.take_eq_self_iff]
    by_cases hin : bit_off + bit_len ≤ rec.length * 8
    · have hsync : g.sync rec = write_bits rec bit_off bit_len (g.measured rec).2 := by
        unfold sync
        rw [if_pos hbefore, hext]
        dsimp only
        rw [measure_from_free]
        rfl
      rw [hsync, read_write_any hin]
    · have hnil : g.whole rec = [] := by
        rw [whole, hshort _ _ hfirst hin]
        exact g.visit_from_nil _ _ _ _ _
      rw [hnil]
      exact ⟨fun _ => Nat.zero_le _, fun _ => Nat.zero_le _⟩
  | Length bit_off bit_len scale covers =>
    rw [hext] at hfirst
    dsimp only
    rw [hrest]
    by_cases hin : bit_off + bit_len ≤ rec.length * 8
    · have hsync : g.sync rec = write_bits rec bit_off bit_len
          (((g.measured rec).1 + covers) / max scale 1) := by
        unfold sync
        rw [if_pos hbefore, hext]
        dsimp only
        rw [region_len_free g hbefore]
      rw [hsync, read_write_any hin]
      exact g.visit_from_take_iff MAX_ELEMENTS 0 0 .new (stored_length_le _ _ _ _)
    · have hregion := hshort _ _ hfirst hin
      have hnil : g.whole rec = [] := by
        rw [whole, hregion]
        exact g.visit_from_nil _ _ _ _ _
      rw [hnil, hregion, List.take_nil]
      exact ⟨fun _ _ hv => absurd hv List.not_mem_nil, fun _ => g.visit_from_nil _ _ _ _ _⟩

end GroupDesc

/-! ## As the code runs

`walk_in` and `sync` add where elements start and end in a `usize`. -/

namespace GroupDesc

variable {Sub : Type} [Nested Sub] (g : GroupDesc Sub)

/-- The elements of a walk, as the code runs it: what `walk_in_checked` makes its items of. -/
def visits_checked (rec : Bytes) (b : Budget) : Option (List Visit × Budget) :=
  if g.applies rec then g.visit_checked (g.wanted rec) (g.region rec) MAX_ELEMENTS 0 0 b else some ([], b)

omit [Nested Sub] in
/-- `sync` as the code runs it: it measures the whole region whatever it writes, and a length adds
what it covers before it divides. -/
def sync_checked (rec : Bytes) : Option Bytes :=
  if g.applies rec then do
    let used ← g.free.region_len_checked rec
    match g.extent with
    | .Count bit_off bit_len => do
      let counted ← g.free.measure_checked none (g.free.region rec) MAX_ELEMENTS 0 0
      some (write_bits rec bit_off bit_len counted.2)
    | .Length bit_off bit_len scale covers => do
      let total ← add used.1 covers
      some (write_bits rec bit_off bit_len (total / max scale 1))
    | .Rest => some rec
  else some rec

/-- **What the claim of `sync` comes to in the code**: `sync` and the walks with and without the field
all run to their ends, and the walks come to the same elements. -/
def SyncedWalksAgree (rec : Bytes) : Prop :=
  ∃ synced v w, g.sync_checked rec = some synced ∧ g.visits_checked synced .new = some v ∧
    g.free.visits_checked synced .new = some w ∧ v.1 = w.1

omit [Nested Sub] in
/-- No sum `sync` makes leaves 64 bits: measuring the region, nor a length with what it covers. -/
def SyncClear (rec : Bytes) : Prop :=
  g.MeasureClear none (g.rest rec) MAX_ELEMENTS 0 0 ∧
    match g.extent with
    | .Length _ _ _ covers => (g.measured rec).1 + covers < 2 ^ 64
    | _ => True

omit [Nested Sub] in
/-- Nor of the conditions under which measuring is clear. -/
theorem measureClear_free (want : Option ℕ) (region : Bytes) (n i idx : ℕ) :
    g.free.MeasureClear want region n i idx ↔ g.MeasureClear want region n i idx := by
  have hclear : ∀ i idx b, g.free.TurnClear want region i idx b ↔ g.TurnClear want region i idx b :=
    fun _ _ _ => Iff.rfl
  have hturn : ∀ i idx b, g.free.turn want region i idx b = g.turn want region i idx b :=
    fun _ _ _ => rfl
  have hstride : ∀ total, g.free.stride total = g.stride total := fun _ => rfl
  induction n generalizing i idx with
  | zero => exact Iff.rfl
  | succ n ih =>
    rw [MeasureClear, MeasureClear, hclear, hturn]
    cases g.turn want region i idx ⟨1, 0⟩ with
    | stop b => exact Iff.rfl
    | go octets b =>
      dsimp only
      rw [hstride]
      exact and_congr_right' (ih _ _)

/-- Nor of those under which the walk is. -/
theorem visitClear_free (want : Option ℕ) (region : Bytes) (n i idx : ℕ) (b : Budget) :
    g.free.VisitClear want region n i idx b ↔ g.VisitClear want region n i idx b := by
  have hclear : ∀ i idx b, g.free.TurnClear want region i idx b ↔ g.TurnClear want region i idx b :=
    fun _ _ _ => Iff.rfl
  have hturn : ∀ i idx b, g.free.turn want region i idx b = g.turn want region i idx b :=
    fun _ _ _ => rfl
  have hstride : ∀ total, g.free.stride total = g.stride total := fun _ => rfl
  have helement : ∀ e idx b, g.free.element e idx b = g.element e idx b := fun _ _ _ => rfl
  have hinner : ∀ e b, g.free.ElementClear e b ↔ g.ElementClear e b := fun _ _ => Iff.rfl
  induction n generalizing i idx b with
  | zero => exact Iff.rfl
  | succ n ih =>
    rw [VisitClear, VisitClear, hclear, hturn]
    cases g.turn want region i idx b with
    | stop b => exact Iff.rfl
    | go octets b =>
      dsimp only
      rw [hstride, helement, hinner]
      exact and_congr_right' (and_congr_right' (ih _ _ _))

variable {g} {rec : Bytes}

omit [Nested Sub] in
theorem length_sync : (g.sync rec).length = rec.length := by
  unfold sync
  split
  · split
    · exact Packet.length_write_bits _ _ _ _
    · exact Packet.length_write_bits _ _ _ _
    · rfl
  · rfl

/-- The checked walk returns exactly where the walk is clear, and then the same. -/
theorem visits_checked_iff (hfits : g.Fits) (hlen : rec.length < 2 ^ 63) {b : Budget}
    {v : List Visit × Budget} :
    g.visits_checked rec b = some v ↔ g.Clear rec b ∧ v = g.visits rec b := by
  have hregion : (g.region rec).length ≤ rec.length := length_region_le
  unfold visits_checked visits Clear
  by_cases happlies : g.applies rec = true
  · rw [if_pos happlies, if_pos happlies, imp_iff_right happlies]
    by_cases hclear : g.VisitClear (g.wanted rec) (g.region rec) MAX_ELEMENTS 0 0 b
    · rw [visit_checked_of_clear hfits (by omega) (.inl rfl) hclear, Option.some.injEq, and_iff_right hclear,
        eq_comm]
    · rw [visit_checked_of_not_clear hfits (by omega) (.inl rfl) hclear]
      exact ⟨fun h => (by cases h), fun h => absurd h.1 hclear⟩
  · rw [if_neg happlies, if_neg happlies, Option.some.injEq, eq_comm]
    exact ⟨fun h => ⟨fun ha => absurd ha happlies, h⟩, fun h => h.2⟩

omit [Nested Sub] in
/-- `sync` fails exactly where one of its sums does not fit. -/
theorem sync_checked_iff (halign : g.align < 2 ^ 64) (hlen : rec.length < 2 ^ 63) {synced : Bytes} :
    g.sync_checked rec = some synced ↔
      (g.applies rec = true → g.SyncClear rec) ∧ synced = g.sync rec := by
  -- Nothing is synced where the group does not apply.
  by_cases happlies : g.applies rec = true
  swap
  · unfold sync_checked sync
    rw [if_neg happlies, if_neg happlies, Option.some.injEq, eq_comm]
    exact ⟨fun h => ⟨fun ha => absurd ha happlies, h⟩, fun h => h.2⟩
  have hrest : (g.rest rec).length < 2 ^ 63 := by
    unfold rest
    rw [List.length_drop]
    omega
  have hfree : g.free.applies rec = true := happlies
  rw [imp_iff_right happlies]
  unfold sync_checked sync SyncClear region_len_checked
  rw [if_pos happlies, if_pos happlies, if_pos hfree]
  show (g.free.measure_checked none (g.rest rec) MAX_ELEMENTS 0 0 >>= _) = _ ↔ _
  -- Measuring must be clear, whatever the extent; a length adds the octets it covers.
  by_cases hclear : g.MeasureClear none (g.rest rec) MAX_ELEMENTS 0 0
  · have hmeasure : g.free.measure_checked none (g.rest rec) MAX_ELEMENTS 0 0 = some (g.measured rec) := by
      rw [measure_checked_of_clear (g := g.free) halign hrest (.inl rfl) ((g.measureClear_free _ _ _ _ _).2 hclear),
        measure_from_free]
      rfl
    have hcount : g.free.measure_checked none (g.free.region rec) MAX_ELEMENTS 0 0 = some (g.measured rec) :=
      hmeasure
    rw [some_bind hmeasure, and_iff_right hclear]
    cases hext : g.extent with
    | Rest =>
      dsimp only
      rw [Option.some.injEq, true_and, eq_comm]
    | Count bit_off bit_len =>
      dsimp only
      have hplain : (g.free.measure_from none (g.free.region rec) MAX_ELEMENTS 0 0).2 = (g.measured rec).2 := by
        rw [measure_from_free]
        rfl
      rw [some_bind hcount, hplain, Option.some.injEq, true_and, eq_comm]
    | Length bit_off bit_len scale covers =>
      dsimp only
      rw [region_len_free g happlies]
      by_cases hfit : (g.measured rec).1 + covers < 2 ^ 64
      · rw [add_bind hfit, Option.some.injEq, and_iff_right hfit, eq_comm]
      · rw [add, fit, if_neg hfit]
        exact ⟨fun h => (by cases h), fun h => absurd h.1 hfit⟩
  -- Where measuring is not clear it overflows, and so does the sync.
  · have hfails : ¬g.free.MeasureClear none (g.rest rec) MAX_ELEMENTS 0 0 := fun h =>
      hclear ((g.measureClear_free _ _ _ _ _).1 h)
    rw [measure_checked_of_not_clear (g := g.free) halign hrest (.inl rfl) hfails]
    exact ⟨fun h => (by cases h), fun h => absurd h.1.1 hclear⟩

/-- A count ends a walk early, and what ran without it runs with it. -/
theorem visitClear_count {region : Bytes} (w : ℕ) {n i idx : ℕ} {b : Budget}
    (h : g.VisitClear none region n i idx b) : g.VisitClear (some w) region n i idx b := by
  induction n generalizing i idx b with
  | zero => trivial
  | succ n ih =>
    rw [VisitClear] at h ⊢
    obtain ⟨hturn, hrest⟩ := h
    refine ⟨fun hi _ hitems => hturn hi rfl hitems, ?_⟩
    -- Either the count is reached and the walk ends, or the turn is the unlimited one's.
    by_cases hw : w ≤ idx
    · have hstop : g.turn (some w) region i idx b = .stop b := by
        unfold turn
        rw [if_pos (show (some w).any (· ≤ idx) = true from decide_eq_true hw), ite_self]
      rw [hstop]
      trivial
    · have hsame : g.turn (some w) region i idx b = g.turn none region i idx b := by
        unfold turn
        rw [if_neg (show ¬(some w).any (· ≤ idx) = true from fun h => hw (of_decide_eq_true h)),
          if_neg (show ¬(none : Option ℕ).any (· ≤ idx) = true from Bool.false_ne_true)]
      rw [hsame]
      cases hgo : g.turn none region i idx b with
      | stop b' => trivial
      | go octets b' =>
        rw [hgo] at hrest
        exact ⟨hrest.1, ih hrest.2⟩

/-- A cut no further than the elements reach, which every element is within, adds nothing that could
overflow: where the whole walk finds no element the cut has ended. -/
theorem visitClear_take {region : Bytes} (hlen : region.length < 2 ^ 63) {k n i idx : ℕ} {b : Budget}
    (hk : k ≤ (g.measure_from none region n i idx).1) (h : g.VisitClear none region n i idx b)
    (hwithin : ∀ v ∈ (g.visit_from none region n i idx b).1, g.Within region k v) :
    g.VisitClear none (region.take k) n i idx b := by
  -- By the elements: each one read from the cut region is the one read from the whole.
  induction n generalizing i idx b with
  | zero => trivial
  | succ n ih =>
    have hcut : (region.take k).length = min k region.length := List.length_take
    rw [VisitClear] at h ⊢
    obtain ⟨-, hrest⟩ := h
    cases hgo : g.turn none region i idx b with
    | stop b' =>
      -- A walk that ends in the whole region ends in the cut one as well.
      by_cases hitems : b.items = 0
      · have hstop : g.turn none (region.take k) i idx b = .stop b := by
          unfold turn Budget.spend_item
          rw [if_pos hitems]
          dsimp only
          rw [ite_self, ite_self]
        rw [hstop]
        exact ⟨fun _ _ hpos => by omega, trivial⟩
      · obtain ⟨other, hother⟩ : ∃ other, g.turn none region i idx ⟨1, 0⟩ = .stop other := by
          cases halone : g.turn none region i idx ⟨1, 0⟩ with
          | stop other => exact ⟨other, rfl⟩
          | go octets other =>
            obtain ⟨b'', hb⟩ := ((turn_of_items (Nat.pos_of_ne_zero hitems)).1 octets).2 ⟨other, halone⟩
            rw [hgo] at hb
            cases hb
        rw [measure_from_of_halt hother] at hk
        dsimp only at hk
        have hout : ¬i < (region.take k).length := by omega
        have hstop : g.turn none (region.take k) i idx b = .stop b := if_neg hout
        rw [hstop]
        exact ⟨fun hi => absurd hi hout, trivial⟩
    | go octets b' =>
      rw [hgo] at hrest
      rw [measure_from_of_go hgo] at hk
      rw [visit_from_of_go hgo, List.forall_mem_cons] at hwithin
      obtain ⟨hitems, rfl, hpos, hin, hoctets⟩ := turn_go hgo
      obtain ⟨⟨hend, hmeasure⟩, hmore⟩ := hwithin
      dsimp only at hend hmeasure
      have hwidth : g.elem_width ((region.take k).drop i) = octets.length := by
        have hsame := g.elem_width_same ((region.take k).drop i)
        unfold SameWidth USIZE_MAX at hsame
        omega
      have hslice : slice (region.take k) i (i + octets.length) = octets := by
        rw [hoctets]
        unfold slice
        rw [List.take_take, List.length_drop, List.length_take]
        congr 2
        omega
      have hturn : g.turn none (region.take k) i idx b = .go octets { b with items := b.items - 1 } := by
        unfold turn Budget.spend_item
        rw [if_pos (by omega), if_neg (show ¬(none : Option ℕ).any (· ≤ idx) = true from Bool.false_ne_true),
          if_neg (by omega)]
        dsimp only
        rw [hmeasure, if_neg (by omega), hslice]
      rw [hturn]
      exact ⟨fun _ _ _ => by omega, hrest.1, ih hk hrest.2 hmore⟩

/-- Single octets behind a count of one octet. -/
def counted : GroupDesc Empty where
  name := "P".toList
  fields := [FieldDesc.uint "a" 0 8 0]
  elem := .Fixed 1
  extent := .Count 0 8
  start := 1
  align := 1
  nested := none
  when := none

theorem counted_fits : counted.Fits := ⟨by decide, fun _ hn => absurd hn (by simp [counted])⟩

/-- One element more than the count has room for. -/
def overfull : Bytes := 0 :: List.replicate 256 7

theorem overfull_short : overfull.length < 2 ^ 63 := by
  unfold overfull
  rw [List.length_cons, List.length_replicate]
  omega

/-- Elements of the width their first octets claim, behind a count: the second claims more than a
`usize` leaves room for. -/
def counted_sized : GroupDesc Empty where
  name := "rec".toList
  fields := []
  elem := .Computed 0 [⟨0, 64, 1⟩] 0
  extent := .Count 0 8
  start := 1
  align := 1
  nested := none
  when := none

/-- There `sync` itself fails, on a sum that does not fit. -/
example : counted_sized.sync_checked (0 :: overwide) = none := by decide

end GroupDesc

end Wiry.Repeat
