/-
`hold`: an out-of-order segment adds exactly the octets no held run has.

The loop of `hold` walks the stretches of the segment that lie between held
runs. What makes each stretch well defined is that no held run straddles the
loop's position (`ClearAt`): runs that start before it end before it. One turn
then reaches the end of the next held run, and the same is true there.
-/
import Wiry.Stream.Spec

set_option autoImplicit false

namespace Wiry.Stream.Build

variable {α : Type}

/-! ## One turn -/

/-- No held run straddles `cur`. -/
def ClearAt (b : Build α) (cur : ℕ) : Prop :=
  ∀ x ∈ b.held.entries, x.1 < cur → SortedMap.stop Held.cells x ≤ cur

theorem cell_isSome {b : Build α} {p : ℕ} :
    (b.cell p).isSome ↔ ∃ x ∈ b.held.entries, x.1 ≤ p ∧ p < SortedMap.stop Held.cells x :=
  SortedMap.lookup_isSome

theorem cell_eq_none {b : Build α} {p : ℕ} :
    b.cell p = none ↔ ∀ x ∈ b.held.entries, p < x.1 ∨ SortedMap.stop Held.cells x ≤ p := by
  unfold cell
  rw [SortedMap.lookup_eq_none]
  simp only [SortedMap.cellAt_eq_none]

/-- What the next held run is: nothing is held before it, it is held throughout, and no run
straddles its end. -/
structure StopSpec (b : Build α) (cur end_ : ℕ) (stop : ℕ × ℕ) : Prop where
  le_fst : cur ≤ stop.1
  fst_le : stop.1 ≤ end_
  fst_le_snd : stop.1 ≤ stop.2
  lt_snd : cur < stop.2
  run_of_lt : stop.1 < end_ → stop.1 < stop.2
  free : ∀ p, cur ≤ p → p < stop.1 → b.cell p = none
  full : ∀ p, stop.1 ≤ p → p < stop.2 → (b.cell p).isSome
  clear : b.ClearAt stop.2

/-- Where one stretch of a held segment stops: at its end, at the next held segment, or behind the
one it stands in. -/
theorem hold_stop_spec {b : Build α} (hb : b.Sound) {cur end_ : ℕ} (hclear : b.ClearAt cur)
    (hcur : cur < end_) : StopSpec b cur end_ (b.hold_stop cur end_) := by
  -- With no run starting in the segment, everything from `cur` to its end is free.
  have hnone : (∀ x ∈ b.held.entries, x.1 < cur ∨ end_ ≤ x.1) →
      StopSpec b cur end_ (end_, end_) := by
    intro hout
    refine ⟨hcur.le, le_rfl, le_rfl, hcur, fun h => h, ?_, ?_, ?_⟩
    · intro p hp hpe
      refine cell_eq_none.2 fun x hx => ?_
      rcases hout x hx with h | h
      · have := hclear x hx h
        omega
      · dsimp only at hpe
        omega
    · intro p hp hpe
      dsimp only at hp hpe
      omega
    · intro x hx hxe
      rcases hout x hx with h | h
      · have := hclear x hx h
        dsimp only
        omega
      · dsimp only at hxe
        omega
  unfold hold_stop
  split
  · rename_i ks h hceil
    obtain ⟨hmem, hks, hleast⟩ := SortedMap.ceil_eq_some hceil
    dsimp only at hks hleast
    split
    · rename_i hke
      have hpos : 0 < h.bytes.length := by
        have := hb.apart.nonempty _ hmem
        rwa [← List.length_pos_iff, Held.length_cells] at this
      have hstop : SortedMap.stop Held.cells (ks, h) = ks + h.bytes.length := by
        simp [SortedMap.stop]
      refine ⟨hks, hke.le, Nat.le_add_right _ _, by dsimp only; omega,
        fun _ => by dsimp only; omega, ?_, ?_, ?_⟩
      · intro p hp hpk
        dsimp only at hpk
        refine cell_eq_none.2 fun x hx => ?_
        rcases Nat.lt_or_ge x.1 cur with hlt | hge
        · have := hclear x hx hlt
          omega
        · have := hleast x hx hge
          omega
      · intro p hp hpk
        dsimp only at hp hpk
        exact cell_isSome.2 ⟨_, hmem, hp, by omega⟩
      · intro x hx hxe
        dsimp only at hxe ⊢
        by_contra hover
        -- A run that starts before the end of the stop and ends past it shares a position
        -- with it.
        rcases Nat.lt_or_ge x.1 cur with hlt | hge
        · have := hclear x hx hlt
          omega
        · have hkx := hleast x hx hge
          have heq := hb.apart.unique (p := x.1) hx hmem ⟨le_rfl, by omega⟩ ⟨hkx, by omega⟩
          rw [heq] at hover
          omega
    · rename_i hke
      refine hnone fun x hx => ?_
      rcases Nat.lt_or_ge x.1 cur with hlt | hge
      · exact Or.inl hlt
      · have := hleast x hx hge
        omega
  · rename_i hceil
    exact hnone fun x hx => Or.inl (SortedMap.ceil_eq_none hceil x hx)

/-- The octets a turn keeps are those the segment carries there. -/
theorem carried_slice {at_ cur n : ℕ} {src : List α} (pkt : ℕ) (hat : at_ ≤ cur) (p : ℕ) :
    carried cur ((src.drop (cur - at_)).take n) pkt p =
      if cur ≤ p ∧ p < cur + n then carried at_ src pkt p else none := by
  rw [carried_eq, carried_eq]
  split
  · rw [List.getElem?_take]
    split
    · rw [if_pos (by omega), if_pos (by omega), List.getElem?_drop]
      congr 2
      omega
    · rw [if_neg (by omega)]
      rfl
  · rw [if_neg (by omega)]

/-- What holding changes: the held runs and their count. -/
structure SameButHeld (b b' : Build α) : Prop where
  half : b'.half = b.half
  next : b'.next = b.next
  origin : b'.origin = b.origin
  started : b'.started = b.started
  open_ : b'.open_ = b.open_

theorem SameButHeld.refl (b : Build α) : SameButHeld b b := ⟨rfl, rfl, rfl, rfl, rfl⟩

theorem SameButHeld.trans {b b' b'' : Build α} (h : SameButHeld b b') (h' : SameButHeld b' b'') :
    SameButHeld b b'' :=
  ⟨h'.half.trans h.half, h'.next.trans h.next, h'.origin.trans h.origin,
    h'.started.trans h.started, h'.open_.trans h.open_⟩

theorem sameButHeld_turn (b : Build α) (at_ : ℕ) (src : List α) (pkt cur : ℕ) :
    SameButHeld b (b.hold_turn at_ src pkt cur) := by
  unfold hold_turn
  dsimp only
  split
  · exact ⟨rfl, rfl, rfl, rfl, rfl⟩
  · exact .refl b

/-- Keeping a run in a free stretch adds its octets there. -/
theorem insert_held_spec {b : Build α} (hb : b.Sound) {k : ℕ} {bytes : List α} (pkt : ℕ)
    (hne : bytes ≠ []) (hfree : ∀ p, k ≤ p → p < k + bytes.length → b.cell p = none) :
    (b.insert_held k bytes pkt).Sound ∧
      (∀ p, (b.insert_held k bytes pkt).cell p = (b.cell p).or (carried k bytes pkt p)) ∧
      (b.insert_held k bytes pkt).held.length = b.held.length + 1 := by
  have hcells : (Held.mk bytes pkt).cells ≠ [] := by
    rwa [← List.length_pos_iff, Held.length_cells, List.length_pos_iff]
  have hfree' : ∀ p, k ≤ p → p < k + (Held.mk bytes pkt).cells.length →
      SortedMap.lookup Held.cells b.held p = none := by
    intro p hp hpl
    rw [Held.length_cells] at hpl
    exact hfree p hp hpl
  refine ⟨⟨hb.apart.insert hcells hfree', ?_, hb.tiles, hb.gaps_sorted, hb.gaps_le, hb.data_le⟩,
    fun p => hb.apart.lookup_insert hcells hfree' p,
    SortedMap.length_insert (hb.apart.key_ne hcells hfree')⟩
  have htot := hb.apart.total_insert hcells hfree'
  have hcount := hb.counted
  have hlen : (Held.mk bytes pkt).cells.length = bytes.length := Held.length_cells _
  rw [hlen] at htot
  simp only [insert_held]
  omega

/-- What a turn of the loop does, in terms of where it stops. -/
structure TurnSpec (b : Build α) (at_ : ℕ) (src : List α) (pkt cur : ℕ) (stop : ℕ × ℕ)
    (b' : Build α) : Prop where
  sound : b'.Sound
  cell : ∀ p, b'.cell p =
    (b.cell p).or (if cur ≤ p ∧ p < stop.1 then carried at_ src pkt p else none)
  clear : b'.ClearAt stop.2
  length : b'.held.length = b.held.length + if cur < stop.1 then 1 else 0

/-- One turn of the holding loop fills one stretch, and no cell that was filled. -/
theorem hold_turn_spec {b : Build α} {at_ cur : ℕ} {src : List α} (pkt : ℕ) (hb : b.Sound)
    (hat : at_ ≤ cur) (hclear : b.ClearAt cur) (hcur : cur < at_ + src.length) :
    TurnSpec b at_ src pkt cur (b.hold_stop cur (at_ + src.length))
      (b.hold_turn at_ src pkt cur) := by
  -- The stretch ends at a held run or at the segment's end, and nothing is filled before that.
  have hs := hold_stop_spec hb hclear hcur
  unfold hold_turn
  dsimp only
  generalize b.hold_stop cur (at_ + src.length) = stop at hs ⊢
  -- An empty stretch stands on a held run, and there is nothing to fill.
  by_cases hlt : cur < stop.1
  · rw [if_pos hlt]
    have hle := hs.fst_le
    have hlen : ((src.drop (cur - at_)).take (stop.1 - cur)).length = stop.1 - cur := by
      rw [List.length_take, List.length_drop]
      omega
    have hne : (src.drop (cur - at_)).take (stop.1 - cur) ≠ [] := by
      rw [← List.length_pos_iff, hlen]
      omega
    obtain ⟨hsound, hcell, hlength⟩ :=
      insert_held_spec hb pkt hne fun p hp hpl => hs.free p hp (by omega)
    refine ⟨hsound, ?_, ?_, by rw [hlength, if_pos hlt]⟩
    · intro p
      rw [hcell, carried_slice pkt hat, show cur + (stop.1 - cur) = stop.1 by omega]
    · intro x hx hxs
      rcases SortedMap.mem_insert.1 hx with rfl | ⟨hx, -⟩
      · have := hs.fst_le_snd
        rw [SortedMap.stop, Held.length_cells, hlen]
        omega
      · exact hs.clear x hx hxs
  · rw [if_neg hlt]
    refine ⟨hb, ?_, hs.clear, by rw [if_neg hlt, Nat.add_zero]⟩
    intro p
    rw [if_neg (by omega), Option.or_none]

/-! ## The loop -/

/-- Where an uncovered stretch of `[lo, hi)` begins. -/
def stretches (b : Build α) (lo hi : ℕ) : Finset ℕ :=
  (Finset.Ico lo hi).filter fun p => b.cell p = none ∧ (p = lo ∨ (b.cell (p - 1)).isSome)

theorem mem_stretches {b : Build α} {lo hi p : ℕ} :
    p ∈ b.stretches lo hi ↔
      (lo ≤ p ∧ p < hi) ∧ b.cell p = none ∧ (p = lo ∨ (b.cell (p - 1)).isSome) := by
  simp [stretches]

/-- What the loop does from `cur` on. -/
structure HoldSpec (b : Build α) (at_ : ℕ) (src : List α) (pkt cur : ℕ) (b' : Build α) : Prop where
  sound : b'.Sound
  cell : ∀ p, b'.cell p = (b.cell p).or (if cur ≤ p then carried at_ src pkt p else none)
  frame : SameButHeld b b'
  length : b'.held.length = b.held.length + (b.stretches cur (at_ + src.length)).card

/-- The stretches from `cur` on are the one a turn keeps, if it keeps one, and those past it. -/
theorem card_stretches_turn {b b₁ : Build α} {at_ cur : ℕ} {src : List α} {pkt : ℕ} {stop : ℕ × ℕ}
    (hs : StopSpec b cur (at_ + src.length) stop) (ht : TurnSpec b at_ src pkt cur stop b₁) :
    (b.stretches cur (at_ + src.length)).card =
      (if cur < stop.1 then 1 else 0) + (b₁.stretches stop.2 (at_ + src.length)).card := by
  have hle := hs.fst_le_snd
  have hlt := hs.lt_snd
  have hfst := hs.le_fst
  have hend := hs.fst_le
  have hcell : ∀ p, stop.1 ≤ p → b₁.cell p = b.cell p := by
    intro p hp
    rw [ht.cell, if_neg (by omega), Option.or_none]
  -- Past the run the two sets agree; at its end the position before it is held.
  have hpast : ∀ p, stop.2 ≤ p → (p ∈ b.stretches cur (at_ + src.length) ↔
      p ∈ b₁.stretches stop.2 (at_ + src.length)) := by
    intro p hp
    rw [mem_stretches, mem_stretches, hcell p (by omega)]
    rcases Nat.lt_or_ge stop.2 p with hgt | hge
    · rw [hcell (p - 1) (by omega)]
      have h1 : p ≠ cur := by omega
      have h2 : p ≠ stop.2 := by omega
      have h3 : cur ≤ p := by omega
      simp [h1, h2, h3, hp]
    · obtain rfl : p = stop.2 := by omega
      constructor
      · rintro ⟨⟨-, h1⟩, h2, -⟩
        exact ⟨⟨le_rfl, h1⟩, h2, Or.inl rfl⟩
      · rintro ⟨⟨-, h1⟩, h2, -⟩
        have hrun := hs.run_of_lt (by omega)
        exact ⟨⟨by omega, h1⟩, h2, Or.inr (hs.full _ (by omega) (by omega))⟩
  -- Before its end the only stretch is the one that starts at `cur`.
  have hbefore : ∀ p, p < stop.2 → (p ∈ b.stretches cur (at_ + src.length) ↔
      p = cur ∧ cur < stop.1) := by
    intro p hp
    rw [mem_stretches]
    constructor
    · rintro ⟨⟨h1, h2⟩, h3, h4⟩
      have hps : p < stop.1 := by
        by_contra hge
        have := hs.full p (by omega) hp
        rw [h3] at this
        cases this
      rcases h4 with rfl | h4
      · exact ⟨rfl, hps⟩
      · by_contra hne
        rw [hs.free (p - 1) (by omega) (by omega)] at h4
        cases h4
    · rintro ⟨rfl, h⟩
      exact ⟨⟨le_rfl, by omega⟩, hs.free p le_rfl h, Or.inl rfl⟩
  have hunion : b.stretches cur (at_ + src.length) =
      (if cur < stop.1 then {cur} else ∅) ∪ b₁.stretches stop.2 (at_ + src.length) := by
    ext p
    rw [Finset.mem_union]
    rcases Nat.lt_or_ge p stop.2 with hp | hp
    · have hout : p ∉ b₁.stretches stop.2 (at_ + src.length) := by
        rw [mem_stretches]
        omega
      rw [hbefore p hp]
      split_ifs with h <;> simp [h, hout]
    · rw [hpast p hp]
      have hne : p ≠ cur := by omega
      split_ifs with h <;> simp [hne]
  have hdisj : Disjoint (if cur < stop.1 then {cur} else ∅ : Finset ℕ)
      (b₁.stretches stop.2 (at_ + src.length)) := by
    rw [Finset.disjoint_left]
    intro p hp hq
    rw [mem_stretches] at hq
    split_ifs at hp
    · rw [Finset.mem_singleton] at hp
      omega
    · cases hp
  rw [hunion, Finset.card_union_of_disjoint hdisj]
  split_ifs <;> simp

/-- **The loop of `hold`**: it adds the octets of the segment from `cur` on that no run held. -/
theorem hold_from_spec (b : Build α) (at_ : ℕ) (src : List α) (pkt cur : ℕ) (hb : b.Sound)
    (hat : at_ ≤ cur) (hclear : b.ClearAt cur) :
    HoldSpec b at_ src pkt cur (b.hold_from at_ src pkt cur) := by
  -- By the stretches: the search goes on strictly behind each of them.
  rw [hold_from]
  split
  · rename_i hcur
    have hs := hold_stop_spec hb hclear hcur
    have ht := hold_turn_spec pkt hb hat hclear hcur
    have hframe := sameButHeld_turn b at_ src pkt cur
    generalize b.hold_stop cur (at_ + src.length) = stop at hs ht ⊢
    generalize b.hold_turn at_ src pkt cur = b₁ at ht hframe ⊢
    have hlt := hs.lt_snd
    have hfst := hs.fst_le_snd
    rw [Nat.max_eq_left (by omega : cur + 1 ≤ stop.2)]
    have ih := hold_from_spec b₁ at_ src pkt stop.2 ht.sound (by omega) ht.clear
    -- What the turn filled and what the rest filled, with the stretches counted once each.
    refine ⟨ih.sound, ?_, hframe.trans ih.frame, ?_⟩
    · intro p
      rw [ih.cell, ht.cell]
      rcases Nat.lt_or_ge p stop.2 with hp | hp
      · rw [if_neg (by omega : ¬ stop.2 ≤ p), Option.or_none]
        by_cases hcp : cur ≤ p
        · rcases Nat.lt_or_ge p stop.1 with hps | hps
          · rw [if_pos ⟨hcp, hps⟩, if_pos hcp]
          · obtain ⟨c, hc⟩ := Option.isSome_iff_exists.1 (hs.full p hps hp)
            simp [hc]
        · rw [if_neg (by omega), if_neg hcp]
      · rw [if_neg (by omega), if_pos hp, if_pos (by omega), Option.or_none]
    · rw [ih.length, ht.length, card_stretches_turn hs ht]
      omega
  · rename_i hcur
    have hempty : b.stretches cur (at_ + src.length) = ∅ := by
      ext p
      rw [mem_stretches]
      simp only [Finset.notMem_empty, iff_false]
      omega
    refine ⟨hb, ?_, .refl b, by rw [hempty, Finset.card_empty, Nat.add_zero]⟩
    intro p
    split
    · rw [carried_eq_none.2 (by omega), Option.or_none]
    · rw [Option.or_none]
termination_by at_ + src.length - cur
decreasing_by
  have := hold_stop_spec hb hclear ‹_›
  have := this.lt_snd
  omega

/-! ## `hold` -/

/-- Every run held has a position. -/
theorem Sound.lt_stop {b : Build α} (hb : b.Sound) {x : ℕ × Held α} (hx : x ∈ b.held.entries) :
    x.1 < SortedMap.stop Held.cells x := by
  have := List.length_pos_iff.2 (hb.apart.nonempty x hx)
  simp only [SortedMap.stop]
  omega

/-- Past the end of a run, and with no later run starting before, nothing straddles. -/
theorem Sound.clearAt {b : Build α} (hb : b.Sound) {x : ℕ × Held α} {cur : ℕ}
    (hx : x ∈ b.held.entries) (hstop : SortedMap.stop Held.cells x ≤ cur)
    (hlast : ∀ y ∈ b.held.entries, y.1 < cur → y.1 ≤ x.1) : b.ClearAt cur := by
  intro y hy hyc
  by_contra hover
  have hxs := hb.lt_stop hx
  have heq := hb.apart.unique (p := x.1) hy hx ⟨hlast y hy hyc, by omega⟩ ⟨le_rfl, hxs⟩
  rw [heq] at hover
  omega

/-- A prefix that is held throughout begins no stretch. -/
theorem stretches_of_full {b : Build α} {lo mid : ℕ} (hi : ℕ) (hle : lo ≤ mid)
    (hfull : ∀ p, lo ≤ p → p < mid → (b.cell p).isSome) : b.stretches lo hi = b.stretches mid hi := by
  ext p
  rw [mem_stretches, mem_stretches]
  constructor
  · rintro ⟨⟨h1, h2⟩, h3, h4⟩
    have hmid : mid ≤ p := by
      by_contra hlt
      have := hfull p h1 (by omega)
      rw [h3] at this
      cases this
    refine ⟨⟨hmid, h2⟩, h3, ?_⟩
    rcases h4 with rfl | h4
    · exact Or.inl (by omega)
    · exact Or.inr h4
  · rintro ⟨⟨h1, h2⟩, h3, h4⟩
    refine ⟨⟨by omega, h2⟩, h3, ?_⟩
    rcases h4 with rfl | h4
    · rcases Nat.lt_or_ge lo p with hlt | hge
      · exact Or.inr (hfull _ (by omega) (by omega))
      · exact Or.inl (by omega)
    · exact Or.inr h4

/-- **`hold`**: the octets of the segment that no run held are held, first writer first; nothing
else changes. -/
theorem hold_spec {b : Build α} (hb : b.Sound) (at_ : ℕ) (src : List α) (pkt : ℕ) :
    HoldSpec b at_ src pkt at_ (b.hold at_ src pkt) := by
  unfold hold
  split
  · rename_i ps h hfloor
    obtain ⟨hmem, hps, hgreatest⟩ := SortedMap.floor_eq_some hfloor
    dsimp only at hps hgreatest
    have hstop : SortedMap.stop Held.cells (ps, h) = ps + h.bytes.length := by
      simp [SortedMap.stop]
    -- The floor covers the segment up to its own end.
    have hin : ∀ p, at_ ≤ p → p < ps + h.bytes.length → (b.cell p).isSome := fun p hp hpe =>
      cell_isSome.2 ⟨_, hmem, hps.trans hp, by omega⟩
    have hkeep : ∀ p, p < ps + h.bytes.length → at_ ≤ p →
        (b.cell p).or (carried at_ src pkt p) = b.cell p := by
      intro p hpe hp
      obtain ⟨c, hc⟩ := Option.isSome_iff_exists.1 (hin p hp hpe)
      rw [hc, Option.some_or]
    dsimp only
    split
    · rename_i hpe
      refine ⟨hb, ?_, .refl b, ?_⟩
      · intro p
        split
        · rcases Nat.lt_or_ge p (at_ + src.length) with hlt | hge
          · rw [hkeep p (by omega) ‹_›]
          · rw [carried_eq_none.2 (Or.inr hge), Option.or_none]
        · rw [Option.or_none]
      · have hempty : b.stretches at_ (at_ + src.length) = ∅ := by
          have hfull : ∀ p, at_ ≤ p → p < at_ + src.length → (b.cell p).isSome :=
            fun p hp hpe' => hin p hp (by omega)
          rw [stretches_of_full _ (Nat.le_add_right _ _) hfull]
          simp [stretches]
        rw [hempty, Finset.card_empty, Nat.add_zero]
    · rename_i hpe
      have hclear : b.ClearAt (max at_ (ps + h.bytes.length)) := by
        refine hb.clearAt hmem (by omega) fun y hy hyc => ?_
        rcases Nat.lt_or_ge at_ y.1 with hgt | hle
        · -- A run that starts past `at_` and before the end of the floor is the floor.
          have heq := hb.apart.unique (p := y.1) hy hmem ⟨le_rfl, hb.lt_stop hy⟩
            ⟨by dsimp only; omega, by omega⟩
          rw [heq]
        · exact hgreatest y hy hle
      have ih := hold_from_spec b at_ src pkt (max at_ (ps + h.bytes.length)) hb
        (Nat.le_max_left _ _) hclear
      refine ⟨ih.sound, ?_, ih.frame, ?_⟩
      · intro p
        rw [ih.cell]
        by_cases hp : at_ ≤ p
        · rw [if_pos hp]
          rcases Nat.lt_or_ge p (ps + h.bytes.length) with hlt | hge
          · rw [hkeep p hlt hp]
            split
            · exact hkeep p hlt hp
            · rw [Option.or_none]
          · rw [if_pos (by omega)]
        · rw [if_neg hp, if_neg (by omega)]
      · have hfull : ∀ p, at_ ≤ p → p < max at_ (ps + h.bytes.length) → (b.cell p).isSome :=
          fun p hp hpe => hin p hp (by omega)
        rw [ih.length, stretches_of_full _ (Nat.le_max_left _ _) hfull]
  · rename_i hfloor
    refine hold_from_spec b at_ src pkt at_ hb le_rfl ?_
    intro x hx hlt
    have := SortedMap.floor_eq_none hfloor x hx
    omega

end Wiry.Stream.Build
