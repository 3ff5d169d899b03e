/-
Where every octet of a direction goes.

Two results about whole runs. The accounts of an open direction balance: its
segments tile the data, the frontier has passed exactly what was delivered, what
is missing and what was cut off, and each delivered octet stands where its
packet carried it. And no octet is lost in silence: what an arrival carried was
delivered, lies in a recorded gap, or was refused and counted.
-/
import Wiry.Stream.Line

set_option autoImplicit false

namespace Wiry.Stream.Build

variable {α : Type}

/-! ## Output never exceeds input -/

/-- The payload octets fed. -/
def fed_octets (fs : List (Arrival α)) : ℕ := (fs.map fun f => f.data.length).sum

/-- What is delivered and what is held was paid for by `n` octets fed. -/
def Paid (n : ℕ) (b : Build α) : Prop := b.half.data.length + b.held_bytes ≤ n

/-- Delivered octets are paid for. -/
theorem Paid.append {b : Build α} {n : ℕ} (h : Paid n b) (data : List α) (pkt : ℕ) :
    Paid (n + data.length) (b.append data pkt) := by
  unfold Paid at h ⊢
  rw [append_data, append_held_bytes, List.length_append, List.length_take]
  omega

/-- The runs held count for what a loop delivers of them. -/
theorem Paid.advance {b b' : Build α} {n : ℕ} (ha : Advance b b') (hb : b.Sound)
    (h : Paid n b) : Paid n b' := by
  -- A pop moves octets from the held runs to the data; a skip moves none.
  induction ha with
  | refl b => exact h
  | @pop b b' ks hd hf hks rest ih =>
    refine ih (hb.take_front hf) ?_
    have hsum : SortedMap.total Held.cells (b.held.remove ks) + hd.cells.length =
        SortedMap.total Held.cells b.held := SortedMap.total_remove_first hf
    have hcounted := (hb.take_front hf).counted
    have hcounted' := hb.counted
    rw [held_take_front] at hcounted
    rw [Held.length_cells] at hsum
    unfold Paid at h ⊢
    rw [take_front_data, List.length_append, List.length_take, List.length_drop]
    omega
  | @skip b b' ks hd hf rest ih =>
    refine ih (hb.skip_to ks) ?_
    have hcounted := (hb.skip_to ks).counted
    have hcounted' := hb.counted
    rw [held_skip_to] at hcounted
    unfold Paid at h ⊢
    rw [skip_to_data]
    omega

/-- Holding a segment holds at most its octets more. -/
theorem hold_held_bytes_le {b : Build α} (hb : b.Sound) (at_ : ℕ) (data : List α) (pkt : ℕ) :
    (b.hold at_ data pkt).held_bytes ≤ b.held_bytes + data.length := by
  have hspec := hold_spec hb at_ data pkt
  -- A run held now was held before, or lies in the segment.
  have hsub : SortedMap.region Held.cells (b.hold at_ data pkt).held ⊆
      SortedMap.region Held.cells b.held ∪ Finset.Ico at_ (at_ + data.length) := by
    intro p hp
    rw [SortedMap.mem_region] at hp
    have hp' : ((b.hold at_ data pkt).cell p).isSome := hp
    rw [hspec.cell] at hp'
    rw [Finset.mem_union, SortedMap.mem_region, Finset.mem_Ico]
    cases hcell : b.cell p with
    | some c =>
      refine Or.inl ?_
      have : SortedMap.lookup Held.cells b.held p = some c := hcell
      rw [this]
      rfl
    | none =>
      rw [hcell, Option.none_or] at hp'
      split at hp'
      · exact Or.inr (carried_isSome.1 hp')
      · cases hp'
  -- regions, counted: no more than the two together
  have hcard := (Finset.card_le_card hsub).trans (Finset.card_union_le _ _)
  rw [hspec.sound.apart.card_region, hb.apart.card_region, Nat.card_Ico] at hcard
  rw [hspec.sound.counted, hb.counted]
  omega

/-- So are held ones. -/
theorem Paid.hold {b : Build α} {n : ℕ} (hb : b.Sound) (h : Paid n b) (at_ : ℕ) (data : List α)
    (pkt : ℕ) : Paid (n + data.length) (b.hold at_ data pkt) := by
  have := hold_held_bytes_le hb at_ data pkt
  unfold Paid at h ⊢
  rw [(hold_spec hb at_ data pkt).frame.half]
  omega

theorem Paid.below {b : Build α} {n : ℕ} (h : Paid n b) (at_ : ℕ) (data : List α) :
    Paid n (b.below at_ data) := by
  unfold Build.below
  split <;> exact h

/-- Fixing the origin pays nothing. -/
theorem Paid.fix_origin {b : Build α} {n : ℕ} (hb : b.Sound) (h : Paid n b) :
    b.fix_origin.Sound ∧ Paid n b.fix_origin := by
  cases hf : b.held.first with
  | none =>
    rw [fix_origin_of_none hf]
    exact ⟨hb, h⟩
  | some x =>
    obtain ⟨h1, h2, h3, -⟩ := fix_origin_spec hb hf
    refine ⟨h1, ?_⟩
    have hc := h1.counted
    rw [h3, ← hb.counted] at hc
    unfold Paid at h ⊢
    rwa [h2, hc]

theorem Paid.mono {b : Build α} {n m : ℕ} (h : Paid n b) (hnm : n ≤ m) : Paid m b :=
  le_trans h hnm

/-- A segment pays for its own octets: each is delivered, held or refused. -/
theorem Paid.take {b : Build α} {n : ℕ} (hb : b.Steered) (h : Paid n b) (f : Arrival α) :
    Paid (n + f.data.length) (b.take f) := by
  have hfed := take_fed b f
  have he := hb.entered f
  have hpaid : Paid n (b.entered f) := by simpa [Paid] using h
  generalize b.take f = b' at hfed ⊢
  generalize b.entered f = e at *
  generalize b.landing f = at_ at *
  -- By the way the octets were fed: refused ones are counted, all others are held or delivered.
  cases hfed with
  | bare hd => exact hpaid.mono (Nat.le_add_right _ _)
  | far hd ho hfar => exact Paid.mono (n := n) hpaid (Nat.le_add_right _ _)
  | waits hd ho hnear hfew => exact hpaid.hold he.sound _ _ _
  | opens hd ho hnear hfull =>
    obtain ⟨hsound, hfix⟩ := (hpaid.hold he.sound at_ f.data f.pkt).fix_origin
      (he.hold at_ f.data f.pkt).sound
    exact hfix.advance (advance_drain _) hsound
  | stale hd ho hend => exact (hpaid.below _ _).mono (Nat.le_add_right _ _)
  | beyond hd ho hfar => exact Paid.mono (n := n) (hpaid.below at_ f.data) (Nat.le_add_right _ _)
  | held hd ho hahead hnear =>
    have hb := he.below at_ f.data
    exact ((hpaid.below at_ f.data).hold hb.sound _ _ _).advance (advance_relieve _)
      (hb.hold at_ f.data f.pkt).sound
  | delivered hd ho hat hend =>
    have hb := he.below at_ f.data
    have hne : f.data.drop (e.next - at_) ≠ [] := by
      rw [← List.length_pos_iff, List.length_drop]
      omega
    refine (((hpaid.below at_ f.data).append _ _).mono ?_).advance (advance_drain _)
      (hb.append hne f.pkt).sound
    rw [List.length_drop]
    omega

/-- Every octet of a run is. -/
theorem paid_run (fs : List (Arrival α)) : Paid (fed_octets fs) (run fs) := by
  refine run_induction (P := fun fs b => Paid (fed_octets fs) b) (Nat.le_refl 0) ?_ fs
  intro fs f h
  have := Paid.take (steered_run fs) h f
  simpa [fed_octets] using this

/-! ## The accounts of an open direction -/

/-- Some arrival carried `c` at position `p`. -/
def Brought (fs : List (Arrival α)) (p : ℕ) (c : α × ℕ) : Prop :=
  ∃ pre f post, fs = pre ++ f :: post ∧ (run pre).carries f p = some c

/-- A segment brings its own octets. -/
theorem admits_brought (fs : List (Arrival α)) (f : Arrival α) :
    Admits (Brought fs) (Brought (fs ++ [f])) (run fs) f := by
  have hnew : ∀ p c, (run fs).claims f p = some c → Brought (fs ++ [f]) p c := by
    intro p c hc
    unfold claims at hc
    split at hc
    · cases hc
    · exact ⟨fs, f, [], rfl, hc⟩
  refine ⟨?_, fun p c hc _ _ => hnew p c hc, fun p c hc _ => hnew p c hc⟩
  rintro p c ⟨pre, g, post, rfl, hc⟩
  exact ⟨pre, g, post ++ [f], by simp, hc⟩

/-- The accounts of a direction that opened at position `s`, `fs` being what it was fed. -/
structure Accounted (fs : List (Arrival α)) (s : ℕ) (b : Build α) : Prop where
  /-- The segments tile the data, none of them empty. -/
  tiles : Half.Tiles 0 b.half.segs b.half.data.length
  /-- The frontier has passed what was delivered, what is missing and what was cut off. -/
  frontier : ∃ cut, b.next = s + b.half.data.length + b.half.missingTotal + cut ∧
    b.half.dropped = refusals fs + cut ∧
    (0 < cut → b.half.data.length = MAX_STREAM ∧ Has b.half.flags TRUNCATED)
  lossy : 0 < refusals fs → Has b.half.flags LOSSY
  gaps_sorted : b.half.gaps.Pairwise fun g g' => g.at_ ≤ g'.at_
  gaps_le : ∀ g ∈ b.half.gaps, g.at_ ≤ b.half.data.length
  data_le : b.half.data.length ≤ MAX_STREAM
  data_le_fed : b.half.data.length ≤ fed_octets fs
  /-- The octet at an offset inside a segment is one its packet carried, where it carried it. -/
  provenance : ∀ seg ∈ b.half.segs, ∀ o, seg.at_ ≤ o → o < seg.at_ + seg.len →
    ∃ x, b.half.data[o]? = some x ∧ Brought fs (s + o + b.half.missing o) (x, seg.pkt)

/-- Where a line runs through the build and every octet is paid for, the account holds. -/
theorem Line.accounted {fs : List (Arrival α)} {s : ℕ} {b : Build α}
    (h : Line s (refusals fs) (Brought fs) b) (hp : Paid (fed_octets fs) b) :
    Accounted fs s b where
  tiles := h.sound.tiles
  -- What the frontier has passed was delivered, lies in a gap, or is behind the ceiling.
  frontier := by
    obtain ⟨cut, hnext, hdrop, hcut⟩ := h.ledger
    refine ⟨cut, hnext, hdrop, fun hc => ⟨?_, (hcut hc).2⟩⟩
    have hroom := (hcut hc).1
    have := h.sound.data_le
    unfold room at hroom
    omega
  lossy := h.lossy
  gaps_sorted := h.sound.gaps_sorted
  gaps_le := h.sound.gaps_le
  data_le := h.sound.data_le
  data_le_fed := by
    unfold Paid at hp
    omega
  -- each octet stands in a segment and carries its packet's number
  provenance := by
    intro seg hseg o hlo hhi
    obtain ⟨pre, post, hsegs⟩ := List.mem_iff_append.1 hseg
    have hpkt := Half.pkts_getElem_of_tiles h.sound.tiles hsegs hlo hhi
    have hlen := h.sound.tiles.length_pkts
    have ho : o < b.half.data.length := by
      have := (List.getElem?_eq_some_iff.1 hpkt).1
      omega
    refine ⟨b.half.data[o], List.getElem?_eq_getElem ho, h.delivered o _ ?_⟩
    rw [Half.octets, List.getElem?_zip_eq_some]
    exact ⟨List.getElem?_eq_getElem ho, hpkt⟩

/-- **The accounts balance**: in every state a run reaches with the direction open, and once it
is finished, everything from where it opened to the frontier is accounted for. A direction that
never opens delivers nothing. -/
theorem run_accounted (fs : List (Arrival α)) :
    ((run fs).open_ = true → ∃ s, start fs = some s ∧ Accounted fs s (run fs)) ∧
    ((∃ s, final_start fs = some s ∧ Accounted fs s (run fs).finished) ∨
      (final_start fs = none ∧ (reassembled fs).data = [] ∧ (reassembled fs).segs = [] ∧
        (reassembled fs).gaps = [])) := by
  have hrun := standing_run fs fun pre f _ _ => admits_brought pre f
  have hpaid := paid_run fs
  have hsteer := steered_run fs
  refine ⟨?_, ?_⟩
  · intro ho
    rcases hrun with ⟨ho', -⟩ | ⟨-, s, hs, hl⟩
    · rw [ho] at ho'
      cases ho'
    · exact ⟨s, hs, hl.accounted hpaid⟩
  · rcases hrun.finished with ⟨-, hs, hc⟩ | ⟨-, s, hs, hl⟩
    · exact Or.inr ⟨hs, hc.data, hc.segs, hc.gaps⟩
    · refine Or.inl ⟨s, hs, hl.accounted ?_⟩
      unfold finished
      split
      · exact hpaid.advance (advance_flush _) hsteer.sound
      · obtain ⟨hsound, hfix⟩ := hpaid.fix_origin hsteer.sound
        exact hfix.advance (advance_flush _) hsound

end Wiry.Stream.Build
