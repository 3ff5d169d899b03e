/-
What a segment of a reassembled direction is: octets of one packet that stand on
the line as they stand in the data.

`push_seg` joins two deliveries of one packet that are neighbours in the data.
That they are neighbours on the line as well is no matter of `push_seg`: it holds
because what waits of one packet waits together, with nothing missing in
between, for as long as each packet is fed once.
-/
import Wiry.Stream.Account
import Mathlib.Data.List.Chain

set_option autoImplicit false

namespace Wiry.Stream.Build

variable {α : Type}

/-! ## Joining a delivery to the last one -/

/-- On tiles a delivery extends the last segment exactly if that is of its packet. -/
theorem push_seg_cases {segs : List Seg} {len : ℕ} (ht : Half.Tiles 0 segs len) (n pkt : ℕ) :
    (∃ pre s, segs = pre ++ [s] ∧ s.pkt = pkt ∧ s.at_ + s.len = len ∧
        push_seg segs len n pkt = pre ++ [{ s with len := s.len + n }]) ∨
      ((∀ s, segs.getLast? = some s → s.pkt ≠ pkt) ∧
        push_seg segs len n pkt = segs ++ [⟨len, n, pkt⟩]) := by
  unfold push_seg
  rcases hlast : segs.getLast? with - | s
  · exact Or.inr ⟨nofun, rfl⟩
  · obtain ⟨pre, rfl⟩ := List.getLast?_eq_some_iff.1 hlast
    have hend : s.at_ + s.len = len := ht.last.2
    dsimp only
    by_cases hpkt : s.pkt = pkt
    · rw [if_pos ⟨hpkt, hend⟩, List.dropLast_concat]
      exact Or.inl ⟨pre, s, rfl, hpkt, hend, rfl⟩
    · rw [if_neg fun h => hpkt h.1]
      refine Or.inr ⟨?_, rfl⟩
      rintro t ht'
      rw [← Option.some.inj ht']
      exact hpkt

/-- After a delivery the last segment is of its packet. -/
theorem getLast?_push_seg {segs : List Seg} {len : ℕ} (ht : Half.Tiles 0 segs len) (n pkt : ℕ) :
    ∃ s, (push_seg segs len n pkt).getLast? = some s ∧ s.pkt = pkt := by
  rcases push_seg_cases ht n pkt with ⟨pre, s, -, hpkt, -, heq⟩ | ⟨-, heq⟩
  · rw [heq, List.getLast?_concat]
    exact ⟨_, rfl, hpkt⟩
  · rw [heq, List.getLast?_concat]
    exact ⟨_, rfl, rfl⟩

/-- Neighbouring segments are of different packets. -/
def Merged (segs : List Seg) : Prop := segs.IsChain fun s t => s.pkt ≠ t.pkt

/-- Pushing a stretch keeps neighbours of one packet merged. -/
theorem Merged.push_seg {segs : List Seg} {len : ℕ} (h : Merged segs)
    (ht : Half.Tiles 0 segs len) (n pkt : ℕ) : Merged (push_seg segs len n pkt) := by
  unfold Merged at h ⊢
  rcases push_seg_cases ht n pkt with ⟨pre, s, rfl, -, -, heq⟩ | ⟨hne, heq⟩
  · obtain ⟨hpre, -, hlink⟩ := List.isChain_append.1 h
    rw [heq, List.isChain_append]
    refine ⟨hpre, List.isChain_singleton _, ?_⟩
    intro x hx y hy
    obtain rfl : { s with len := s.len + n } = y := Option.some.inj hy
    exact hlink x hx s rfl
  · rw [heq, List.isChain_append]
    refine ⟨h, List.isChain_singleton _, ?_⟩
    intro x hx y hy
    obtain rfl : ⟨len, n, pkt⟩ = y := Option.some.inj hy
    exact hne x hx

/-- No gap falls inside a segment. -/
def Whole (segs : List Seg) (gaps : List Gap) : Prop :=
  ∀ s ∈ segs, ∀ g ∈ gaps, g.at_ ≤ s.at_ ∨ s.at_ + s.len ≤ g.at_

/-- A delivery joins nothing across a gap, if no gap was recorded since the packet it continues. -/
theorem Whole.push_seg {segs : List Seg} {gaps : List Gap} {len : ℕ} (h : Whole segs gaps)
    (ht : Half.Tiles 0 segs len) (n : ℕ) {pkt : ℕ} (hle : ∀ g ∈ gaps, g.at_ ≤ len)
    (hjoin : ∀ s, segs.getLast? = some s → s.pkt = pkt → ∀ g ∈ gaps, g.at_ < len) :
    Whole (push_seg segs len n pkt) gaps := by
  intro t ht' g hg
  rcases push_seg_cases ht n pkt with ⟨pre, s, rfl, hpkt, hend, heq⟩ | ⟨-, heq⟩
  · rw [heq] at ht'
    rcases List.mem_append.1 ht' with ht' | ht'
    · exact h t (List.mem_append_left _ ht') g hg
    · rw [List.mem_singleton.1 ht']
      have hlt := hjoin s List.getLast?_concat hpkt g hg
      have hs := h s (List.mem_append_right _ (List.mem_singleton_self s)) g hg
      dsimp only
      omega
  · rw [heq] at ht'
    rcases List.mem_append.1 ht' with ht' | ht'
    · exact h t ht' g hg
    · rw [List.mem_singleton.1 ht']
      exact Or.inl (hle g hg)

/-! ## The invariant -/

/-- Everything from `lo` up to `hi` is held. -/
def Filled (b : Build α) (lo hi : ℕ) : Prop := ∀ q, lo ≤ q → q ≤ hi → (b.cell q).isSome

/-- What waits of one packet waits with nothing missing in between. -/
def Together (b : Build α) : Prop :=
  ∀ p r c c', b.cell p = some c → b.cell r = some c' → c.2 = c'.2 → b.Filled p r

/-- The segments are octets that stand together on the line, and what waits keeps them so. -/
structure Unbroken (b : Build α) : Prop where
  merged : Merged b.half.segs
  whole : Whole b.half.segs b.half.gaps
  together : b.Together
  /-- What waits of the packet delivered last follows on it, with no gap recorded since. -/
  follows : 0 < b.room → ∀ s, b.half.segs.getLast? = some s → ∀ r c, b.cell r = some c →
    c.2 = s.pkt → b.Filled b.next r ∧ ∀ g ∈ b.half.gaps, g.at_ < b.half.data.length

/-- The packet has neither delivered anything nor left anything waiting. -/
structure Fresh (b : Build α) (pkt : ℕ) : Prop where
  segs : ∀ s ∈ b.half.segs, s.pkt ≠ pkt
  cells : ∀ p c, b.cell p = some c → c.2 ≠ pkt

section Steps

variable {b b' : Build α}

/-- A direction with no segment asks only that what waits of one packet waits together. -/
theorem unbroken_of_nil (hsegs : b.half.segs = []) (h : b.Together) : b.Unbroken where
  merged := by
    rw [hsegs]
    exact List.isChain_nil
  whole := by
    rw [hsegs]
    exact fun s hs => absurd hs List.not_mem_nil
  together := h
  follows := by
    intro _ s hs
    rw [hsegs] at hs
    exact absurd hs nofun

theorem unbroken_init : Unbroken ({} : Build α) := unbroken_of_nil rfl nofun

/-- Flags and counters play no part. -/
theorem Unbroken.congr (h : b.Unbroken) (hsegs : b'.half.segs = b.half.segs)
    (hgaps : b'.half.gaps = b.half.gaps) (hdata : b'.half.data = b.half.data)
    (hnext : b'.next = b.next) (hheld : b'.held = b.held) : b'.Unbroken := by
  have hcell : ∀ p, b'.cell p = b.cell p := fun p => by rw [cell, cell, hheld]
  have hroom : b'.room = b.room := by rw [room, room, hdata]
  refine ⟨by rw [hsegs]; exact h.merged, by rw [hsegs, hgaps]; exact h.whole, ?_, ?_⟩
  · intro p r c c' hp hr hpkt q hlo hhi
    rw [hcell] at hp hr ⊢
    exact h.together p r c c' hp hr hpkt q hlo hhi
  · intro hpos s hs r c hr hpkt
    rw [hroom] at hpos
    rw [hsegs] at hs
    rw [hcell] at hr
    obtain ⟨hfill, hlt⟩ := h.follows hpos s hs r c hr hpkt
    refine ⟨?_, by rwa [hgaps, hdata]⟩
    rintro q hlo hhi
    rw [hnext] at hlo
    rw [hcell]
    exact hfill q hlo hhi

/-- Refusing breaks no run. -/
theorem Unbroken.below (h : b.Unbroken) (at_ : ℕ) (data : List α) : (b.below at_ data).Unbroken := by
  unfold Build.below
  split
  · exact h.congr rfl rfl rfl rfl rfl
  · exact h

/-- Delivering keeps the segments unbroken, if the delivery follows on what it joins and what still
waits of its packet follows on the delivery. -/
theorem unbroken_append (hb : b.Sound) (hmerged : Merged b.half.segs)
    (hwhole : Whole b.half.segs b.half.gaps) (htogether : b.Together) {data : List α}
    (hd : data ≠ []) {pkt : ℕ}
    (hjoin : 0 < b.room → ∀ s, b.half.segs.getLast? = some s → s.pkt = pkt →
      ∀ g ∈ b.half.gaps, g.at_ < b.half.data.length)
    (hrest : 0 < b.room → ∀ r c, b.cell r = some c → c.2 = pkt →
      b.Filled (b.next + data.length) r) : (b.append data pkt).Unbroken := by
  have hcell : ∀ p, (b.append data pkt).cell p = b.cell p := fun p => by
    rw [cell, cell, held_append]
  have htogether' : (b.append data pkt).Together := by
    intro p r c c' hp hr hpkt q hlo hhi
    rw [hcell] at hp hr ⊢
    exact htogether p r c c' hp hr hpkt q hlo hhi
  by_cases hroom : b.room = 0
  · -- nothing is delivered, and nothing ever will be
    refine ⟨?_, ?_, htogether', ?_⟩
    · rw [append_segs, if_pos hroom]
      exact hmerged
    · rw [append_segs, if_pos hroom, append_gaps]
      exact hwhole
    · intro hpos
      unfold room at hpos hroom
      rw [append_data, List.length_append] at hpos
      omega
  · have hroom' := Nat.pos_of_ne_zero hroom
    refine ⟨?_, ?_, htogether', ?_⟩
    · rw [append_segs, if_neg hroom]
      exact hmerged.push_seg hb.tiles _ _
    · rw [append_segs, if_neg hroom, append_gaps]
      exact hwhole.push_seg hb.tiles _ hb.gaps_le (hjoin hroom')
    · intro _ s hs r c hr hpkt
      rw [append_segs, if_neg hroom] at hs
      obtain ⟨s', hs', hpkt'⟩ := getLast?_push_seg hb.tiles (min data.length b.room) pkt
      obtain rfl : s = s' := Option.some.inj (hs.symm.trans hs')
      rw [hcell] at hr
      refine ⟨?_, ?_⟩
      · intro q hlo hhi
        rw [append_next] at hlo
        rw [hcell]
        exact hrest hroom' r c hr (hpkt.trans hpkt') q hlo hhi
      · intro g hg
        rw [append_gaps] at hg
        have hle := hb.gaps_le g hg
        have hpos := List.length_pos_iff.2 hd
        rw [append_data, List.length_append, List.length_take]
        omega

/-- A turn of `drain`: the first run leaves, and what of it is delivered follows on what was
delivered of its packet. -/
theorem Unbroken.take_front (h : b.Unbroken) (hb : b.Sound) {ks : ℕ} {hd : Held α}
    (hf : b.held.first = some (ks, hd)) (hks : ks ≤ b.next) : (b.take_front ks hd).Unbroken := by
  have hlen := hb.first_pos hf
  have hcell : ∀ p, (b.pop ks hd).cell p =
      if ks + hd.bytes.length ≤ p then b.cell p else none := by
    intro p
    unfold cell
    rw [pop_held]
    simpa [SortedMap.stop] using hb.apart.lookup_remove_first hf p
  have hsome : ∀ {p : ℕ} {c : α × ℕ}, (b.pop ks hd).cell p = some c →
      ks + hd.bytes.length ≤ p ∧ b.cell p = some c := by
    intro p c hp
    rw [hcell] at hp
    split at hp
    · exact ⟨‹_›, hp⟩
    · cases hp
  -- a stretch past the run is as full without it
  have hfilled : ∀ {lo hi : ℕ}, ks + hd.bytes.length ≤ lo → b.Filled lo hi →
      (b.pop ks hd).Filled lo hi := by
    intro lo hi hlo hfill q hq hqhi
    rw [hcell, if_pos (by omega)]
    exact hfill q hq hqhi
  have htogether : (b.pop ks hd).Together := by
    intro p r c c' hp hr hpkt
    obtain ⟨hlo, hp'⟩ := hsome hp
    exact hfilled hlo (h.together p r c c' hp' (hsome hr).2 hpkt)
  -- every octet of the run is of its packet
  have hrun : ∀ p, ks ≤ p → p < ks + hd.bytes.length → ∃ c, b.cell p = some c ∧ c.2 = hd.pkt := by
    intro p hlo hhi
    have hget : p - ks < hd.bytes.length := by omega
    refine ⟨(hd.bytes[p - ks], hd.pkt), ?_, rfl⟩
    rw [cell_first hb hf hhi, carried_eq, if_pos hlo, List.getElem?_eq_getElem hget]
    rfl
  unfold Build.take_front
  dsimp only
  split
  · rename_i hle
    refine ⟨h.merged, h.whole, htogether, ?_⟩
    intro hroom s hs r c hr hpkt
    obtain ⟨hfill, hlt⟩ := h.follows hroom s hs r c (hsome hr).2 hpkt
    exact ⟨hfilled hle hfill, hlt⟩
  · rename_i hgt
    have hne : hd.bytes.drop (b.next - ks) ≠ [] := by
      rw [← List.length_pos_iff, List.length_drop]
      omega
    apply unbroken_append (hb.popped hf) h.merged h.whole htogether hne
    · intro hroom s hs hpkt
      obtain ⟨c, hc, hcpkt⟩ := hrun ks le_rfl (by omega)
      exact (h.follows hroom s hs ks c hc (hcpkt.trans hpkt.symm)).2
    · intro _ r c hr hpkt
      obtain ⟨c', hc', hcpkt'⟩ := hrun (ks + hd.bytes.length - 1) (by omega) (by omega)
      obtain ⟨-, hr'⟩ := hsome hr
      have hfill := h.together _ r c' c hc' hr' (hcpkt'.trans hpkt.symm)
      rw [pop_next, List.length_drop]
      apply hfilled (by omega)
      intro q hlo hhi
      exact hfill q (by omega) hhi

/-- Recording a gap: nothing that waits is of the packet delivered last. -/
theorem Unbroken.skip_to (h : b.Unbroken) (hb : b.Sound) {ks : ℕ} {hd : Held α}
    (hf : b.held.first = some (ks, hd)) : (b.skip_to ks).Unbroken := by
  have hcell : ∀ p, (b.skip_to ks).cell p = b.cell p := fun p => skip_to_cell b ks p
  have htogether : (b.skip_to ks).Together := by
    intro p r c c' hp hr hpkt q hlo hhi
    rw [hcell] at hp hr ⊢
    exact h.together p r c c' hp hr hpkt q hlo hhi
  by_cases hlt : b.next < ks
  · refine ⟨by rw [skip_to_segs]; exact h.merged, ?_, htogether, ?_⟩
    · rw [skip_to_segs, skip_to_gaps, if_pos hlt]
      intro s hs g hg
      rcases List.mem_append.1 hg with hg | hg
      · exact h.whole s hs g hg
      · obtain ⟨pre, post, hsegs⟩ := List.mem_iff_append.1 hs
        have ht := hb.tiles
        rw [hsegs] at ht
        obtain ⟨m, -, hat, -, hpost⟩ := ht.of_append
        have hend := hpost.length_pkts
        rw [List.mem_singleton.1 hg]
        dsimp only
        omega
    · intro hroom s hs r c hr hpkt
      rw [room, skip_to_data] at hroom
      rw [skip_to_segs] at hs
      rw [hcell] at hr
      -- such an octet would wait behind the frontier with nothing missing, and nothing waits there
      have hnone : b.cell b.next = none := SortedMap.lookup_lt_first hf hlt
      have hle : ks ≤ r := by
        by_contra hgt
        rw [cell, SortedMap.lookup_lt_first hf (by dsimp only; omega)] at hr
        cases hr
      have hfull := (h.follows hroom s hs r c hr hpkt).1 b.next le_rfl (by omega)
      rw [hnone] at hfull
      cases hfull
  · have hsame : b.skip_to ks = b := if_neg hlt
    rw [hsame]
    exact h

/-- Nor does advancing. -/
theorem Unbroken.advance (h : b.Unbroken) (hb : b.Sound) (ha : Advance b b') : b'.Unbroken := by
  induction ha with
  | refl b => exact h
  | pop hf hks _ ih => exact ih (h.take_front hb hf hks) (hb.take_front hf)
  | skip hf _ ih => exact ih (h.skip_to hb hf) (hb.skip_to _)

/-- What is held of a fresh packet waits together, around what was held before. -/
theorem Together.hold (h : b.Together) (hb : b.Sound) {at_ pkt : ℕ} {data : List α}
    (hfresh : ∀ p c, b.cell p = some c → c.2 ≠ pkt) : (b.hold at_ data pkt).Together := by
  have hspec := hold_spec hb at_ data pkt
  have hkeep : ∀ q, (b.cell q).isSome → ((b.hold at_ data pkt).cell q).isSome := by
    intro q hq
    rw [hspec.cell, Option.isSome_or, hq, Bool.true_or]
  -- what is held is what was, or is of the packet and in its place
  have hsplit : ∀ p c, (b.hold at_ data pkt).cell p = some c →
      (b.cell p = some c ∧ c.2 ≠ pkt) ∨ (at_ ≤ p ∧ p < at_ + data.length ∧ c.2 = pkt) := by
    intro p c hp
    rw [hspec.cell] at hp
    rcases hold : b.cell p with - | c'
    · rw [hold, Option.none_or] at hp
      split at hp
      · have hin := carried_isSome.1 (Option.isSome_of_mem hp)
        rw [carried_eq, if_pos hin.1] at hp
        obtain ⟨x, -, rfl⟩ := Option.map_eq_some_iff.1 hp
        exact Or.inr ⟨hin.1, hin.2, rfl⟩
      · exact absurd hp nofun
    · rw [hold, Option.some_or] at hp
      obtain rfl := Option.some.inj hp
      exact Or.inl ⟨rfl, hfresh p c' hold⟩
  intro p r c c' hp hr hpkt q hlo hhi
  rcases hsplit p c hp with ⟨hp', hne⟩ | ⟨hp1, hp2, hp3⟩
  · rcases hsplit r c' hr with ⟨hr', -⟩ | ⟨-, -, hr3⟩
    · exact hkeep q (h p r c c' hp' hr' hpkt q hlo hhi)
    · exact absurd (hpkt.trans hr3) hne
  · rcases hsplit r c' hr with ⟨-, hne⟩ | ⟨hr1, hr2, -⟩
    · exact absurd (hpkt.symm.trans hp3) hne
    · have hin : (carried at_ data pkt q).isSome := carried_isSome.2 ⟨by omega, by omega⟩
      rw [hspec.cell, if_pos (by omega), Option.isSome_or, hin, Bool.or_true]

/-- Holding a fresh packet breaks no run of another. -/
theorem Unbroken.hold (h : b.Unbroken) (hb : b.Sound) {at_ pkt : ℕ} {data : List α}
    (hfresh : b.Fresh pkt) : (b.hold at_ data pkt).Unbroken := by
  have hspec := hold_spec hb at_ data pkt
  refine ⟨by rw [hspec.frame.half]; exact h.merged, by rw [hspec.frame.half]; exact h.whole,
    h.together.hold hb hfresh.cells, ?_⟩
  rw [room, hspec.frame.half, hspec.frame.next]
  intro hroom s hs r c hr hpkt
  -- the packet delivered last is an old one, so what waits of it waited before
  have hold : b.cell r = some c := by
    rw [hspec.cell] at hr
    rcases hcell : b.cell r with - | c'
    · rw [hcell, Option.none_or] at hr
      split at hr
      · rename_i hle
        rw [carried_eq, if_pos hle] at hr
        obtain ⟨x, -, rfl⟩ := Option.map_eq_some_iff.1 hr
        exact absurd hpkt.symm (hfresh.segs s (List.mem_of_getLast? hs))
      · cases hr
    · rwa [hcell, Option.some_or] at hr
  obtain ⟨hfill, hlt⟩ := h.follows hroom s hs r c hold hpkt
  refine ⟨?_, hlt⟩
  intro q hlo hhi
  rw [hspec.cell, Option.isSome_or, hfill q hlo hhi, Bool.true_or]

end Steps

/-! ## Runs -/

/-- A packet that was not fed before is fresh. -/
theorem fresh_run {fs : List (Arrival α)} {pkt : ℕ} (h : ∀ f ∈ fs, f.pkt ≠ pkt) :
    (run fs).Fresh pkt := by
  -- what was brought came with an arrival's own number
  have hpkt : ∀ {p : ℕ} {c : α × ℕ}, Brought fs p c → c.2 ≠ pkt := by
    rintro p c ⟨pre, f, post, rfl, hc⟩
    unfold carries at hc
    rw [carried_eq] at hc
    split at hc
    · obtain ⟨x, -, rfl⟩ := Option.map_eq_some_iff.1 hc
      exact h f (by simp)
    · exact absurd hc nofun
  rcases standing_run fs fun pre f _ _ => admits_brought pre f with ⟨-, -, hc⟩ | ⟨-, s, -, hl⟩
  · refine ⟨?_, fun p c hp => hpkt (hc.waits p c hp)⟩
    rw [hc.segs]
    exact fun s hs => absurd hs List.not_mem_nil
  -- each segment carries an octet that was brought
  · refine ⟨?_, fun p c hp => hpkt (hl.waits p c hp)⟩
    intro seg hseg
    have hacc := hl.accounted (paid_run fs)
    obtain ⟨pre, post, hsegs⟩ := List.mem_iff_append.1 hseg
    have ht := hacc.tiles
    rw [hsegs] at ht
    obtain ⟨m, -, -, hpos, -⟩ := ht.of_append
    obtain ⟨x, -, hx⟩ := hacc.provenance seg hseg seg.at_ le_rfl (by omega)
    exact hpkt hx

theorem Fresh.entered {b : Build α} {pkt : ℕ} (h : b.Fresh pkt) (f : Arrival α) :
    (b.entered f).Fresh pkt :=
  ⟨by rw [entered_segs]; exact h.segs, fun p c hp => h.cells p c (by rwa [entered_cell] at hp)⟩

/-- A fresh packet stays fresh. -/
theorem Fresh.below {b : Build α} {pkt : ℕ} (h : b.Fresh pkt) (at_ : ℕ) (data : List α) :
    (b.below at_ data).Fresh pkt := by
  unfold Build.below
  split
  · exact ⟨h.segs, h.cells⟩
  · exact h

/-- **One arrival keeps the segments unbroken**, if its packet is a fresh one. -/
theorem Unbroken.take {b : Build α} (h : b.Unbroken) (hb : b.Steered)
    (hclosed : b.open_ = false → b.half.segs = []) {f : Arrival α} (hfresh : b.Fresh f.pkt) :
    (b.take f).Unbroken := by
  have hfed := take_fed b f
  have he := hb.entered f
  have hfresh' := hfresh.entered f
  -- a control bit moves the frontier only where there is no segment
  have hentered : (b.entered f).Unbroken := by
    by_cases ho : b.open_ = true
    · obtain ⟨hnext, -, -⟩ := entered_of_open f ho (hb.started_of_open ho)
      exact h.congr (entered_segs b f) (entered_gaps b f) (entered_data b f) hnext
        (entered_held b f)
    · apply unbroken_of_nil
      · rw [entered_segs]
        exact hclosed (by simpa using ho)
      · intro p r c c' hp hr hpkt q hlo hhi
        rw [entered_cell] at hp hr ⊢
        exact h.together p r c c' hp hr hpkt q hlo hhi
  have hsegs : (b.entered f).open_ = false → (b.entered f).half.segs = [] := by
    intro ho
    rw [entered_segs]
    apply hclosed
    by_contra hopen
    have := (entered_open_iff hb.started_of_open (f := f)).2 (Or.inl (by simpa using hopen))
    rw [ho] at this
    cases this
  generalize b.take f = b' at hfed ⊢
  generalize b.entered f = e at *
  generalize b.landing f = at_ at *
  cases hfed with
  | bare hd => exact hentered
  | far hd ho hfar => exact hentered.congr rfl rfl rfl rfl rfl
  | waits hd ho hnear hfew => exact hentered.hold he.sound hfresh'
  | opens hd ho hnear hfull =>
    have hspec := hold_spec he.sound at_ f.data f.pkt
    have hheld : (e.hold at_ f.data f.pkt).Unbroken := hentered.hold he.sound hfresh'
    obtain ⟨ks, hh, hf⟩ := first_of_hold he.sound at_ hd f.pkt
    obtain ⟨h1, h2, h3, -⟩ := fix_origin_spec hspec.sound hf
    apply Unbroken.advance _ h1 (advance_drain _)
    apply unbroken_of_nil
    · rw [h2, hspec.frame.half, hsegs ho]
    · intro p r c c' hp hr hpkt q hlo hhi
      unfold cell at hp hr ⊢
      rw [h3] at hp hr ⊢
      exact hheld.together p r c c' hp hr hpkt q hlo hhi
  | stale hd ho hend => exact hentered.below _ _
  | beyond hd ho hfar => exact (hentered.below at_ f.data).congr rfl rfl rfl rfl rfl
  | held hd ho hahead hnear =>
    have hbs := he.below at_ f.data
    exact ((hentered.below at_ f.data).hold hbs.sound (hfresh'.below _ _)).advance
      (hbs.hold at_ f.data f.pkt).sound (advance_relieve _)
  | delivered hd ho hat hend =>
    have hbs := he.below at_ f.data
    have hbelow := hentered.below at_ f.data
    have hfresh'' := hfresh'.below at_ f.data
    have hne : f.data.drop (e.next - at_) ≠ [] := by
      rw [← List.length_pos_iff, List.length_drop]
      omega
    apply Unbroken.advance _ (hbs.append hne f.pkt).sound (advance_drain _)
    apply unbroken_append hbs.sound hbelow.merged hbelow.whole hbelow.together hne
    · intro _ s hs hpkt
      exact absurd hpkt (hfresh''.segs s (List.mem_of_getLast? hs))
    · intro _ r c hr hpkt
      exact absurd hpkt (hfresh''.cells r c hr)

/-- A direction that is not open has no segment. -/
theorem segs_of_closed (fs : List (Arrival α)) (ho : (run fs).open_ = false) :
    (run fs).half.segs = [] := by
  rcases standing_run fs fun pre f _ _ => admits_brought pre f with ⟨-, -, hc⟩ | ⟨hopen, -⟩
  · exact hc.segs
  · rw [hopen] at ho
    exact absurd ho nofun

/-- **The segments of every run are unbroken**, if each packet is fed once. -/
theorem unbroken_run (fs : List (Arrival α)) (hn : (fs.map Arrival.pkt).Nodup) :
    (run fs).Unbroken := by
  induction fs using List.reverseRecOn with
  | nil => exact unbroken_init
  | append_singleton fs f ih =>
    rw [List.map_append, List.nodup_append] at hn
    obtain ⟨hn, -, hapart⟩ := hn
    rw [run_append_singleton]
    apply (ih hn).take (steered_run fs) (segs_of_closed fs)
    apply fresh_run
    intro g hg
    exact hapart _ (List.mem_map_of_mem hg) _ (List.mem_singleton_self _)

/-- And so are the segments handed back. -/
theorem unbroken_finished (fs : List (Arrival α)) (hn : (fs.map Arrival.pkt).Nodup) :
    (run fs).finished.Unbroken := by
  have hrun := unbroken_run fs hn
  have hb := (steered_run fs).sound
  unfold finished
  split
  · exact hrun.advance hb (advance_flush _)
  · rename_i ho
    have ho' : (run fs).open_ = false := by simpa using ho
    rcases hf : (run fs).held.first with - | ⟨ks, hd⟩
    · rw [fix_origin_of_none hf]
      exact hrun.advance hb (advance_flush _)
    · obtain ⟨h1, h2, h3, -⟩ := fix_origin_spec hb hf
      apply Unbroken.advance _ h1 (advance_flush _)
      apply unbroken_of_nil
      · rw [h2, segs_of_closed fs ho']
      · intro p r c c' hp hr hpkt q hlo hhi
        unfold cell at hp hr ⊢
        rw [h3] at hp hr ⊢
        exact hrun.together p r c c' hp hr hpkt q hlo hhi

end Wiry.Stream.Build
