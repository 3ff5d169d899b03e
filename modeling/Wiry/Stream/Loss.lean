/-
No octet is lost in silence.

Each octet an arrival carried is followed to the end of the run. While the
direction is not open it is held; once it is open it lies behind the frontier
or is held past it; and when the direction is finished nothing is held, so it
lies in what `run_accounted` accounts for. The exceptions are explicit: octets
refused by a bound, which are counted, an octet claiming the sequence number of
the SYN, which is no data, and what was held from before the SYN below that
number.
-/
import Wiry.Stream.Account

set_option autoImplicit false

namespace Wiry.Stream.Build

variable {α : Type}

/-! ## Where a position stands -/

/-- The frontier of an open direction has passed `p`, or an octet waits there. -/
def Covered (b : Build α) (p : ℕ) : Prop :=
  (b.open_ = true ∧ p < b.next) ∨ (b.cell p).isSome

section Covered

variable {b b' : Build α} {p : ℕ}

theorem Covered.advance (h : b.Covered p) (ha : Advance b b') (hb : b.Sound)
    (ho : b.open_ = true) : b'.Covered p := by
  have hle := ha.next_le
  rcases Nat.lt_or_ge p b'.next with hlt | hge
  · exact Or.inl ⟨by rw [ha.open_eq, ho], hlt⟩
  · rcases h with ⟨-, hlt⟩ | hcell
    · omega
    · exact Or.inr (by rwa [ha.cell_eq hb hge])

/-- And when a segment is held. -/
theorem Covered.hold (h : b.Covered p) (hb : b.Sound) (at_ : ℕ) (data : List α) (pkt : ℕ) :
    (b.hold at_ data pkt).Covered p := by
  have hspec := hold_spec hb at_ data pkt
  rcases h with ⟨ho, hlt⟩ | hcell
  · exact Or.inl ⟨by rw [hspec.frame.open_, ho], by rwa [hspec.frame.next]⟩
  · refine Or.inr ?_
    obtain ⟨c, hc⟩ := Option.isSome_iff_exists.1 hcell
    rw [hspec.cell, hc]
    rfl

/-- What is held of a segment covers all of it. -/
theorem covered_hold (hb : b.Sound) {at_ : ℕ} {data : List α} {pkt : ℕ}
    (hp : (carried at_ data pkt p).isSome) : (b.hold at_ data pkt).Covered p := by
  refine Or.inr ?_
  rw [(hold_spec hb at_ data pkt).cell, if_pos (carried_isSome.1 hp).1, Option.isSome_or, hp,
    Bool.or_true]

theorem covered_below (at_ : ℕ) (data : List α) : (b.below at_ data).Covered p ↔ b.Covered p := by
  unfold Covered
  rw [below_open, below_next, below_cell]

/-- **One arrival leaves covered** what was covered before it, and what it carries unless it is
too far from the frontier. -/
theorem covered_take {f : Arrival α} (hb : b.Steered)
    (h : b.Covered p ∨ ((b.carries f p).isSome ∧ ¬ b.TooFar f)) : (b.take f).Covered p := by
  have hfed := take_fed b f
  have he := hb.entered f
  have hcov : (b.entered f).Covered p ∨
      ((carried (b.landing f) f.data f.pkt p).isSome ∧ ¬ b.TooFar f) := by
    rcases h with (⟨ho, hlt⟩ | hcell) | hnew
    · obtain ⟨hn, -, hoe⟩ := entered_of_open f ho (hb.started_of_open ho)
      exact Or.inl (Or.inl ⟨hoe, by rwa [hn]⟩)
    · exact Or.inl (Or.inr (by rwa [entered_cell]))
    · exact Or.inr hnew
  unfold TooFar at hcov
  generalize b.take f = b' at hfed ⊢
  generalize b.entered f = e at *
  generalize b.landing f = at_ at *
  cases hfed with
  | bare hd =>
    rcases hcov with hcov | ⟨hc, -⟩
    · exact hcov
    · rw [hd, carried_isSome, List.length_nil] at hc
      omega
  | far hd ho hfar =>
    rcases hcov with hcov | ⟨-, hnear⟩
    · exact hcov
    · rw [ho, if_neg (by simp)] at hnear
      exact absurd hfar hnear
  | waits hd ho hnear hfew =>
    rcases hcov with hcov | ⟨hc, -⟩
    · exact hcov.hold he.sound _ _ _
    · exact covered_hold he.sound hc
  | opens hd ho hnear hfull =>
    have hheld : (e.hold at_ f.data f.pkt).Covered p := by
      rcases hcov with hcov | ⟨hc, -⟩
      · exact hcov.hold he.sound _ _ _
      · exact covered_hold he.sound hc
    have hspec := hold_spec he.sound at_ f.data f.pkt
    obtain ⟨ks, hh, hf⟩ := first_of_hold he.sound at_ hd f.pkt
    obtain ⟨h1, -, h3, -, -, h6, -⟩ := fix_origin_spec hspec.sound hf
    refine Covered.advance ?_ (advance_drain _) h1 h6
    -- Nothing was behind the frontier of a direction that was not open.
    rcases hheld with ⟨ho', -⟩ | hcell
    · rw [hspec.frame.open_, ho] at ho'
      cases ho'
    · refine Or.inr ?_
      unfold cell at hcell ⊢
      rwa [h3]
  | stale hd ho hend =>
    rw [covered_below]
    rcases hcov with hcov | ⟨hc, -⟩
    · exact hcov
    · have := carried_isSome.1 hc
      exact Or.inl ⟨ho, by omega⟩
  | beyond hd ho hfar =>
    rcases hcov with hcov | ⟨-, hnear⟩
    · exact (covered_below at_ f.data).2 hcov
    · rw [if_pos ho] at hnear
      exact absurd hfar hnear
  | held hd ho hahead hnear =>
    have hbs := he.below at_ f.data
    refine Covered.advance ?_ (advance_relieve _) (hbs.hold at_ f.data f.pkt).sound
      (by rw [(hold_spec hbs.sound _ _ _).frame.open_, below_open, ho])
    rcases hcov with hcov | ⟨hc, -⟩
    · exact Covered.hold ((covered_below at_ f.data).2 hcov) hbs.sound _ _ _
    · exact covered_hold hbs.sound hc
  | delivered hd ho hat hend =>
    have hbs := he.below at_ f.data
    have hne : f.data.drop (e.next - at_) ≠ [] := by
      rw [← List.length_pos_iff, List.length_drop]
      omega
    refine Covered.advance ?_ (advance_drain _) (hbs.append hne f.pkt).sound
      (by rw [append_open, below_open, ho])
    have hnext : ((e.below at_ f.data).append (f.data.drop (e.next - at_)) f.pkt).next =
        at_ + f.data.length := by
      rw [append_next, below_next, List.length_drop]
      omega
    rcases hcov with (⟨-, hlt⟩ | hcell) | ⟨hc, -⟩
    · exact Or.inl ⟨by rw [append_open, below_open, ho], by omega⟩
    · refine Or.inr ?_
      have hkeep : ((e.below at_ f.data).append (f.data.drop (e.next - at_)) f.pkt).cell p =
          e.cell p := by
        unfold cell
        rw [held_append, below_held]
      rwa [hkeep]
    · have := carried_isSome.1 hc
      exact Or.inl ⟨by rw [append_open, below_open, ho], by omega⟩

end Covered

/-! ## The SYN a direction opened with -/

/-- The position of the SYN that opened a direction. -/
def syn_at (fs : List (Arrival α)) : Option ℕ :=
  trace (fun q b f => if b.open_ = false ∧ Has f.flags SYN then some (b.reads f) else q) none fs

/-- What is known of a position `p` that an arrival taken in state `b₀` carried and no bound
refused, once the run is in state `b` and `q` is the SYN it opened with. -/
structure Placed (b₀ : Build α) (p : ℕ) (q : Option ℕ) (b : Build α) : Prop where
  covered : b.Covered p
  early : b.open_ = false → b₀.open_ = false
  /-- Once open, the position is not below the origin, unless it was held when the SYN came. -/
  origin : b.open_ = true → b.origin ≤ p ∨ (q = some b.origin ∧ b₀.open_ = false)

/-- What an arrival does to the fields that say where a direction opened. -/
theorem origin_take {b : Build α} (hb : b.Steered) (f : Arrival α) :
    ((b.entered f).open_ = true ∧ (b.take f).open_ = true ∧
        (b.take f).origin = (b.entered f).origin) ∨
      ((b.entered f).open_ = false ∧ (b.take f).open_ = false) ∨
      ((b.entered f).open_ = false ∧ (b.take f).open_ = true ∧
        ¬ b.TooFar f ∧ (∃ hd, ((b.entered f).hold (b.landing f) f.data f.pkt).held.first =
          some ((b.take f).origin, hd))) := by
  have hfed := take_fed b f
  have he := hb.entered f
  have hopen := Bool.eq_false_or_eq_true (b.entered f).open_
  unfold TooFar
  generalize b.take f = b' at hfed ⊢
  generalize b.entered f = e at *
  generalize b.landing f = at_ at *
  -- By the way the octets were fed: the origin is fixed by entering a SYN or by filling the window.
  cases hfed with
  | bare hd =>
    rcases hopen with ho | ho
    · exact Or.inl ⟨ho, ho, rfl⟩
    · exact Or.inr (Or.inl ⟨ho, ho⟩)
  | far hd ho hfar => exact Or.inr (Or.inl ⟨ho, by simpa using ho⟩)
  | waits hd ho hnear hfew =>
    exact Or.inr (Or.inl ⟨ho, by rw [(hold_spec he.sound _ _ _).frame.open_, ho]⟩)
  -- The window is full, so the first held position becomes the origin.
  | opens hd ho hnear hfull =>
    have hspec := hold_spec he.sound at_ f.data f.pkt
    obtain ⟨ks, hh, hf⟩ := first_of_hold he.sound at_ hd f.pkt
    obtain ⟨-, -, -, -, h5, h6, -⟩ := fix_origin_spec hspec.sound hf
    refine Or.inr (Or.inr ⟨ho, ?_, ?_, hh, ?_⟩)
    · rw [(advance_drain _).open_eq, h6]
    · rw [ho, if_neg (by simp)]
      omega
    · rw [(advance_drain _).origin_eq, h5, hf]
  | stale hd ho hend => exact Or.inl ⟨ho, by rw [below_open, ho], below_origin _ _ _⟩
  | beyond hd ho hfar =>
    exact Or.inl ⟨ho, by rw [refuse_open, below_open, ho], below_origin _ _ _⟩
  | held hd ho hahead hnear =>
    have hframe := (hold_spec (he.below at_ f.data).sound at_ f.data f.pkt).frame
    refine Or.inl ⟨ho, ?_, ?_⟩
    · rw [(advance_relieve _).open_eq, hframe.open_, below_open, ho]
    · rw [(advance_relieve _).origin_eq, hframe.origin, below_origin]
  | delivered hd ho hat hend =>
    refine Or.inl ⟨ho, ?_, ?_⟩
    · rw [(advance_drain _).open_eq, append_open, below_open, ho]
    · rw [(advance_drain _).origin_eq, append_origin, below_origin]

theorem syn_at_append_singleton (fs : List (Arrival α)) (f : Arrival α) :
    syn_at (fs ++ [f]) =
      if (run fs).open_ = false ∧ Has f.flags SYN then some ((run fs).reads f) else syn_at fs :=
  trace_append_singleton _ _ fs f

/-- The first run held starts at or before every position held. -/
theorem first_le_of_cell {b : Build α} {ks : ℕ} {h : Held α} (hf : b.held.first = some (ks, h))
    {p : ℕ} (hp : (b.cell p).isSome) : ks ≤ p := by
  by_contra hlt
  have : b.cell p = none := SortedMap.lookup_lt_first hf (by dsimp only; omega)
  rw [this] at hp
  cases hp

/-- A position that is placed stays placed over one arrival. -/
theorem Placed.take {b₀ b : Build α} {p : ℕ} {q : Option ℕ} {f : Arrival α}
    (h : Placed b₀ p q b) (hb : b.Steered) :
    Placed b₀ p (if b.open_ = false ∧ Has f.flags SYN then some (b.reads f) else q)
      (b.take f) where
  covered := covered_take hb (Or.inl h.covered)
  -- A build that is open stays so.
  early := by
    intro ho
    refine h.early ?_
    by_contra hopen
    have hopen' : b.open_ = true := by simpa using hopen
    have := open_take hb (entered_of_open f hopen' (hb.started_of_open hopen')).2.2
    rw [this] at ho
    cases ho
  -- The origin is the one it had, the SYN's, or the first position held, which is no later than
  -- this one.
  origin := by
    intro _
    by_cases ho : b.open_ = true
    · obtain ⟨-, horigin, hoe⟩ := entered_of_open f ho (hb.started_of_open ho)
      rcases origin_take hb f with ⟨-, -, h3⟩ | ⟨h1, -⟩ | ⟨h1, -⟩
      · rw [if_neg (by simp [ho]), h3, horigin]
        exact h.origin ho
      · rw [hoe] at h1; cases h1
      · rw [hoe] at h1; cases h1
    · have ho' : b.open_ = false := by simpa using ho
      have hcell : (b.cell p).isSome := by
        rcases h.covered with ⟨hopen, -⟩ | hcell
        · exact absurd hopen ho
        · exact hcell
      by_cases hs : Has f.flags SYN
      · obtain ⟨-, horigin, hoe⟩ := entered_of_syn ho' hs
        rcases origin_take hb f with ⟨-, -, h3⟩ | ⟨h1, -⟩ | ⟨h1, -⟩
        · rw [if_pos ⟨ho', hs⟩, h3, horigin]
          exact Or.inr ⟨rfl, h.early ho'⟩
        · rw [hoe] at h1; cases h1
        · rw [hoe] at h1; cases h1
      · obtain ⟨-, hoe⟩ := entered_of_not_syn ho' hs
        rcases origin_take hb f with ⟨h1, -⟩ | ⟨-, h2⟩ | ⟨-, -, -, hd, hf⟩
        · rw [hoe] at h1; cases h1
        · simp_all
        · refine Or.inl (first_le_of_cell hf ?_)
          obtain ⟨c, hc⟩ := Option.isSome_iff_exists.1 hcell
          rw [(hold_spec (hb.entered f).sound _ _ _).cell, entered_cell, hc]
          rfl

/-- What an arrival carries and no bound refuses is placed. -/
theorem placed_new {b : Build α} {p : ℕ} {q : Option ℕ} {f : Arrival α} (hb : b.Steered)
    (hc : (b.carries f p).isSome) (hfar : ¬ b.TooFar f) (hbelow : ¬ b.BelowOrigin f p) :
    Placed b p (if b.open_ = false ∧ Has f.flags SYN then some (b.reads f) else q)
      (b.take f) where
  covered := covered_take hb (Or.inr ⟨hc, hfar⟩)
  early := by
    intro ho
    by_contra hopen
    have hopen' : b.open_ = true := by simpa using hopen
    have := open_take hb (entered_of_open f hopen' (hb.started_of_open hopen')).2.2
    rw [this] at ho
    cases ho
  -- A segment that is no further back than the origin puts the octet at or behind it.
  origin := by
    intro ho
    unfold BelowOrigin at hbelow
    rcases origin_take hb f with ⟨h1, -, h3⟩ | ⟨-, h2⟩ | ⟨-, -, -, hd, hf⟩
    · refine Or.inl ?_
      rw [h3]
      by_contra hlt
      exact hbelow ⟨h1, by omega⟩
    · rw [h2] at ho
      cases ho
    -- the origin is fixed now, at the first run held
    · refine Or.inl (first_le_of_cell hf ?_)
      rw [(hold_spec (hb.entered f).sound _ _ _).cell, if_pos (carried_isSome.1 hc).1,
        Option.isSome_or]
      have : (carried (b.landing f) f.data f.pkt p).isSome := hc
      rw [this, Bool.or_true]

/-- **What an arrival carries stays placed** to the end of every run that begins with it. -/
theorem placed_run (pre : List (Arrival α)) (f : Arrival α) {p : ℕ}
    (hc : ((run pre).carries f p).isSome) (hfar : ¬ (run pre).TooFar f)
    (hbelow : ¬ (run pre).BelowOrigin f p) (post : List (Arrival α)) :
    Placed (run pre) p (syn_at (pre ++ f :: post)) (run (pre ++ f :: post)) := by
  induction post using List.reverseRecOn with
  | nil =>
    rw [syn_at_append_singleton, run_append_singleton]
    exact placed_new (steered_run pre) hc hfar hbelow
  | append_singleton post g ih =>
    have hlist : pre ++ f :: (post ++ [g]) = (pre ++ f :: post) ++ [g] := by simp
    rw [hlist, syn_at_append_singleton, run_append_singleton]
    exact ih.take (steered_run _)

/-! ## Where a direction opened -/

/-- A direction opened behind its SYN, or at its origin. -/
structure Opened (s q : Option ℕ) (b : Build α) : Prop where
  closed : b.open_ = false → s = none ∧ q = none
  opened : b.open_ = true →
    (q = some b.origin ∧ s = some (b.origin + 1)) ∨ (q = none ∧ s = some b.origin)

/-- Whether and where a run has opened its stream. -/
theorem opened_run (fs : List (Arrival α)) : Opened (start fs) (syn_at fs) (run fs) := by
  -- One segment after the other: the start is the first one that opens the build.
  refine run_induction (P := fun fs b => Opened (start fs) (syn_at fs) b) ?_ ?_ fs
  · exact ⟨fun _ => ⟨rfl, rfl⟩, nofun⟩
  · intro fs f h
    have hb := steered_run fs
    have hstart : start (fs ++ [f]) = (start fs).or ((run fs).opening f) :=
      trace_append_singleton _ _ fs f
    rw [hstart, syn_at_append_singleton]
    generalize run fs = b at *
    unfold opening
    -- An open build keeps its origin.
    by_cases ho : b.open_ = true
    · obtain ⟨-, horigin, hoe⟩ := entered_of_open f ho (hb.started_of_open ho)
      rw [if_pos ho, Option.or_none, if_neg (by simp [ho])]
      rcases origin_take hb f with ⟨-, h2, h3⟩ | ⟨h1, -⟩ | ⟨h1, -⟩
      · refine ⟨fun hf => absurd (h2.symm.trans hf) nofun, fun _ => ?_⟩
        rw [h3, horigin]
        exact h.opened ho
      · rw [hoe] at h1; cases h1
      · rw [hoe] at h1; cases h1
    · have ho' : b.open_ = false := by simpa using ho
      obtain ⟨hs0, hq0⟩ := h.closed ho'
      rw [if_neg ho, hs0, hq0, Option.none_or]
      -- A SYN opens it at its own position, anything else when the window is full.
      by_cases hs : Has f.flags SYN
      · obtain ⟨hnext, horigin, hoe⟩ := entered_of_syn ho' hs
        rw [if_pos hs, if_pos ⟨ho', hs⟩]
        rcases origin_take hb f with ⟨-, h2, h3⟩ | ⟨h1, -⟩ | ⟨h1, -⟩
        · refine ⟨fun hf => absurd (h2.symm.trans hf) nofun, fun _ => Or.inl ?_⟩
          rw [h3, horigin, hnext]
          exact ⟨rfl, rfl⟩
        · rw [hoe] at h1; cases h1
        · rw [hoe] at h1; cases h1
      · obtain ⟨-, hoe⟩ := entered_of_not_syn ho' hs
        rw [if_neg hs, if_neg fun hc : b.open_ = false ∧ Has f.flags SYN => hs hc.2]
        rcases origin_take hb f with ⟨h1, -⟩ | ⟨-, h2⟩ | ⟨-, h2, -, hd, hf⟩
        · rw [hoe] at h1; cases h1
        · rw [if_neg (by simp [h2])]
          exact ⟨fun _ => ⟨rfl, rfl⟩, fun hf => by rw [h2] at hf; cases hf⟩
        · rw [if_pos h2, hf]
          exact ⟨fun hf => absurd (h2.symm.trans hf) nofun, fun _ => Or.inr ⟨rfl, rfl⟩⟩

/-! ## The fate of an octet -/

/-- The position lies in a gap the half records. -/
def InGap (s : ℕ) (h : Half α) (p : ℕ) : Prop :=
  s ≤ p ∧ ∃ k, Holes.InHole Gap.at_ Gap.len h.gaps k (p - s)

/-- The half has an octet at the offset of the position. -/
def Delivers (s : ℕ) (h : Half α) (p : ℕ) : Prop :=
  ∃ o < h.data.length, p = s + o + h.missing o

/-- Every position up to the frontier is delivered or a gap, unless something was cut off. -/
theorem Accounted.delivers_or_gap {fs : List (Arrival α)} {s : ℕ} {b : Build α}
    (h : Accounted fs s b) {p : ℕ} (hs : s ≤ p) (hp : p < b.next) :
    Delivers s b.half p ∨ InGap s b.half p ∨
      (refusals fs < b.half.dropped ∧ Has b.half.flags TRUNCATED) := by
  obtain ⟨cut, hnext, hdrop, hcut⟩ := h.frontier
  rcases Nat.eq_zero_or_pos cut with rfl | hpos
  · have hlt : p - s < b.half.data.length + Holes.size Gap.len b.half.gaps := by
      unfold Half.missingTotal at hnext
      omega
    rcases Holes.exists_offset_or_hole b.half.gaps h.gaps_sorted b.half.data.length (p - s)
      h.gaps_le hlt with ⟨o, ho, hpo⟩ | hhole
    · exact Or.inl ⟨o, ho, by unfold Half.missing; omega⟩
    · exact Or.inr (Or.inl ⟨hs, hhole⟩)
  · exact Or.inr (Or.inr ⟨by omega, (hcut hpos).2⟩)

/-- What a finished direction makes of a position that stayed placed. -/
theorem Placed.finished {b₀ b : Build α} {p : ℕ} {s q : Option ℕ} (h : Placed b₀ p q b)
    (hb : b.Sound) (ho : Opened s q b) :
    ∃ s', s.or (b.held.first.map Prod.fst) = some s' ∧
      ((s' ≤ p ∧ p < b.finished.next) ∨ q = some p ∨
        ∃ r, q = some r ∧ p < r ∧ b₀.open_ = false) := by
  -- Nothing is held any more, so what is covered is behind the frontier.
  have hpast : ∀ {b₁ : Build α}, b₁.Covered p → b₁.Sound → b₁.open_ = true →
      p < b₁.flush.next := by
    intro b₁ hcov hs hopen
    rcases hcov.advance (advance_flush b₁) hs hopen with ⟨-, hlt⟩ | hcell
    · exact hlt
    · rw [cell, SortedMap.lookup_of_first_none (flush_stops b₁)] at hcell
      cases hcell
  unfold Build.finished
  by_cases hopen : b.open_ = true
  · rw [if_pos hopen]
    have hlt := hpast h.covered hb hopen
    rcases ho.opened hopen with ⟨hq, hs⟩ | ⟨hq, hs⟩
    · refine ⟨b.origin + 1, by rw [hs, Option.some_or], ?_⟩
      rcases h.origin hopen with hle | ⟨-, hearly⟩
      · rcases Nat.eq_or_lt_of_le hle with heq | hlt'
        · exact Or.inr (Or.inl (by rw [hq, heq]))
        · exact Or.inl ⟨hlt', hlt⟩
      · by_cases hle : b.origin + 1 ≤ p
        · exact Or.inl ⟨hle, hlt⟩
        · rcases Nat.eq_or_lt_of_le (by omega : p ≤ b.origin) with heq | hlt'
          · exact Or.inr (Or.inl (by rw [hq, heq]))
          · exact Or.inr (Or.inr ⟨_, hq, hlt', hearly⟩)
    · refine ⟨b.origin, by rw [hs, Option.some_or], Or.inl ⟨?_, hlt⟩⟩
      rcases h.origin hopen with hle | ⟨hq', -⟩
      · exact hle
      · rw [hq] at hq'
        cases hq'
  · rw [if_neg hopen]
    have hopen' : b.open_ = false := by simpa using hopen
    have hcell : (b.cell p).isSome := by
      rcases h.covered with ⟨hopen'', -⟩ | hcell
      · exact absurd hopen'' hopen
      · exact hcell
    cases hf : b.held.first with
    | none =>
      rw [cell, SortedMap.lookup_of_first_none hf] at hcell
      cases hcell
    | some x =>
      obtain ⟨h1, -, h3, -, -, h6, -⟩ := fix_origin_spec hb hf
      refine ⟨x.1, by rw [(ho.closed hopen').1]; rfl, Or.inl ⟨first_le_of_cell hf hcell, ?_⟩⟩
      refine hpast (Or.inr ?_) h1 h6
      unfold cell at hcell ⊢
      rwa [h3]

/-- An octet a bound refuses on arrival is counted. -/
theorem refusal_pos {b : Build α} {f : Arrival α} {p : ℕ} (hc : (b.carries f p).isSome)
    (h : b.TooFar f ∨ b.BelowOrigin f p) : 0 < b.refusal f := by
  have hp := carries_isSome.1 hc
  have hd : f.data ≠ [] := by
    rw [← List.length_pos_iff]
    omega
  have hpos := List.length_pos_iff.2 hd
  unfold refusal
  dsimp only
  rw [if_neg hd]
  rcases h with hfar | ⟨ho, hlt⟩
  · unfold TooFar at hfar
    split at hfar
    · rename_i ho
      rw [if_pos ho, if_pos hfar]
      omega
    · rename_i ho
      rw [if_neg ho, if_pos hfar]
      exact hpos
  · rw [if_pos ho, if_pos (by omega : b.landing f < (b.entered f).origin)]
    omega

/-- What one segment is refused is part of all refusals. -/
theorem refusal_le_refusals (pre : List (Arrival α)) (f : Arrival α) (post : List (Arrival α)) :
    (run pre).refusal f ≤ refusals (pre ++ f :: post) := by
  induction post using List.reverseRecOn with
  | nil =>
    have h : refusals (pre ++ [f]) = refusals pre + (run pre).refusal f :=
      trace_append_singleton _ _ pre f
    omega
  | append_singleton post g ih =>
    have hlist : pre ++ f :: (post ++ [g]) = (pre ++ f :: post) ++ [g] := by simp
    have h : refusals ((pre ++ f :: post) ++ [g]) =
        refusals (pre ++ f :: post) + (run (pre ++ f :: post)).refusal g :=
      trace_append_singleton _ _ _ g
    rw [hlist]
    omega

/-- A position that an arrival taken after `pre` carried is delivered, lies in a recorded gap, or
is no data: it is the sequence number of the SYN, or lies below it and was fed before it. -/
def Kept (fs pre : List (Arrival α)) (p : ℕ) : Prop :=
  ∃ s, final_start fs = some s ∧
    (Delivers s (reassembled fs) p ∨ InGap s (reassembled fs) p ∨ syn_at fs = some p ∨
      ∃ q, syn_at fs = some q ∧ p < q ∧ (run pre).open_ = false)

/-- Every octet an arrival carried has one of three fates. -/
theorem kept_or_counted (pre : List (Arrival α)) (f : Arrival α) (post : List (Arrival α)) {p : ℕ}
    (hc : ((run pre).carries f p).isSome) :
    Kept (pre ++ f :: post) pre p ∨
      (0 < refusals (pre ++ f :: post) ∧ ((run pre).TooFar f ∨ (run pre).BelowOrigin f p)) ∨
      (refusals (pre ++ f :: post) < (reassembled (pre ++ f :: post)).dropped ∧
        Has (reassembled (pre ++ f :: post)).flags TRUNCATED) := by
  -- Beyond a bound the refusal is counted; else the octet is placed and accounted for at the end.
  by_cases hbound : (run pre).TooFar f ∨ (run pre).BelowOrigin f p
  · have := refusal_pos hc hbound
    have := refusal_le_refusals pre f post
    exact Or.inr (Or.inl ⟨by omega, hbound⟩)
  obtain ⟨hfar, hbelow⟩ := not_or.1 hbound
  have hplaced := placed_run pre f hc hfar hbelow post
  obtain ⟨s, hs, hp⟩ := hplaced.finished (steered_run _).sound (opened_run _)
  have hstart : final_start (pre ++ f :: post) = some s := hs
  rcases hp with ⟨hle, hlt⟩ | hsyn | hbefore
  -- as placed: delivered, in a gap, or cut at the ceiling
  · rcases (run_accounted (pre ++ f :: post)).2 with ⟨s', hs', hacc⟩ | ⟨hnone, -⟩
    · obtain rfl : s = s' := by simpa [hstart] using hs'
      rcases hacc.delivers_or_gap hle hlt with hdel | hgap | hcut
      · exact Or.inl ⟨s, hstart, Or.inl hdel⟩
      · exact Or.inl ⟨s, hstart, Or.inr (Or.inl hgap)⟩
      · exact Or.inr (Or.inr hcut)
    · rw [hstart] at hnone
      cases hnone
  · exact Or.inl ⟨s, hstart, Or.inr (Or.inr (Or.inl hsyn))⟩
  · exact Or.inl ⟨s, hstart, Or.inr (Or.inr (Or.inr hbefore))⟩

/-- What is counted as dropped was refused on arrival or cut off by `MAX_STREAM`, and the flags
say which. -/
theorem dropped_flagged (fs : List (Arrival α)) :
    ∃ cut, (reassembled fs).dropped = refusals fs + cut ∧
      (0 < refusals fs → Has (reassembled fs).flags LOSSY) ∧
      (0 < cut → Has (reassembled fs).flags TRUNCATED) := by
  rcases (standing_run fs fun pre f _ _ => admits_brought pre f).finished with ⟨-, -, hc⟩ | ⟨-, s, -, hl⟩
  · exact ⟨0, hc.dropped, hc.lossy, nofun⟩
  · obtain ⟨cut, -, hdrop, hcut⟩ := hl.ledger
    exact ⟨cut, hdrop, hl.lossy, fun h => (hcut h).2⟩

/-- **No octet is lost in silence**: when nothing is counted as dropped, every octet an arrival
carried is kept; otherwise one that is not kept was refused on arrival or cut off, which
`dropped` counts and `LOSSY` or `TRUNCATED` reports. -/
theorem no_silent_loss (fs : List (Arrival α)) :
    (∀ pre f post, fs = pre ++ f :: post → ∀ p, ((run pre).carries f p).isSome →
      ((reassembled fs).dropped = 0 → Kept fs pre p) ∧
      (Kept fs pre p ∨
        (((run pre).TooFar f ∨ (run pre).BelowOrigin f p) ∧ 0 < (reassembled fs).dropped ∧
          Has (reassembled fs).flags LOSSY) ∨
        (0 < (reassembled fs).dropped ∧ Has (reassembled fs).flags TRUNCATED))) ∧
    ∃ cut, (reassembled fs).dropped = refusals fs + cut ∧
      (0 < refusals fs → Has (reassembled fs).flags LOSSY) ∧
      (0 < cut → Has (reassembled fs).flags TRUNCATED) := by
  obtain ⟨cut, hdrop, hlossy, htrunc⟩ := dropped_flagged fs
  refine ⟨?_, cut, hdrop, hlossy, htrunc⟩
  rintro pre f post rfl p hc
  rcases kept_or_counted pre f post hc with hkept | ⟨hpos, hbound⟩ | ⟨hlt, htr⟩
  · exact ⟨fun _ => hkept, Or.inl hkept⟩
  · exact ⟨fun h => by omega, Or.inr (Or.inl ⟨hbound, by omega, hlossy hpos⟩)⟩
  · exact ⟨fun h => by omega, Or.inr (Or.inr ⟨by omega, htr⟩)⟩

/-! ### Octets that are neither delivered nor counted -/

/-- Every octet an arrival carried is delivered, or something is counted as dropped. -/
def NoSilentLoss (fs : List (Arrival α)) : Prop :=
  (reassembled fs).dropped = 0 → ∀ pre f post, fs = pre ++ f :: post →
    ∀ p, ((run pre).carries f p).isSome →
      ∃ s, final_start fs = some s ∧ Delivers s (reassembled fs) p

/-- A SYN at 99, an octet at 99, and data at 100. -/
def claiming_the_syn : List (Arrival UInt8) :=
  [⟨99, SYN, [], 0⟩, ⟨99, 0, [0x58], 1⟩, ⟨100, 0, [0x64, 0x61, 0x74, 0x61], 2⟩]

/-- The octet at the SYN's own number is neither delivered nor counted. -/
theorem claiming_the_syn_not_delivered : ¬ NoSilentLoss claiming_the_syn := by
  intro h
  have hdrop : (reassembled claiming_the_syn).dropped = 0 := by decide +kernel
  have hstart : final_start claiming_the_syn = some (2 ^ 32 + 100) := by decide +kernel
  have hcarry : ((run (claiming_the_syn.take 1)).carries
      ⟨99, 0, [0x58], 1⟩ (2 ^ 32 + 99)).isSome := by decide +kernel
  obtain ⟨s, hs, o, -, hp⟩ := h hdrop [⟨99, SYN, [], 0⟩] _ _ rfl _ hcarry
  rw [hstart] at hs
  have := Option.some.inj hs
  omega

/-- A SYN at 0, and an octet at each of 65 odd numbers from 3: one more than may wait. -/
def past_the_bound : List (Arrival UInt8) :=
  ⟨0, SYN, [], 0⟩ :: (List.range 65).map fun k => ⟨UInt32.ofNat (3 + 2 * k), 0, [0x79], k + 1⟩

/-- The octet at 1, which they waited for, once the gap in front of them is recorded. -/
def late_for_the_gap : List (Arrival UInt8) := past_the_bound ++ [⟨1, 0, [0x78], 66⟩]

/-- An octet that comes after its gap was recorded is neither delivered nor counted. -/
theorem late_for_the_gap_not_delivered : ¬ NoSilentLoss late_for_the_gap := by
  intro h
  have hdrop : (reassembled late_for_the_gap).dropped = 0 := by decide +kernel
  have hstart : final_start late_for_the_gap = some (2 ^ 32 + 1) := by decide +kernel
  have hmiss : (reassembled late_for_the_gap).missing 0 = 2 := by decide +kernel
  have hcarry : ((run past_the_bound).carries ⟨1, 0, [0x78], 66⟩ (2 ^ 32 + 1)).isSome := by
    decide +kernel
  obtain ⟨s, hs, o, -, hp⟩ := h hdrop past_the_bound _ [] rfl _ hcarry
  rw [hstart] at hs
  have hsv := Option.some.inj hs
  obtain rfl : o = 0 := by omega
  omega

/-- Neither kind of octet is a loss the source reports. -/
theorem unreported_octets : ¬ NoSilentLoss claiming_the_syn ∧ ¬ NoSilentLoss late_for_the_gap :=
  ⟨claiming_the_syn_not_delivered, late_for_the_gap_not_delivered⟩

end Wiry.Stream.Build
