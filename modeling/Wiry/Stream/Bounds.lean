/-
What one direction holds, and how much.

The count of held octets is always right and the held runs are always apart. The
bounds are another matter: `relieve` runs at one exit of `feed` only, where an
open direction holds a segment. The other exits of an open direction hold less
than before. Before the direction opens nothing bounds the octets: at most
`ORIGIN_WINDOW` runs wait, of whatever length, and the exit that fixes the
origin drains what is contiguous and leaves the rest. So a run keeps the octet
bound exactly when each segment held before the origin is fixed fits
(`FitsWindow`).
-/
import Wiry.Stream.Loss
import Wiry.Stream.Wrap

set_option autoImplicit false

namespace Wiry.Stream.Build

variable {α : Type}

/-! ## The held octets as a set of positions -/

/-- The positions held. -/
def region (b : Build α) : Finset ℕ := SortedMap.region Held.cells b.held

theorem mem_region {b : Build α} {p : ℕ} : p ∈ b.region ↔ (b.cell p).isSome := SortedMap.mem_region

theorem Sound.card_region {b : Build α} (hb : b.Sound) : b.region.card = b.held_bytes := by
  rw [hb.counted]
  exact hb.apart.card_region

/-- A loop holds no more than before. -/
theorem Advance.held_bytes_le {b b' : Build α} (h : Advance b b') (hb : b.Sound) :
    b'.held_bytes ≤ b.held_bytes := by
  rw [← hb.card_region, ← (h.sound hb).card_region]
  refine Finset.card_le_card fun p hp => ?_
  rw [mem_region] at hp ⊢
  obtain ⟨c, hc⟩ := Option.isSome_iff_exists.1 hp
  rw [h.cell_sub hb hc]
  rfl

/-- The stretches a segment adds number at most the held runs and one. -/
theorem card_stretches_le (b : Build α) (lo hi : ℕ) :
    (b.stretches lo hi).card ≤ b.held.length + 1 := by
  have hsub : b.stretches lo hi ⊆
      insert lo ((b.held.entries.map (SortedMap.stop Held.cells)).toFinset) := by
    intro p hp
    obtain ⟨⟨hlo, hhi⟩, hnone, hbefore⟩ := mem_stretches.1 hp
    rw [Finset.mem_insert, List.mem_toFinset, List.mem_map]
    rcases hbefore with rfl | hsome
    · exact Or.inl rfl
    · -- The run that holds the position before ends here.
      obtain ⟨x, hx, hxlo, hxhi⟩ := cell_isSome.1 hsome
      refine Or.inr ⟨x, hx, ?_⟩
      rcases cell_eq_none.1 hnone x hx with h | h <;> omega
  refine (Finset.card_le_card hsub).trans ((Finset.card_insert_le _ _).trans ?_)
  have := List.toFinset_card_le (b.held.entries.map (SortedMap.stop Held.cells))
  rw [List.length_map] at this
  exact Nat.add_le_add_right this 1

/-- A drain delivers what is contiguous with its frontier and stops at the first hole. -/
theorem drain_full (b : Build α) (hb : b.Sound) :
    ∀ p, b.next ≤ p → p < b.drain.next → (b.cell p).isSome := by
  refine drain_induction (P := fun b b' => b.Sound → ∀ p, b.next ≤ p → p < b'.next →
    (b.cell p).isSome) ?_ ?_ b hb
  · intro b _ _ p hlo hhi
    omega
  · intro b ks h hf hks ih hb p hlo hhi
    rcases Nat.lt_or_ge p (ks + h.bytes.length) with hin | hpast
    · rw [cell_first hb hf hin]
      exact carried_isSome.2 ⟨by omega, hin⟩
    · have hsome := ih (hb.take_front hf) p (by rw [take_front_next _ _ hks]; omega) hhi
      rwa [take_front_cell hb hf, if_pos hpast] at hsome

/-- A drained direction holds nothing up to its frontier. -/
theorem drain_cell_of_le (b : Build α) {p : ℕ} (hp : p ≤ b.drain.next) :
    b.drain.cell p = none := by
  cases hf : b.drain.held.first with
  | none => exact SortedMap.lookup_of_first_none hf p
  | some x =>
    have := drain_stops b x.1 x.2 hf
    exact SortedMap.lookup_lt_first hf (by omega)

/-! ## What the window keeps -/

/-- The positions held once an arrival is held too. -/
def claimed (b : Build α) (f : Arrival α) : Finset ℕ :=
  b.region ∪ Finset.Ico (b.landing f) (b.landing f + f.data.length)

/-- The positions of a set that lie behind a hole in it. -/
def behind (r : Finset ℕ) : Finset ℕ := r.filter fun p => ∃ q < p, q ∉ r ∧ ∃ o ∈ r, o < q

/-- The arrival is held before the origin is fixed. -/
def HeldInWindow (b : Build α) (f : Arrival α) : Prop :=
  (b.entered f).open_ = false ∧ f.data ≠ [] ∧ ¬ b.TooFar f

/-- How many runs are held once an arrival is held too. -/
def runs_with (b : Build α) (f : Arrival α) : ℕ :=
  b.held.length + (b.stretches (b.landing f) (b.landing f + f.data.length)).card

/-- An arrival held before the origin is fixed leaves no more octets waiting than may wait: all
that is held, or, when it fills the window, what lies behind the first hole. -/
def FitsWindow (b : Build α) (f : Arrival α) : Prop :=
  b.HeldInWindow f →
    if b.runs_with f < ORIGIN_WINDOW then (b.claimed f).card ≤ MAX_HELD_BYTES
    else (behind (b.claimed f)).card ≤ MAX_HELD_BYTES

theorem region_hold {e : Build α} (he : e.Sound) (at_ : ℕ) (data : List α) (pkt : ℕ) :
    (e.hold at_ data pkt).region = e.region ∪ Finset.Ico at_ (at_ + data.length) := by
  ext p
  rw [Finset.mem_union, mem_region, mem_region, (hold_spec he at_ data pkt).cell,
    Option.isSome_or, Bool.or_eq_true, Finset.mem_Ico]
  refine or_congr Iff.rfl ?_
  split
  · exact carried_isSome
  · simp only [Option.isSome_none, Bool.false_eq_true, false_iff]
    omega

/-- Once the origin is fixed and drained, what lies behind the first hole is left. -/
theorem region_fix_origin_drain {b : Build α} (hb : b.Sound) {ks : ℕ} {h : Held α}
    (hf : b.held.first = some (ks, h)) : b.fix_origin.drain.region = behind b.region := by
  obtain ⟨h1, -, h3, h4, -, -, -⟩ := fix_origin_spec hb hf
  have hcell : ∀ p, b.fix_origin.cell p = b.cell p := by
    intro p
    unfold cell
    rw [h3]
  have hpos := hb.first_pos hf
  have hlo : ∀ p, (b.cell p).isSome → ks ≤ p := fun p hp => first_le_of_cell hf hp
  have hfull := drain_full b.fix_origin h1
  have hadv := advance_drain b.fix_origin
  have hks : (b.cell ks).isSome := by
    rw [cell_first hb hf (by omega)]
    exact carried_isSome.2 ⟨le_rfl, by omega⟩
  -- The frontier ends past the first run, at a position that is not held.
  have hhole : ¬ (b.cell b.fix_origin.drain.next).isSome := by
    intro hsome
    have hnone := drain_cell_of_le b.fix_origin le_rfl
    rw [hadv.cell_eq h1 le_rfl, hcell] at hnone
    rw [hnone] at hsome
    cases hsome
  have hlt : ks < b.fix_origin.drain.next := by
    rcases Nat.lt_or_ge ks b.fix_origin.drain.next with hlt | hge
    · exact hlt
    · have hle := hadv.next_le
      obtain heq : b.fix_origin.drain.next = ks := by omega
      rw [heq] at hhole
      exact absurd hks hhole
  ext p
  unfold behind
  simp only [Finset.mem_filter, mem_region]
  constructor
  · intro hp
    have hnext : b.fix_origin.drain.next < p := by
      by_contra hle
      rw [drain_cell_of_le b.fix_origin (by omega)] at hp
      cases hp
    rw [hadv.cell_eq h1 hnext.le, hcell] at hp
    exact ⟨hp, _, hnext, hhole, ks, hks, hlt⟩
  · rintro ⟨hp, q, hqp, hq, o, ho, hoq⟩
    have hnext : b.fix_origin.drain.next ≤ q := by
      by_contra hqlt
      have := hlo o ho
      have hsome := hfull q (by omega) (by omega)
      rw [hcell] at hsome
      exact hq hsome
    rwa [hadv.cell_eq h1 (by omega), hcell]

/-! ## The bounds -/

/-- The bounds on what a direction holds. -/
structure Bounded (b : Build α) : Prop where
  counted : b.held_bytes = SortedMap.total Held.cells b.held
  apart : SortedMap.Apart Held.cells b.held
  held_le : b.held.length ≤ MAX_HELD_SEGS
  bytes_le : b.held_bytes ≤ MAX_HELD_BYTES

/-- How many runs a direction holds, open or not. -/
def FewRuns (b : Build α) : Prop :=
  b.held.length ≤ MAX_HELD_SEGS ∧ (b.open_ = false → b.held.length < ORIGIN_WINDOW)

/-- A relieved direction is inside both bounds. -/
theorem relieve_le (b : Build α) (hb : b.Sound) :
    b.relieve.held.length ≤ MAX_HELD_SEGS ∧ b.relieve.held_bytes ≤ MAX_HELD_BYTES := by
  rcases relieve_stops b with h | h
  · unfold overfull at h
    omega
  · have hnil := SortedMap.first_eq_none.1 h
    have hcounted := ((advance_relieve b).sound hb).counted
    rw [hcounted]
    simp [SortedMap.total, SortedMap.length, hnil]

/-- What one exit does to the bounds: the number of runs stays bounded at every exit, and the
number of octets at every exit but the two that hold before the origin is fixed. -/
theorem Fed.bounds {e b : Build α} {at_ pkt : ℕ} {data : List α} (h : Fed e at_ data pkt b)
    (he : e.Steered) (hfew : e.FewRuns) :
    b.FewRuns ∧
      (e.held_bytes ≤ MAX_HELD_BYTES →
        (e.open_ = false → data ≠ [] → abs_diff at_ e.next ≤ MAX_AHEAD →
          b.held_bytes ≤ MAX_HELD_BYTES) → b.held_bytes ≤ MAX_HELD_BYTES) ∧
      (e.open_ = false → data ≠ [] → abs_diff at_ e.next ≤ MAX_AHEAD →
        b.held_bytes =
          if e.held.length + (e.stretches at_ (at_ + data.length)).card < ORIGIN_WINDOW then
            (e.region ∪ Finset.Ico at_ (at_ + data.length)).card
          else (behind (e.region ∪ Finset.Ico at_ (at_ + data.length))).card) := by
  have hopen : e.open_ = true → ∀ x : ℕ, e.open_ = false → data ≠ [] →
      abs_diff at_ e.next ≤ MAX_AHEAD → b.held_bytes = x :=
    fun ho x ho' => absurd (ho.symm.trans ho') nofun
  -- By the way the octets were fed. Only holding adds runs and octets, and each of its two ways is
  -- relieved or drained.
  cases h with
  | bare hd => exact ⟨hfew, fun h _ => h, fun _ hne => absurd hd hne⟩
  | far hd ho hfar =>
    exact ⟨hfew, fun h _ => h, fun _ _ hnear => by omega⟩
  | waits hd ho hnear hlt =>
    have hspec := hold_spec he.sound at_ data pkt
    refine ⟨⟨?_, fun _ => hlt⟩, fun _ h => h ho hd hnear, fun _ _ _ => ?_⟩
    · have : ORIGIN_WINDOW ≤ MAX_HELD_SEGS := by decide
      omega
    · rw [if_pos (by rw [← hspec.length]; exact hlt), ← region_hold he.sound at_ data pkt,
        hspec.sound.card_region]
  -- The window is full: the origin is fixed and the stream drained.
  | opens hd ho hnear hfull =>
    have hspec := hold_spec he.sound at_ data pkt
    obtain ⟨ks, hh, hf⟩ := first_of_hold he.sound at_ hd pkt
    obtain ⟨h1, -, h3, -, -, h6, -⟩ := fix_origin_spec hspec.sound hf
    have hadv := advance_drain (e.hold at_ data pkt).fix_origin
    refine ⟨⟨?_, fun ho' => ?_⟩, fun _ h => h ho hd hnear, fun _ _ _ => ?_⟩
    · have hle := hadv.length_le
      have hcard := card_stretches_le e at_ (at_ + data.length)
      have hwindow := hfew.2 ho
      rw [h3, hspec.length] at hle
      simp only [MAX_HELD_SEGS, ORIGIN_WINDOW] at *
      omega
    · rw [hadv.open_eq, h6] at ho'
      cases ho'
    · rw [if_neg (by rw [← hspec.length]; omega), ← region_hold he.sound at_ data pkt,
        ← region_fix_origin_drain hspec.sound hf, (hadv.sound h1).card_region]
  | stale hd ho hend =>
    refine ⟨⟨by rw [below_held]; exact hfew.1, fun ho' => ?_⟩, fun h _ => ?_, hopen ho _⟩
    · rw [below_open, ho] at ho'
      cases ho'
    · have : (e.below at_ data).held_bytes = e.held_bytes := by
        unfold below
        split <;> rfl
      rwa [this]
  | beyond hd ho hfar =>
    refine ⟨⟨by rw [refuse_held, below_held]; exact hfew.1, fun ho' => ?_⟩, fun h _ => ?_,
      hopen ho _⟩
    · rw [refuse_open, below_open, ho] at ho'
      cases ho'
    · have : ((e.below at_ data).refuse data.length).held_bytes = e.held_bytes := by
        unfold below
        split <;> rfl
      rwa [this]
  -- Behind an open frontier: held, then relieved to the bounds.
  | held hd ho hahead hnear =>
    have hbs := he.below at_ data
    have hspec := hold_spec hbs.sound at_ data pkt
    obtain ⟨hlen, hbytes⟩ := relieve_le _ hspec.sound
    refine ⟨⟨hlen, fun ho' => ?_⟩, fun _ _ => hbytes, hopen ho _⟩
    rw [(advance_relieve _).open_eq, hspec.frame.open_, below_open, ho] at ho'
    cases ho'
  -- At the frontier: delivered, and then only drained.
  | delivered hd ho hat hend =>
    have hbs := he.below at_ data
    have hne : data.drop (e.next - at_) ≠ [] := by
      rw [← List.length_pos_iff, List.length_drop]
      omega
    have hadv := advance_drain ((e.below at_ data).append (data.drop (e.next - at_)) pkt)
    have hsound := (hbs.append hne pkt).sound
    refine ⟨⟨?_, fun ho' => ?_⟩, fun h _ => ?_, hopen ho _⟩
    · have := hadv.length_le
      rw [held_append, below_held] at this
      exact this.trans hfew.1
    · rw [hadv.open_eq, append_open, below_open, ho] at ho'
      cases ho'
    · have := hadv.held_bytes_le hsound
      have hsame : (e.below at_ data).held_bytes = e.held_bytes := by
        unfold below
        split <;> rfl
      rw [append_held_bytes, hsame] at this
      exact this.trans h

/-- Entering adds no run. -/
theorem FewRuns.entered {b : Build α} (h : b.FewRuns) (hb : b.Steered) (f : Arrival α) :
    (b.entered f).FewRuns := by
  refine ⟨by rw [entered_held]; exact h.1, fun ho => ?_⟩
  rw [entered_held]
  refine h.2 ?_
  by_contra ho'
  have := (entered_open_iff hb.started_of_open (f := f)).2 (Or.inl (by simpa using ho'))
  rw [this] at ho
  cases ho

theorem fewRuns_run (fs : List (Arrival α)) : (run fs).FewRuns := by
  refine run_induction (P := fun _ b => b.FewRuns) ⟨Nat.zero_le _, fun _ => (by decide : 0 < ORIGIN_WINDOW)⟩ ?_ fs
  intro fs f h
  have hb := steered_run fs
  exact ((take_fed (run fs) f).bounds (hb.entered f) (h.entered hb f)).1

/-- One arrival keeps the octet bound exactly when it fits. -/
theorem bytes_le_take_iff {b : Build α} {f : Arrival α} (hb : b.Steered) (hfew : b.FewRuns)
    (hbytes : b.held_bytes ≤ MAX_HELD_BYTES) :
    (b.take f).held_bytes ≤ MAX_HELD_BYTES ↔ b.FitsWindow f := by
  obtain ⟨-, hkeep, hwindow⟩ := (take_fed b f).bounds (hb.entered f) (hfew.entered hb f)
  rw [entered_held_bytes] at hkeep
  have hregion : (b.entered f).region = b.region := by
    unfold region
    rw [entered_held]
  have hstretches : ∀ lo hi, (b.entered f).stretches lo hi = b.stretches lo hi := by
    intro lo hi
    unfold stretches
    simp only [entered_cell]
  have hnear : (b.entered f).open_ = false →
      (abs_diff (b.landing f) (b.entered f).next ≤ MAX_AHEAD ↔ ¬ b.TooFar f) := by
    intro ho
    unfold TooFar
    rw [ho, if_neg Bool.false_ne_true]
    omega
  -- In the window the octets held are counted by `claimed`; elsewhere they do not grow.
  have hcount : b.HeldInWindow f → (b.take f).held_bytes =
      if b.runs_with f < ORIGIN_WINDOW then (b.claimed f).card
      else (behind (b.claimed f)).card := by
    rintro ⟨ho, hd, hfar⟩
    have := hwindow ho hd ((hnear ho).2 hfar)
    rwa [hregion, entered_held, hstretches] at this
  constructor
  · intro h hw
    rw [hcount hw] at h
    split at h
    · rwa [if_pos ‹_›]
    · rwa [if_neg ‹_›]
  · intro h
    refine hkeep hbytes fun ho hd hle => ?_
    have hw : b.HeldInWindow f := ⟨ho, hd, (hnear ho).1 hle⟩
    have := h hw
    rw [hcount hw]
    split at this
    · rwa [if_pos ‹_›]
    · rwa [if_neg ‹_›]

/-- **The holding bounds hold in every state of a run exactly when** each segment held before
the origin is fixed fits. -/
theorem holding_bounds_iff (fs : List (Arrival α)) :
    (∀ pre post, fs = pre ++ post → (run pre).Bounded) ↔
      ∀ pre f post, fs = pre ++ f :: post → (run pre).FitsWindow f := by
  constructor
  · rintro h pre f post rfl
    have hpre := h pre (f :: post) rfl
    have hnext := h (pre ++ [f]) post (by simp)
    rw [run_append_singleton] at hnext
    exact (bytes_le_take_iff (steered_run pre) (fewRuns_run pre) hpre.bytes_le).1 hnext.bytes_le
  · intro h pre post hfs
    have hsound := (steered_run pre).sound
    refine ⟨hsound.counted, hsound.apart, (fewRuns_run pre).1, ?_⟩
    induction pre using List.reverseRecOn generalizing post with
    | nil => exact Nat.zero_le _
    | append_singleton pre f ih =>
      have hfs' : fs = pre ++ f :: post := by simpa using hfs
      have hle := ih (f :: post) hfs' (steered_run pre).sound
      rw [run_append_singleton]
      exact (bytes_le_take_iff (steered_run pre) (fewRuns_run pre) hle).2 (h pre f post hfs')

/-! ### A window that overflows -/

/-- A direction that has no SYN and holds `k` segments of `n` octets in order. -/
structure Filling (n k : ℕ) (b : Build α) : Prop where
  steered : b.Steered
  started : b.started = true
  closed : b.open_ = false
  next : b.next = 2 ^ 32
  length : b.held.length = k
  bytes : b.held_bytes = n * k
  free : ∀ p, 2 ^ 32 + n * k ≤ p → b.cell p = none

/-- The `k`-th segment of `n` octets in order. -/
def in_order (n k : ℕ) : Arrival UInt8 := ⟨UInt32.ofNat (n * k), ACK, List.replicate n 0x78, k⟩

/-- The segments of the example read at their own offsets. -/
theorem Filling.reads {n k : ℕ} {b : Build UInt8} (h : Filling n k b) (hnear : n * k ≤ MAX_AHEAD) :
    b.reads (in_order n k) = 2 ^ 32 + n * k := by
  have hlt : n * k < 2 ^ 31 := by
    simp only [MAX_AHEAD] at hnear
    omega
  have hto : (UInt32.ofNat (n * k)).toNat = n * k := by
    rw [UInt32.toNat_ofNat']
    exact Nat.mod_eq_of_lt (by omega)
  have hdist : b.distance (in_order n k).seq = (n * k : ℕ) := by
    have hseq : (in_order n k).seq - UInt32.ofNat b.next = UInt32.ofNat (n * k) := by
      rw [h.next]
      exact UInt32.sub_zero _
    unfold distance
    rw [hseq, ← Int32.toInt_toBitVec, UInt32.toBitVec_toInt32, BitVec.toInt_eq_toNat_of_lt,
      UInt32.toNat_toBitVec, hto]
    rw [UInt32.toNat_toBitVec, hto]
    omega
  unfold Build.reads absolute
  rw [anchor_of_started h.started, hdist, h.next]
  omega

/-- The next segment in order waits with the others. -/
theorem Filling.take {n k : ℕ} {b : Build UInt8} (h : Filling n k b) (hn : 0 < n)
    (hk : k + 1 < ORIGIN_WINDOW) (hnear : n * k ≤ MAX_AHEAD) :
    Filling n (k + 1) (b.take (in_order n k)) := by
  have hsyn : ¬ Has (in_order n k).flags SYN := (by decide : ¬ Has ACK SYN)
  have hland : b.landing (in_order n k) = 2 ^ 32 + n * k := by
    rw [landing_of_not_syn hsyn, h.reads hnear]
  obtain ⟨hnext, hopen⟩ := entered_of_not_syn h.closed hsyn
  rw [anchor_of_started h.started, h.next] at hnext
  have hlen : (in_order n k).data.length = n := by simp [in_order]
  have hfed := take_fed b (in_order n k)
  have hsteered := h.steered.take (in_order n k)
  have he := h.steered.entered (in_order n k)
  have hst := entered_started b (in_order n k)
  have hheld : (b.entered (in_order n k)).held.length = k := by rw [entered_held, h.length]
  have hbytes : (b.entered (in_order n k)).held_bytes = n * k := by
    rw [entered_held_bytes, h.bytes]
  have hfree : ∀ p, 2 ^ 32 + n * k ≤ p → (b.entered (in_order n k)).cell p = none := by
    intro p hp
    rw [entered_cell, h.free p hp]
  rw [hland] at hfed
  generalize b.take (in_order n k) = b' at hfed hsteered ⊢
  generalize b.entered (in_order n k) = e at *
  generalize (in_order n k).data = data at *
  -- The segment is one stretch behind everything held.
  have hstretch : e.stretches (2 ^ 32 + n * k) (2 ^ 32 + n * k + data.length) =
      {2 ^ 32 + n * k} := by
    ext p
    rw [mem_stretches, Finset.mem_singleton]
    constructor
    · rintro ⟨⟨hlo, -⟩, -, rfl | hsome⟩
      · rfl
      · by_contra hne
        rw [hfree (p - 1) (by omega)] at hsome
        cases hsome
    · rintro rfl
      exact ⟨⟨le_rfl, by omega⟩, hfree _ le_rfl, Or.inl rfl⟩
  have hspec := hold_spec he.sound (2 ^ 32 + n * k) data (in_order n k).pkt
  have hruns : (e.hold (2 ^ 32 + n * k) data (in_order n k).pkt).held.length = k + 1 := by
    rw [hspec.length, hstretch, hheld, Finset.card_singleton]
  have hdiff : abs_diff (2 ^ 32 + n * k) e.next = n * k := by
    rw [hnext, abs_diff]
    omega
  cases hfed with
  | bare hd => rw [hd, List.length_nil] at hlen; omega
  | far _ _ hfar => omega
  | opens _ _ _ hfull => omega
  | stale _ ho => rw [hopen] at ho; cases ho
  | beyond _ ho => rw [hopen] at ho; cases ho
  | held _ ho => rw [hopen] at ho; cases ho
  | delivered _ ho => rw [hopen] at ho; cases ho
  | waits hd _ _ hfew =>
    refine ⟨hsteered, by rw [hspec.frame.started, hst], by rw [hspec.frame.open_, hopen],
      by rw [hspec.frame.next, hnext], hruns, ?_, ?_⟩
    · have hdisj : Disjoint e.region (Finset.Ico (2 ^ 32 + n * k) (2 ^ 32 + n * k + n)) := by
        rw [Finset.disjoint_left]
        intro p hp hq
        rw [mem_region, hfree p (Finset.mem_Ico.1 hq).1] at hp
        cases hp
      rw [← hspec.sound.card_region, region_hold he.sound, hlen,
        Finset.card_union_of_disjoint hdisj, he.sound.card_region, hbytes, Nat.card_Ico, Nat.mul_succ]
      omega
    · intro p hp
      rw [Nat.mul_succ] at hp
      rw [hspec.cell, hfree p (by omega), Option.none_or]
      split
      · exact carried_eq_none.2 (Or.inr (by omega))
      · rfl

theorem filling_init (n : ℕ) : Filling n 0 (({} : Build UInt8).anchor 0) where
  steered := ⟨⟨SortedMap.apart_empty, rfl, rfl, List.Pairwise.nil, nofun, Nat.zero_le _⟩, nofun, nofun⟩
  started := rfl
  closed := rfl
  next := by simp [anchor]
  length := rfl
  bytes := by simp
  free := by simp [cell]

/-- Five segments of 60000 octets in order, in a direction whose SYN was not captured. -/
def window_overflow : List (Arrival UInt8) := (List.range 5).map (in_order 60000)

/-- The window holds all of them. -/
theorem window_overflow_holds : (run window_overflow).held_bytes = 300000 := by
  have hsteps : ∀ k, 0 < k → k ≤ 5 →
      Filling 60000 k (run ((List.range k).map (in_order 60000))) := by
    intro k hk
    induction k with
    | zero => omega
    | succ k ih =>
      intro hle
      rw [List.range_succ, List.map_append, List.map_singleton, run_append_singleton]
      rcases Nat.eq_zero_or_pos k with rfl | hpos
      · rw [List.range_zero, List.map_nil, run_nil, ← take_anchor]
        exact (filling_init 60000).take (by omega) (by decide) (by decide)
      · exact (ih hpos (by omega)).take (by omega) (by simp only [ORIGIN_WINDOW]; omega)
          (by simp only [MAX_AHEAD]; omega)
  exact (hsteps 5 (by omega) le_rfl).bytes

/-- The bound on the octets held does not hold after the five. -/
theorem window_overflow_not_bounded :
    ¬ ∀ pre post, window_overflow = pre ++ post → (run pre).Bounded := by
  intro h
  have hle := (h window_overflow [] (by simp)).bytes_le
  rw [window_overflow_holds] at hle
  exact absurd hle (by decide)

end Wiry.Stream.Build
