/-
What one arrival does to a direction.

`feed` reads the position of an arrival and its control bits first (`entered`,
`landing`), and then takes one of eight exits. `Fed` lists them with the
conditions that lead to each, so every property of a run is a case analysis
over it and none unfolds `feed` again.
-/
import Wiry.Stream.Hold

set_option autoImplicit false

namespace Wiry.Stream.Build

variable {α : Type}

/-! ## Position and control bits -/

/-- The position the sequence number of an arrival names. -/
def reads (b : Build α) (f : Arrival α) : ℕ := (b.anchor f.seq).absolute f.seq

/-- The state once the control bits of an arrival are seen. -/
def entered (b : Build α) (f : Arrival α) : Build α :=
  (b.anchor f.seq).see_control (b.reads f) f.flags

/-- The position of the first payload octet of an arrival. -/
def landing (b : Build α) (f : Arrival α) : ℕ := payload_at (b.reads f) f.flags

/-- What an arrival carries at each position, with its packet. -/
def carries (b : Build α) (f : Arrival α) (p : ℕ) : Option (α × ℕ) :=
  carried (b.landing f) f.data f.pkt p

section Anchor

variable (b : Build α) (seq : UInt32)

@[simp] theorem anchor_held : (b.anchor seq).held = b.held := by
  unfold anchor
  split <;> rfl

@[simp] theorem anchor_held_bytes : (b.anchor seq).held_bytes = b.held_bytes := by
  unfold anchor
  split <;> rfl

@[simp] theorem anchor_half : (b.anchor seq).half = b.half := by
  unfold anchor
  split <;> rfl

@[simp] theorem anchor_open : (b.anchor seq).open_ = b.open_ := by
  unfold anchor
  split <;> rfl

@[simp] theorem anchor_started : (b.anchor seq).started = true := by
  unfold anchor
  split
  · assumption
  · rfl

theorem anchor_of_started {b : Build α} (h : b.started = true) (seq : UInt32) :
    b.anchor seq = b := by
  unfold anchor
  rw [if_pos h]

end Anchor

section Mark

variable (b : Build α) (m : UInt8)

@[simp] theorem mark_held : (b.mark m).held = b.held := rfl
@[simp] theorem mark_held_bytes : (b.mark m).held_bytes = b.held_bytes := rfl
@[simp] theorem mark_data : (b.mark m).half.data = b.half.data := rfl
@[simp] theorem mark_segs : (b.mark m).half.segs = b.half.segs := rfl
@[simp] theorem mark_gaps : (b.mark m).half.gaps = b.half.gaps := rfl
@[simp] theorem mark_dropped : (b.mark m).half.dropped = b.half.dropped := rfl
@[simp] theorem mark_next : (b.mark m).next = b.next := rfl
@[simp] theorem mark_origin : (b.mark m).origin = b.origin := rfl
@[simp] theorem mark_open : (b.mark m).open_ = b.open_ := rfl
@[simp] theorem mark_started : (b.mark m).started = b.started := rfl

theorem mark_flags {b : Build α} {k : UInt8} (h : Has b.half.flags k) (m : UInt8) :
    Has (b.mark m).half.flags k := h.or _

end Mark

section Control

variable (b : Build α) (at_ : ℕ) (flags : UInt8)

/-- A SYN changes the flags, and what `open_`, `next` and `origin` say. -/
theorem see_syn_same : (b.see_syn at_).held = b.held ∧ (b.see_syn at_).held_bytes = b.held_bytes ∧
    (b.see_syn at_).half = (b.mark SAW_SYN).half ∧ (b.see_syn at_).started = b.started := by
  unfold see_syn
  split
  · exact ⟨rfl, rfl, rfl, rfl⟩
  · exact ⟨rfl, rfl, rfl, rfl⟩

@[simp] theorem see_control_held : (b.see_control at_ flags).held = b.held := by
  unfold see_control
  dsimp only
  split_ifs <;> simp [see_syn_same]

@[simp] theorem see_control_held_bytes :
    (b.see_control at_ flags).held_bytes = b.held_bytes := by
  unfold see_control
  dsimp only
  split_ifs <;> simp [see_syn_same]

@[simp] theorem see_control_data : (b.see_control at_ flags).half.data = b.half.data := by
  unfold see_control
  dsimp only
  split_ifs <;> simp [see_syn_same]

@[simp] theorem see_control_segs : (b.see_control at_ flags).half.segs = b.half.segs := by
  unfold see_control
  dsimp only
  split_ifs <;> simp [see_syn_same]

@[simp] theorem see_control_gaps : (b.see_control at_ flags).half.gaps = b.half.gaps := by
  unfold see_control
  dsimp only
  split_ifs <;> simp [see_syn_same]

@[simp] theorem see_control_dropped :
    (b.see_control at_ flags).half.dropped = b.half.dropped := by
  unfold see_control
  dsimp only
  split_ifs <;> simp [see_syn_same]

@[simp] theorem see_control_started : (b.see_control at_ flags).started = b.started := by
  unfold see_control
  dsimp only
  split_ifs <;> simp [see_syn_same]

/-- Control bits only ever add flags. -/
theorem see_control_flags {b : Build α} {m : UInt8} (h : Has b.half.flags m) :
    Has (b.see_control at_ flags).half.flags m := by
  have hs : Has (b.see_syn at_).half.flags m := by
    rw [(see_syn_same b at_).2.2.1]
    exact mark_flags h _
  unfold see_control
  dsimp only
  split_ifs <;> simp only [h, hs, mark_flags]

/-- Once open, control bits move nothing. -/
theorem see_control_of_open {b : Build α} (h : b.open_ = true) :
    (b.see_control at_ flags).next = b.next ∧ (b.see_control at_ flags).origin = b.origin ∧
      (b.see_control at_ flags).open_ = true := by
  have hs : b.see_syn at_ = b.mark SAW_SYN := if_pos h
  unfold see_control
  dsimp only
  rw [hs]
  split_ifs <;> simp [h]

/-- A SYN opens the direction behind its own sequence number. -/
theorem see_control_of_syn {b : Build α} {flags : UInt8} (h : b.open_ = false)
    (hs : Has flags SYN) :
    (b.see_control at_ flags).next = at_ + 1 ∧ (b.see_control at_ flags).origin = at_ ∧
      (b.see_control at_ flags).open_ = true := by
  have hsyn : b.see_syn at_ =
      { b.mark SAW_SYN with origin := at_, next := at_ + 1, open_ := true } :=
    if_neg (by simp [h])
  unfold Has at hs
  unfold see_control
  dsimp only
  rw [if_pos hs, hsyn]
  split_ifs <;> simp

/-- Without a SYN, control bits move nothing. -/
theorem see_control_of_not_syn (b : Build α) {flags : UInt8} (hs : ¬ Has flags SYN) :
    (b.see_control at_ flags).next = b.next ∧ (b.see_control at_ flags).origin = b.origin ∧
      (b.see_control at_ flags).open_ = b.open_ := by
  unfold Has at hs
  unfold see_control
  dsimp only
  rw [if_neg hs]
  split_ifs <;> simp

end Control

section Entered

variable (b : Build α) (f : Arrival α)

@[simp] theorem entered_held : (b.entered f).held = b.held := by simp [entered]

@[simp] theorem entered_held_bytes : (b.entered f).held_bytes = b.held_bytes := by simp [entered]

@[simp] theorem entered_data : (b.entered f).half.data = b.half.data := by simp [entered]

@[simp] theorem entered_segs : (b.entered f).half.segs = b.half.segs := by simp [entered]

@[simp] theorem entered_gaps : (b.entered f).half.gaps = b.half.gaps := by simp [entered]

@[simp] theorem entered_dropped : (b.entered f).half.dropped = b.half.dropped := by simp [entered]

@[simp] theorem entered_started : (b.entered f).started = true := by simp [entered]

@[simp] theorem entered_cell (p : ℕ) : (b.entered f).cell p = b.cell p := by simp [cell]

theorem entered_flags {m : UInt8} (h : Has b.half.flags m) : Has (b.entered f).half.flags m :=
  see_control_flags _ _ (by simpa using h)

theorem entered_of_open {b : Build α} (h : b.open_ = true) (hst : b.started = true) :
    (b.entered f).next = b.next ∧ (b.entered f).origin = b.origin ∧
      (b.entered f).open_ = true := by
  unfold entered
  rw [anchor_of_started hst]
  exact see_control_of_open _ _ h

theorem entered_of_syn {b : Build α} {f : Arrival α} (h : b.open_ = false)
    (hs : Has f.flags SYN) :
    (b.entered f).next = b.reads f + 1 ∧ (b.entered f).origin = b.reads f ∧
      (b.entered f).open_ = true :=
  see_control_of_syn _ (by simpa using h) hs

/-- Anything else leaves it closed. -/
theorem entered_of_not_syn {b : Build α} {f : Arrival α} (h : b.open_ = false)
    (hs : ¬ Has f.flags SYN) :
    (b.entered f).next = (b.anchor f.seq).next ∧ (b.entered f).open_ = false := by
  obtain ⟨h1, -, h3⟩ := see_control_of_not_syn (b.reads f) (b.anchor f.seq) hs
  exact ⟨h1, by simpa [entered, h] using h3⟩

/-- A direction that is open after the control bits was open, or opens with a SYN. -/
theorem entered_open_iff {b : Build α} {f : Arrival α} (hst : b.open_ = true → b.started = true) :
    (b.entered f).open_ = true ↔ b.open_ = true ∨ Has f.flags SYN := by
  by_cases ho : b.open_ = true
  · simp [(entered_of_open f ho (hst ho)).2.2, ho]
  · have ho' : b.open_ = false := by simpa using ho
    by_cases hs : Has f.flags SYN
    · simp [(entered_of_syn ho' hs).2.2, hs]
    · simp [(entered_of_not_syn ho' hs).2, hs, ho']

theorem landing_of_syn {b : Build α} {f : Arrival α} (hs : Has f.flags SYN) :
    b.landing f = b.reads f + 1 := by
  unfold landing payload_at
  exact if_pos hs

theorem landing_of_not_syn {b : Build α} {f : Arrival α} (hs : ¬ Has f.flags SYN) :
    b.landing f = b.reads f := by
  unfold landing payload_at
  exact if_neg hs

theorem carries_isSome {b : Build α} {f : Arrival α} {p : ℕ} :
    (b.carries f p).isSome ↔ b.landing f ≤ p ∧ p < b.landing f + f.data.length :=
  carried_isSome

/-- Entering keeps the build sound. -/
theorem Sound.entered {b : Build α} (hb : b.Sound) : (b.entered f).Sound where
  apart := by simpa using hb.apart
  counted := by simpa using hb.counted
  tiles := by simpa using hb.tiles
  gaps_sorted := by simpa using hb.gaps_sorted
  gaps_le := by simpa using hb.gaps_le
  data_le := by simpa using hb.data_le

end Entered

/-! ## The exits of `feed` -/

/-- The octets of an arrival below the origin are refused. -/
def below (e : Build α) (at_ : ℕ) (data : List α) : Build α :=
  if at_ < e.origin then e.refuse (min (e.origin - at_) data.length) else e

/-- The state after an arrival whose payload `data` of packet `pkt` claims position `at_`, by the
exit `feed` takes from the state `e` it enters its payload part in. -/
inductive Fed (e : Build α) (at_ : ℕ) (data : List α) (pkt : ℕ) : Build α → Prop
  /-- No payload. -/
  | bare (hd : data = []) : Fed e at_ data pkt e
  /-- Not open, and too far from the first sequence number seen. -/
  | far (hd : data ≠ []) (ho : e.open_ = false) (hfar : MAX_AHEAD < abs_diff at_ e.next) :
      Fed e at_ data pkt (e.refuse data.length)
  /-- Not open: the segment waits for the origin. -/
  | waits (hd : data ≠ []) (ho : e.open_ = false) (hnear : abs_diff at_ e.next ≤ MAX_AHEAD)
      (hfew : (e.hold at_ data pkt).held.length < ORIGIN_WINDOW) :
      Fed e at_ data pkt (e.hold at_ data pkt)
  /-- Not open, and the window is full: the earliest position held becomes the origin. -/
  | opens (hd : data ≠ []) (ho : e.open_ = false) (hnear : abs_diff at_ e.next ≤ MAX_AHEAD)
      (hfull : ORIGIN_WINDOW ≤ (e.hold at_ data pkt).held.length) :
      Fed e at_ data pkt (e.hold at_ data pkt).fix_origin.drain
  /-- The frontier has passed the whole segment. -/
  | stale (hd : data ≠ []) (ho : e.open_ = true) (hend : at_ + data.length ≤ e.next) :
      Fed e at_ data pkt (e.below at_ data)
  /-- Too far past the frontier. -/
  | beyond (hd : data ≠ []) (ho : e.open_ = true) (hfar : MAX_AHEAD < at_ - e.next) :
      Fed e at_ data pkt ((e.below at_ data).refuse data.length)
  /-- Past the frontier: the segment waits behind a gap. -/
  | held (hd : data ≠ []) (ho : e.open_ = true) (hahead : e.next < at_)
      (hnear : at_ - e.next ≤ MAX_AHEAD) :
      Fed e at_ data pkt ((e.below at_ data).hold at_ data pkt).relieve
  /-- The segment reaches the frontier: what lies past it is delivered, and what waited there. -/
  | delivered (hd : data ≠ []) (ho : e.open_ = true) (hat : at_ ≤ e.next)
      (hend : e.next < at_ + data.length) :
      Fed e at_ data pkt ((e.below at_ data).append (data.drop (e.next - at_)) pkt).drain

@[simp] theorem below_next (e : Build α) (at_ : ℕ) (data : List α) :
    (e.below at_ data).next = e.next := by
  unfold below
  split <;> rfl

/-- An arrival takes one of the exits. -/
theorem take_fed (b : Build α) (f : Arrival α) :
    Fed (b.entered f) (b.landing f) f.data f.pkt (b.take f) := by
  -- The branches of the source in its own order; each is one constructor.
  have htake : b.take f =
      if f.data.isEmpty then b.entered f
      else if (b.entered f).open_ then (b.entered f).feed_open (b.landing f) f.data f.pkt
      else (b.entered f).feed_window (b.landing f) f.data f.pkt := rfl
  rw [htake]
  generalize b.entered f = e
  generalize b.landing f = at_
  by_cases hd : f.data = []
  · rw [if_pos (by simpa using hd)]
    exact .bare hd
  have hpos := List.length_pos_iff.2 hd
  rw [if_neg (by simpa using hd)]
  -- Open: stale, in order, beyond the window or ahead of the frontier.
  by_cases ho : e.open_ = true
  · rw [if_pos ho]
    have hopen : e.feed_open at_ f.data f.pkt =
        if at_ + f.data.length ≤ (e.below at_ f.data).next then e.below at_ f.data
        else if at_ < (e.below at_ f.data).next then
          (e.below at_ f.data).feed_ahead (e.below at_ f.data).next
            (f.data.drop (min ((e.below at_ f.data).next - at_) f.data.length)) f.pkt
        else (e.below at_ f.data).feed_ahead at_ f.data f.pkt := rfl
    rw [hopen, below_next]
    by_cases hend : at_ + f.data.length ≤ e.next
    · rw [if_pos hend]
      exact .stale hd ho hend
    rw [if_neg hend]
    by_cases hlt : at_ < e.next
    · rw [if_pos hlt]
      unfold feed_ahead
      rw [below_next, if_neg (by omega), Nat.min_eq_left (by omega)]
      exact .delivered hd ho hlt.le (by omega)
    rw [if_neg hlt]
    unfold feed_ahead
    rw [below_next]
    by_cases hgt : at_ > e.next
    · rw [if_pos hgt]
      by_cases hfar : at_ - e.next > MAX_AHEAD
      · rw [if_pos hfar]
        exact .beyond hd ho hfar
      · rw [if_neg hfar]
        exact .held hd ho hgt (by omega)
    · rw [if_neg hgt]
      have h : Fed e at_ f.data f.pkt _ := .delivered hd ho (by omega) (by omega)
      rwa [show e.next - at_ = 0 by omega, List.drop_zero] at h
  -- Not yet open: outside the window, held, or the segment that fills it.
  · have ho' : e.open_ = false := by simpa using ho
    rw [if_neg ho]
    unfold feed_window
    by_cases hfar : abs_diff at_ e.next > MAX_AHEAD
    · rw [if_pos hfar]
      exact .far hd ho' hfar
    rw [if_neg hfar]
    dsimp only
    by_cases hfull : (e.hold at_ f.data f.pkt).held.length ≥ ORIGIN_WINDOW
    · rw [if_pos hfull]
      exact .opens hd ho' (by omega) hfull
    · rw [if_neg hfull]
      exact .waits hd ho' (by omega) (by omega)

/-! ## What each exit builds on -/

section Refuse

variable (b : Build α) (n : ℕ)

@[simp] theorem refuse_held : (b.refuse n).held = b.held := rfl
@[simp] theorem refuse_held_bytes : (b.refuse n).held_bytes = b.held_bytes := rfl
@[simp] theorem refuse_next : (b.refuse n).next = b.next := rfl
@[simp] theorem refuse_origin : (b.refuse n).origin = b.origin := rfl
@[simp] theorem refuse_open : (b.refuse n).open_ = b.open_ := rfl
@[simp] theorem refuse_started : (b.refuse n).started = b.started := rfl
@[simp] theorem refuse_data : (b.refuse n).half.data = b.half.data := rfl
@[simp] theorem refuse_segs : (b.refuse n).half.segs = b.half.segs := rfl
@[simp] theorem refuse_gaps : (b.refuse n).half.gaps = b.half.gaps := rfl
@[simp] theorem refuse_dropped : (b.refuse n).half.dropped = b.half.dropped + n := rfl
@[simp] theorem refuse_cell (p : ℕ) : (b.refuse n).cell p = b.cell p := rfl

theorem refuse_lossy : Has (b.refuse n).half.flags LOSSY := has_or_self (by decide)

theorem refuse_flags {m : UInt8} (h : Has b.half.flags m) : Has (b.refuse n).half.flags m := h.or _

theorem Sound.refuse {b : Build α} (hb : b.Sound) (n : ℕ) : (b.refuse n).Sound :=
  ⟨hb.apart, hb.counted, hb.tiles, hb.gaps_sorted, hb.gaps_le, hb.data_le⟩

end Refuse

section Below

variable (e : Build α) (at_ : ℕ) (data : List α)

@[simp] theorem below_held : (e.below at_ data).held = e.held := by
  unfold below
  split <;> rfl

@[simp] theorem below_cell (p : ℕ) : (e.below at_ data).cell p = e.cell p := by
  unfold below
  split <;> rfl

@[simp] theorem below_data : (e.below at_ data).half.data = e.half.data := by
  unfold below
  split <;> rfl

@[simp] theorem below_room : (e.below at_ data).room = e.room := by
  simp [room]

@[simp] theorem below_open : (e.below at_ data).open_ = e.open_ := by
  unfold below
  split <;> rfl

@[simp] theorem below_origin : (e.below at_ data).origin = e.origin := by
  unfold below
  split <;> rfl

@[simp] theorem below_started : (e.below at_ data).started = e.started := by
  unfold below
  split <;> rfl

theorem Sound.below {e : Build α} (he : e.Sound) : (e.below at_ data).Sound := by
  unfold Build.below
  split
  · exact he.refuse _
  · exact he

end Below

/-- The origin is fixed at the first run held. -/
theorem fix_origin_spec {b : Build α} (hb : b.Sound) {ks : ℕ} {h : Held α}
    (hf : b.held.first = some (ks, h)) :
    b.fix_origin.Sound ∧ b.fix_origin.half = b.half ∧ b.fix_origin.held = b.held ∧
      b.fix_origin.next = ks ∧ b.fix_origin.origin = ks ∧ b.fix_origin.open_ = true ∧
      b.fix_origin.started = b.started := by
  unfold fix_origin
  rw [hf]
  exact ⟨⟨hb.apart, hb.counted, hb.tiles, hb.gaps_sorted, hb.gaps_le, hb.data_le⟩,
    rfl, rfl, rfl, rfl, rfl, rfl⟩

theorem fix_origin_of_none {b : Build α} (hf : b.held.first = none) : b.fix_origin = b := by
  unfold fix_origin
  rw [hf]

/-- What is held of a segment that is not empty leaves nothing of it unheld, so something is
held. -/
theorem first_of_hold {b : Build α} (hb : b.Sound) (at_ : ℕ) {data : List α} (hd : data ≠ [])
    (pkt : ℕ) : ∃ ks h, (b.hold at_ data pkt).held.first = some (ks, h) := by
  have hpos := List.length_pos_iff.2 hd
  have hspec := hold_spec hb at_ data pkt
  cases hf : (b.hold at_ data pkt).held.first with
  | some x => exact ⟨x.1, x.2, rfl⟩
  | none =>
    have hnone : (b.hold at_ data pkt).cell at_ = none :=
      SortedMap.lookup_of_first_none hf at_
    have hsome : (carried at_ data pkt at_).isSome := carried_isSome.2 ⟨le_rfl, by omega⟩
    rw [hspec.cell, if_pos le_rfl, Option.or_eq_none_iff] at hnone
    rw [hnone.2] at hsome
    cases hsome

/-! ## Invariants of every run -/

/-- What `feed` keeps of the fields that steer it. -/
structure Steered (b : Build α) : Prop where
  sound : b.Sound
  started_of_open : b.open_ = true → b.started = true
  origin_le : b.open_ = true → b.origin ≤ b.next

theorem steered_init : Steered ({} : Build α) :=
  ⟨sound_init, nofun, nofun⟩

/-- Entering a segment keeps the build steered. -/
theorem Steered.entered {b : Build α} (hb : b.Steered) (f : Arrival α) :
    (b.entered f).Steered where
  sound := hb.sound.entered f
  started_of_open := fun _ => entered_started b f
  origin_le := by
    intro ho
    rcases (entered_open_iff hb.started_of_open).1 ho with ho' | hs
    · obtain ⟨h1, h2, -⟩ := entered_of_open f ho' (hb.started_of_open ho')
      rw [h1, h2]
      exact hb.origin_le ho'
    · by_cases ho' : b.open_ = true
      · obtain ⟨h1, h2, -⟩ := entered_of_open f ho' (hb.started_of_open ho')
        rw [h1, h2]
        exact hb.origin_le ho'
      · obtain ⟨h1, h2, -⟩ := entered_of_syn (by simpa using ho') hs
        omega

theorem Steered.below {e : Build α} (he : e.Steered) (at_ : ℕ) (data : List α) :
    (e.below at_ data).Steered :=
  ⟨he.sound.below at_ data, by simpa using he.started_of_open, by simpa using he.origin_le⟩

/-- So does advancing it. -/
theorem Steered.advance {b b' : Build α} (hb : b.Steered) (h : Advance b b') : b'.Steered where
  sound := h.sound hb.sound
  started_of_open := by
    rw [h.open_eq, h.started_eq]
    exact hb.started_of_open
  origin_le := by
    intro ho
    rw [h.open_eq] at ho
    have := hb.origin_le ho
    have := h.next_le
    rw [h.origin_eq]
    omega

/-- Holding keeps it steered. -/
theorem Steered.hold {b : Build α} (hb : b.Steered) (at_ : ℕ) (data : List α) (pkt : ℕ) :
    (b.hold at_ data pkt).Steered := by
  have h := hold_spec hb.sound at_ data pkt
  refine ⟨h.sound, ?_, ?_⟩
  · rw [h.frame.open_, h.frame.started]
    exact hb.started_of_open
  · rw [h.frame.open_, h.frame.origin, h.frame.next]
    exact hb.origin_le

/-- So does delivering. -/
theorem Steered.append {b : Build α} (hb : b.Steered) {data : List α} (hd : data ≠ [])
    (pkt : ℕ) : (b.append data pkt).Steered := by
  refine ⟨hb.sound.append hd pkt, by simpa using hb.started_of_open, ?_⟩
  intro ho
  rw [append_open] at ho
  have := hb.origin_le ho
  rw [append_origin, append_next]
  omega

/-- So does feeding the octets, in each of the ways they are fed. -/
theorem Steered.fed {e b : Build α} (he : e.Steered) (hst : e.started = true) {at_ pkt : ℕ}
    {data : List α} (h : Fed e at_ data pkt b) : b.Steered := by
  cases h with
  | bare hd => exact he
  | far hd ho hfar =>
    exact ⟨he.sound.refuse _, he.started_of_open, he.origin_le⟩
  | waits hd ho hnear hfew => exact he.hold at_ data pkt
  | opens hd ho hnear hfull =>
    obtain ⟨ks, hh, hf⟩ := first_of_hold he.sound at_ hd pkt
    have hspec := hold_spec he.sound at_ data pkt
    obtain ⟨h1, -, -, h4, h5, -, h7⟩ := fix_origin_spec hspec.sound hf
    refine Steered.advance ⟨h1, fun _ => ?_, fun _ => ?_⟩ (advance_drain _)
    · rw [h7, hspec.frame.started, hst]
    · rw [h4, h5]
  | stale hd ho hend => exact he.below at_ data
  | beyond hd ho hfar =>
    have hb := he.below at_ data
    exact ⟨hb.sound.refuse _, hb.started_of_open, hb.origin_le⟩
  | held hd ho hahead hnear => exact ((he.below at_ data).hold at_ data pkt).advance (advance_relieve _)
  | delivered hd ho hat hend =>
    refine ((he.below at_ data).append ?_ pkt).advance (advance_drain _)
    rw [← List.length_pos_iff, List.length_drop]
    omega

theorem Steered.take {b : Build α} (hb : b.Steered) (f : Arrival α) : (b.take f).Steered :=
  (hb.entered f).fed (entered_started b f) (take_fed b f)

/-- An arrival leaves the direction anchored. -/
theorem take_started {b : Build α} (hb : b.Steered) (f : Arrival α) :
    (b.take f).started = true := by
  have hfed := take_fed b f
  have he := hb.entered f
  have hst := entered_started b f
  generalize b.take f = b' at hfed ⊢
  generalize b.entered f = e at *
  cases hfed with
  | bare hd => exact hst
  | far hd ho hfar => exact hst
  | waits hd ho hnear hfew => rw [(hold_spec he.sound _ _ _).frame.started, hst]
  | opens hd ho hnear hfull =>
    have hspec := hold_spec he.sound (b.landing f) f.data f.pkt
    obtain ⟨ks, hh, hf⟩ := first_of_hold he.sound (b.landing f) hd f.pkt
    rw [(advance_drain _).started_eq, (fix_origin_spec hspec.sound hf).2.2.2.2.2.2,
      hspec.frame.started, hst]
  | stale hd ho hend => rw [below_started, hst]
  | beyond hd ho hfar => rw [refuse_started, below_started, hst]
  | held hd ho hahead hnear =>
    rw [(advance_relieve _).started_eq,
      (hold_spec (he.sound.below _ _) _ _ _).frame.started, below_started, hst]
  | delivered hd ho hat hend =>
    rw [(advance_drain _).started_eq, append_started, below_started, hst]

/-- **Every reachable state** is sound, anchored once it is open, and has its frontier at or past
its origin. -/
theorem steered_run (fs : List (Arrival α)) : (run fs).Steered :=
  run_induction (P := fun _ b => b.Steered) steered_init (fun _ f h => h.take f) fs

end Wiry.Stream.Build
