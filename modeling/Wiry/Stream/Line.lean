/-
The line a direction is delivered along.

From the position `s` a direction opened at, the delivered octets, the recorded
gaps and what `MAX_STREAM` cut off account for every position up to the
frontier. `Line` says so for one state, relative to `s`, to the octets refused so
far and to a relation `W` that says which octet may stand at which position.
Every exit of `feed` and every loop keeps it, for any `W` that admits the octets
the arrival brings; what an octet is, and who wrote it first, are then two
choices of `W`.

What a run has to remember beside its state (where it opened, what it refused)
is computed along the run by `trace`.
-/
import Wiry.Stream.Feed

set_option autoImplicit false

namespace Wiry.Stream.Build

variable {α : Type}

/-! ## What a run remembers -/

section Trace

variable {σ : Type}

/-- Runs `g` along a sequence of arrivals: `g x b f` is what is remembered once `f` is taken in
state `b`, having remembered `x`. -/
def trace (g : σ → Build α → Arrival α → σ) (x : σ) (fs : List (Arrival α)) : σ :=
  (fs.foldl (fun s f => (g s.1 s.2 f, s.2.take f)) (x, ({} : Build α))).1

@[simp] theorem trace_nil (g : σ → Build α → Arrival α → σ) (x : σ) : trace g x [] = x := rfl

/-- A trace over a run goes one step further with each segment. -/
theorem trace_append_singleton (g : σ → Build α → Arrival α → σ) (x : σ)
    (fs : List (Arrival α)) (f : Arrival α) :
    trace g x (fs ++ [f]) = g (trace g x fs) (run fs) f := by
  have hrun : ∀ (l : List (Arrival α)) (s : σ × Build α),
      (l.foldl (fun s f => (g s.1 s.2 f, s.2.take f)) s).2 = l.foldl Build.take s.2 := by
    intro l
    induction l with
    | nil => exact fun _ => rfl
    | cons f l ih => exact fun s => ih _
  unfold trace
  rw [List.foldl_append, List.foldl_cons, List.foldl_nil, hrun]
  rfl

end Trace

/-- The octets of an arrival refused by `MAX_AHEAD`, or for lying below the origin. -/
def refusal (b : Build α) (f : Arrival α) : ℕ :=
  let e := b.entered f
  let at_ := b.landing f
  if f.data = [] then 0
  else if e.open_ then
    (if at_ < e.origin then min (e.origin - at_) f.data.length else 0) +
      (if MAX_AHEAD < at_ - e.next then f.data.length else 0)
  else if MAX_AHEAD < abs_diff at_ e.next then f.data.length
  else 0

/-- The octets refused so far. -/
def refusals (fs : List (Arrival α)) : ℕ := trace (fun n b f => n + b.refusal f) 0 fs

/-- Where a direction opens, if this arrival opens it: behind a SYN, or at the earliest position
held once the window is full. -/
def opening (b : Build α) (f : Arrival α) : Option ℕ :=
  if b.open_ then none
  else if Has f.flags SYN then some (b.entered f).next
  else if (b.take f).open_ then
    ((b.entered f).hold (b.landing f) f.data f.pkt).held.first.map Prod.fst
  else none

/-- The position a direction opened at. -/
def start (fs : List (Arrival α)) : Option ℕ := trace (fun s b f => s.or (b.opening f)) none fs

/-- The position a direction has opened at once it is finished. -/
def final_start (fs : List (Arrival α)) : Option ℕ :=
  (start fs).or ((run fs).held.first.map Prod.fst)

/-! ## The line -/

/-- The direction opened at `s`, has refused `refused` octets, and everything from `s` to the
frontier is accounted for; `W` admits every octet delivered or held where it stands. -/
structure Line (s refused : ℕ) (W : ℕ → α × ℕ → Prop) (b : Build α) : Prop where
  sound : b.Sound
  waits : ∀ p c, b.cell p = some c → W p c
  delivered : ∀ o c, b.half.octets[o]? = some c → W (s + o + b.half.missing o) c
  /-- What the frontier has passed was delivered, is a gap, or was cut off by `MAX_STREAM`. -/
  ledger : ∃ cut, b.next = s + b.half.data.length + b.half.missingTotal + cut ∧
    b.half.dropped = refused + cut ∧ (0 < cut → b.room = 0 ∧ Has b.half.flags TRUNCATED)
  lossy : 0 < refused → Has b.half.flags LOSSY

section Line

variable {s refused : ℕ} {W W' : ℕ → α × ℕ → Prop} {b b' : Build α}

theorem Line.mono (h : Line s refused W b) (hW : ∀ p c, W p c → W' p c) :
    Line s refused W' b where
  sound := h.sound
  waits := fun p c hc => hW _ _ (h.waits p c hc)
  delivered := fun o c hc => hW _ _ (h.delivered o c hc)
  ledger := h.ledger
  lossy := h.lossy

theorem Sound.length_octets (hb : b.Sound) : b.half.octets.length = b.half.data.length := by
  have := hb.tiles.length_pkts
  simp only [Half.octets, List.length_zip]
  omega

/-- Past the data every gap has been counted. -/
theorem Sound.missing_of_le (hb : b.Sound) {o : ℕ} (ho : b.half.data.length ≤ o) :
    b.half.missing o = b.half.missingTotal :=
  Holes.skipped_of_forall_le fun g hg => (hb.gaps_le g hg).trans ho

/-- Octets admitted where the frontier is may be delivered. -/
theorem Line.append (h : Line s refused W b) {data : List α} (hd : data ≠ []) {pkt : ℕ}
    (hnew : ∀ p c, p < b.next + b.room → carried b.next data pkt p = some c → W p c) :
    Line s refused W (b.append data pkt) where
  sound := h.sound.append hd pkt
  waits := by
    intro p c hc
    refine h.waits p c ?_
    unfold cell at hc ⊢
    rwa [held_append] at hc
  delivered := by
    intro o c hc
    have hlen := h.sound.length_octets
    have hmiss : (b.append data pkt).half.missing o = b.half.missing o := by
      unfold Half.missing
      rw [append_gaps]
    rw [hmiss]
    rw [append_octets h.sound] at hc
    rcases Nat.lt_or_ge o b.half.octets.length with hold | hnewo
    · rw [List.getElem?_append_left hold] at hc
      exact h.delivered o c hc
    · rw [List.getElem?_append_right hnewo, List.getElem?_map, List.getElem?_take] at hc
      obtain ⟨cut, hnext, -, hcut⟩ := h.ledger
      split at hc
      · rename_i hroom
        -- There is room, so nothing was cut off and the frontier is where the data ends.
        have hzero : cut = 0 := by
          by_contra hne
          have := (hcut (by omega)).1
          omega
        have hpos : s + o + b.half.missing o = b.next + (o - b.half.octets.length) := by
          rw [h.sound.missing_of_le (by omega)]
          omega
        rw [hpos]
        refine hnew _ _ (by omega) ?_
        rw [carried_eq, if_pos (by omega), Nat.add_sub_cancel_left]
        exact hc
      · cases hc
  ledger := by
    obtain ⟨cut, hnext, hdrop, hcut⟩ := h.ledger
    have hpos := List.length_pos_iff.2 hd
    have hroom : (b.append data pkt).room = b.room - data.length := by
      unfold room
      rw [append_data, List.length_append, List.length_take]
      unfold room
      omega
    refine ⟨cut + (data.length - b.room), ?_, ?_, ?_⟩
    · have hmiss : (b.append data pkt).half.missingTotal = b.half.missingTotal := by
        unfold Half.missingTotal
        rw [append_gaps]
      rw [append_next, append_data, List.length_append, List.length_take, hmiss]
      have hz : 0 < cut → b.room = 0 := fun hc => (hcut hc).1
      omega
    · rw [append_dropped]
      omega
    · intro hpos'
      rw [append_flags _ _ _ hd, hroom]
      have hle : b.room ≤ data.length := by
        by_contra hlt
        have := (hcut (by omega)).1
        omega
      refine ⟨by omega, ?_⟩
      split
      · exact (hcut (by omega)).2
      · exact has_or_self (by decide)
  lossy := by
    intro hr
    rw [append_flags _ _ _ hd]
    split
    · exact h.lossy hr
    · exact (h.lossy hr).or _

/-- A line runs on when a held segment is taken out. -/
theorem Line.popped (h : Line s refused W b) {ks : ℕ} {hd : Held α}
    (hf : b.held.first = some (ks, hd)) :
    Line s refused W
      { b with held := b.held.remove ks, held_bytes := b.held_bytes - hd.bytes.length } where
  sound := h.sound.popped hf
  waits := by
    intro p c hc
    refine h.waits p c ?_
    have hrem := h.sound.apart.lookup_remove_first hf p
    have hc' : SortedMap.lookup Held.cells (b.held.remove ks) p = some c := hc
    rw [hrem] at hc'
    split at hc'
    · exact hc'
    · cases hc'
  delivered := h.delivered
  ledger := h.ledger
  lossy := h.lossy

/-- A held run the frontier has reached may be delivered. -/
theorem Line.take_front (h : Line s refused W b) {ks : ℕ} {hd : Held α}
    (hf : b.held.first = some (ks, hd)) (hks : ks ≤ b.next) :
    Line s refused W (b.take_front ks hd) := by
  unfold Build.take_front
  dsimp only
  split
  · exact h.popped hf
  · rename_i hgt
    refine (h.popped hf).append ?_ ?_
    · rw [← List.length_pos_iff, List.length_drop]
      omega
    · intro p c _ hc
      have hdrop : carried b.next (hd.bytes.drop (b.next - ks)) hd.pkt p = some c := hc
      have hp : b.next ≤ p ∧ p < ks + hd.bytes.length := by
        have hsome := carried_isSome.1 (by rw [hdrop]; rfl)
        rw [List.length_drop] at hsome
        omega
      have hcar : carried ks hd.bytes hd.pkt p = some c := by
        have := carried_drop ks hd.bytes hd.pkt (n := b.next - ks) (p := p) (by omega)
        rwa [show ks + (b.next - ks) = b.next by omega, hdrop, eq_comm] at this
      exact h.waits p c (by rw [cell_first h.sound hf hp.2, hcar])

/-- Skipping to a held run records what is missing. -/
theorem Line.skip_to (h : Line s refused W b) (first : ℕ) :
    Line s refused W (b.skip_to first) where
  -- A gap moves the frontier; the octets delivered and those held are untouched.
  sound := h.sound.skip_to first
  waits := by
    intro p c hc
    rw [skip_to_cell] at hc
    exact h.waits p c hc
  delivered := by
    intro o c hc
    rw [skip_to_octets] at hc
    have ho : o < b.half.data.length := by
      rw [← h.sound.length_octets]
      exact (List.getElem?_eq_some_iff.1 hc).1
    have hmiss : (b.skip_to first).half.missing o = b.half.missing o := by
      unfold Half.missing
      rw [skip_to_gaps]
      split
      · exact Holes.skipped_append_of_lt ho
      · rw [List.append_nil]
    rw [hmiss]
    exact h.delivered o c hc
  -- The octets passed over go to the gaps, so the frontier is accounted for again.
  ledger := by
    obtain ⟨cut, hnext, hdrop, hcut⟩ := h.ledger
    refine ⟨cut, ?_, by rwa [skip_to_dropped], ?_⟩
    · rw [skip_to_next, skip_to_data, skip_to_missingTotal]
      omega
    · have hroom : (b.skip_to first).room = b.room := by simp [room]
      rwa [hroom, skip_to_flags]
  lossy := by
    rw [skip_to_flags]
    exact h.lossy

/-- **Every loop keeps the line.** -/
theorem Line.advance (h : Line s refused W b) (ha : Advance b b') : Line s refused W b' := by
  induction ha with
  | refl b => exact h
  | pop hf hks _ ih => exact ih (h.take_front hf hks)
  | skip _ _ ih => exact ih (h.skip_to _)

theorem Line.refuse (h : Line s refused W b) (n : ℕ) : Line s (refused + n) W (b.refuse n) where
  sound := h.sound.refuse n
  waits := h.waits
  delivered := h.delivered
  ledger := by
    obtain ⟨cut, hnext, hdrop, hcut⟩ := h.ledger
    refine ⟨cut, hnext, ?_, fun hc => ⟨(hcut hc).1, refuse_flags b n (hcut hc).2⟩⟩
    rw [refuse_dropped]
    omega
  lossy := fun _ => refuse_lossy b n

theorem Line.below (h : Line s refused W b) (at_ : ℕ) (data : List α) :
    Line s (refused + if at_ < b.origin then min (b.origin - at_) data.length else 0) W
      (b.below at_ data) := by
  unfold Build.below
  split
  · exact h.refuse _
  · exact h

/-- Held octets are on the line when their writer is admitted. -/
theorem Line.hold (h : Line s refused W b) {at_ pkt : ℕ} {data : List α}
    (hnew : ∀ p c, b.cell p = none → carried at_ data pkt p = some c → W p c) :
    Line s refused W (b.hold at_ data pkt) := by
  have hspec := hold_spec h.sound at_ data pkt
  refine ⟨hspec.sound, ?_, ?_, ?_, by rw [hspec.frame.half]; exact h.lossy⟩
  · intro p c hc
    rw [hspec.cell] at hc
    cases hcell : b.cell p with
    | some d =>
      rw [hcell, Option.some_or] at hc
      exact h.waits p c (by rw [hcell, hc])
    | none =>
      rw [hcell, Option.none_or] at hc
      split at hc
      · exact hnew p c hcell hc
      · cases hc
  · rw [hspec.frame.half]
    exact h.delivered
  · have hroom : (b.hold at_ data pkt).room = b.room := by
      unfold room
      rw [hspec.frame.half]
    rw [hspec.frame.half, hspec.frame.next, hroom]
    exact h.ledger

end Line

/-! ## Before the direction is open -/

/-- The direction is not open: it has delivered nothing, and `W` admits what waits. -/
structure Closed (refused : ℕ) (W : ℕ → α × ℕ → Prop) (b : Build α) : Prop where
  sound : b.Sound
  waits : ∀ p c, b.cell p = some c → W p c
  data : b.half.data = []
  segs : b.half.segs = []
  gaps : b.half.gaps = []
  dropped : b.half.dropped = refused
  lossy : 0 < refused → Has b.half.flags LOSSY

section Closed

variable {refused : ℕ} {W W' : ℕ → α × ℕ → Prop} {b b' : Build α}

theorem closed_init (W : ℕ → α × ℕ → Prop) : Closed 0 W ({} : Build α) :=
  ⟨sound_init, nofun, rfl, rfl, rfl, rfl, nofun⟩

theorem Closed.mono (h : Closed refused W b) (hW : ∀ p c, W p c → W' p c) :
    Closed refused W' b :=
  ⟨h.sound, fun p c hc => hW p c (h.waits p c hc), h.data, h.segs, h.gaps, h.dropped, h.lossy⟩

/-- A direction that opens with nothing delivered opens its line at the frontier. -/
theorem Closed.line (h : Closed refused W b) : Line b.next refused W b where
  sound := h.sound
  waits := h.waits
  delivered := by
    intro o c hc
    simp [Half.octets, h.data] at hc
  ledger := ⟨0, by simp [h.data, h.gaps, Half.missingTotal], by simp [h.dropped], nofun⟩
  lossy := h.lossy

theorem Closed.hold (h : Closed refused W b) {at_ pkt : ℕ} {data : List α}
    (hnew : ∀ p c, b.cell p = none → carried at_ data pkt p = some c → W p c) :
    Closed refused W (b.hold at_ data pkt) := by
  have hline := h.line.hold hnew
  have hhalf := (hold_spec h.sound at_ data pkt).frame.half
  exact ⟨hline.sound, hline.waits, by rw [hhalf, h.data], by rw [hhalf, h.segs],
    by rw [hhalf, h.gaps], by rw [hhalf, h.dropped], hline.lossy⟩

theorem Closed.refuse (h : Closed refused W b) (n : ℕ) : Closed (refused + n) W (b.refuse n) :=
  ⟨h.sound.refuse n, h.waits, h.data, h.segs, h.gaps, by rw [refuse_dropped, h.dropped],
    fun _ => refuse_lossy b n⟩

/-- So does entering. -/
theorem Closed.entered (h : Closed refused W b) (f : Arrival α) :
    Closed refused W (b.entered f) :=
  ⟨h.sound.entered f, fun p c hc => h.waits p c (by simpa using hc), by simpa using h.data,
    by simpa using h.segs, by simpa using h.gaps, by simpa using h.dropped,
    fun hr => entered_flags b f (h.lossy hr)⟩

/-- Fixing the origin opens the line at the earliest position held. -/
theorem Closed.fix_origin (h : Closed refused W b) {ks : ℕ} {hd : Held α}
    (hf : b.held.first = some (ks, hd)) : Line ks refused W b.fix_origin := by
  obtain ⟨h1, h2, h3, h4, -, -, -⟩ := fix_origin_spec h.sound hf
  have hc : Closed refused W b.fix_origin := by
    refine ⟨h1, ?_, by rw [h2, h.data], by rw [h2, h.segs], by rw [h2, h.gaps],
      by rw [h2, h.dropped], by rw [h2]; exact h.lossy⟩
    intro p c hc
    refine h.waits p c ?_
    unfold cell at hc ⊢
    rwa [h3] at hc
  have := hc.line
  rwa [h4] at this

end Closed

/-! ## One arrival -/

/-- `MAX_AHEAD` refuses an arrival. -/
def TooFar (b : Build α) (f : Arrival α) : Prop :=
  MAX_AHEAD < if (b.entered f).open_ then b.landing f - (b.entered f).next
    else abs_diff (b.landing f) (b.entered f).next

instance (b : Build α) (f : Arrival α) : Decidable (b.TooFar f) :=
  inferInstanceAs (Decidable (_ < _))

/-- A position lies below the origin of a direction that is open. -/
def BelowOrigin (b : Build α) (f : Arrival α) (p : ℕ) : Prop :=
  (b.entered f).open_ = true ∧ p < (b.entered f).origin

instance (b : Build α) (f : Arrival α) (p : ℕ) : Decidable (b.BelowOrigin f p) :=
  inferInstanceAs (Decidable (_ ∧ _))

/-- An arrival that reaches the frontier carries a position `MAX_STREAM` has no room for. -/
def PastRoom (b : Build α) (f : Arrival α) (p : ℕ) : Prop :=
  (b.entered f).open_ = true ∧ b.landing f ≤ (b.entered f).next ∧
    (b.entered f).next + (b.entered f).room ≤ p

instance (b : Build α) (f : Arrival α) (p : ℕ) : Decidable (b.PastRoom f p) :=
  inferInstanceAs (Decidable (_ ∧ _ ∧ _))

/-- A bound refuses what an arrival carries at `p`. -/
def Refused (b : Build α) (f : Arrival α) (p : ℕ) : Prop :=
  b.TooFar f ∨ b.BelowOrigin f p ∨ b.PastRoom f p

instance (b : Build α) (f : Arrival α) (p : ℕ) : Decidable (b.Refused f p) :=
  inferInstanceAs (Decidable (_ ∨ _ ∨ _))

/-- What an arrival brings to a position and no bound refuses. -/
def claims (b : Build α) (f : Arrival α) (p : ℕ) : Option (α × ℕ) :=
  if b.Refused f p then none else b.carries f p

/-- The arrival is delivered at `p` straight from its own payload. -/
def Appends (b : Build α) (f : Arrival α) (p : ℕ) : Prop :=
  (b.entered f).open_ = true ∧ b.landing f ≤ (b.entered f).next ∧ (b.entered f).next ≤ p ∧
    p < (b.entered f).next + (b.entered f).room

/-- The position is not behind the frontier of a direction that is open. -/
def Ahead (b : Build α) (p : ℕ) : Prop := b.open_ = true → b.next ≤ p

/-- What `W` admits, once an arrival has been taken: what it leaves waiting, and what it
delivers. -/
structure Admits (W W' : ℕ → α × ℕ → Prop) (b : Build α) (f : Arrival α) : Prop where
  mono : ∀ p c, W p c → W' p c
  waits : ∀ p c, b.claims f p = some c → (b.entered f).Ahead p → b.cell p = none → W' p c
  appends : ∀ p c, b.claims f p = some c → b.Appends f p → W' p c

section Step

variable {s refused : ℕ} {W W' : ℕ → α × ℕ → Prop} {b : Build α} {f : Arrival α}

/-- An open direction keeps its line over one arrival. -/
theorem Line.take (hb : b.Steered) (ho : (b.entered f).open_ = true)
    (h : Line s refused W (b.entered f)) (hW : Admits W W' b f) :
    Line s (refused + b.refusal f) W' (b.take f) := by
  have hfed := take_fed b f
  have he := hb.entered f
  have horigin := he.origin_le ho
  -- Entering changes no cell, so what is claimed is read off the state before the step.
  have hcell : ∀ p, (b.entered f).cell p = b.cell p := entered_cell b f
  have hclaims : ∀ p, ¬ b.Refused f p → b.claims f p = carried (b.landing f) f.data f.pkt p :=
    fun p hp => if_neg hp
  have hrefusal : b.refusal f = if f.data = [] then 0 else
      (if b.landing f < (b.entered f).origin then
        min ((b.entered f).origin - b.landing f) f.data.length else 0) +
      (if MAX_AHEAD < b.landing f - (b.entered f).next then f.data.length else 0) := by
    unfold refusal
    dsimp only
    rw [if_pos ho]
  have hrefused : ∀ p, b.Refused f p ↔ MAX_AHEAD < b.landing f - (b.entered f).next ∨
      p < (b.entered f).origin ∨
      (b.landing f ≤ (b.entered f).next ∧ (b.entered f).next + (b.entered f).room ≤ p) := by
    intro p
    simp only [Refused, TooFar, BelowOrigin, PastRoom, ho, if_true, true_and]
  have happ := hW.appends
  have hwait := hW.waits
  unfold Appends at happ
  have hmono := h.mono hW.mono
  clear h
  generalize b.take f = b' at hfed
  generalize b.entered f = e at *
  generalize b.landing f = at_ at *
  -- By the way the octets were fed; on an open build there are five of them.
  cases hfed with
  | bare hd =>
    rw [hrefusal, if_pos hd]
    exact hmono
  | far hd ho' => rw [ho] at ho'; cases ho'
  | waits hd ho' => rw [ho] at ho'; cases ho'
  | opens hd ho' => rw [ho] at ho'; cases ho'
  | stale hd _ hend =>
    rw [hrefusal, if_neg hd, if_neg (by omega : ¬ MAX_AHEAD < at_ - e.next), Nat.add_zero]
    exact hmono.below at_ f.data
  | beyond hd _ hfar =>
    rw [hrefusal, if_neg hd, if_pos hfar, ← Nat.add_assoc]
    exact (hmono.below at_ f.data).refuse _
  -- Held octets wait with their writer, as the step admits.
  | held hd _ hahead hnear =>
    rw [hrefusal, if_neg hd, if_neg (by omega : ¬ MAX_AHEAD < at_ - e.next), Nat.add_zero]
    refine ((hmono.below at_ f.data).hold ?_).advance (advance_relieve _)
    intro p c hnone hc
    have hp := carried_isSome.1 (by rw [hc]; rfl)
    rw [below_cell] at hnone
    refine hwait p c ?_ (fun _ => by omega) (by rw [← hcell, hnone])
    rw [hclaims p (by rw [hrefused]; omega), hc]
  -- Delivered octets are appended with theirs.
  | delivered hd _ hat hend =>
    rw [hrefusal, if_neg hd, if_neg (by omega : ¬ MAX_AHEAD < at_ - e.next), Nat.add_zero]
    refine ((hmono.below at_ f.data).append ?_ ?_).advance (advance_drain _)
    · rw [← List.length_pos_iff, List.length_drop]
      omega
    · intro p c hp hc
      rw [below_next] at hc
      have hcar : carried at_ f.data f.pkt p = some c := by
        have hsome := carried_isSome.1 (by rw [hc]; rfl)
        have := carried_drop at_ f.data f.pkt (n := e.next - at_) (p := p) (by omega)
        rwa [show at_ + (e.next - at_) = e.next by omega, hc, eq_comm] at this
      have hlo := (carried_isSome.1 (by rw [hc]; rfl)).1
      rw [below_next, below_room] at hp
      refine happ p c ?_ ⟨ho, hat, hlo, hp⟩
      rw [hclaims p (by rw [hrefused]; omega), hcar]

/-- A direction that is not open stays closed over an arrival, or opens its line where
`opening` says. -/
theorem Closed.take (hb : b.Steered) (ho : (b.entered f).open_ = false)
    (h : Closed refused W b) (hW : Admits W W' b f) :
    ((b.take f).open_ = false ∧ Closed (refused + b.refusal f) W' (b.take f)) ∨
      ((b.take f).open_ = true ∧
        ∃ ks hd, ((b.entered f).hold (b.landing f) f.data f.pkt).held.first = some (ks, hd) ∧
        Line ks (refused + b.refusal f) W' (b.take f)) := by
  have hfed := take_fed b f
  have he := hb.entered f
  have hrefusal : b.refusal f = if f.data = [] then 0 else
      if MAX_AHEAD < abs_diff (b.landing f) (b.entered f).next then f.data.length else 0 := by
    unfold refusal
    dsimp only
    rw [ho]
    rfl
  have hnew : ¬ MAX_AHEAD < abs_diff (b.landing f) (b.entered f).next →
      ∀ p c, (b.entered f).cell p = none → carried (b.landing f) f.data f.pkt p = some c →
        W' p c := by
    intro hnear p c hnone hc
    refine hW.waits p c ?_ (fun ho' => by cases ho.symm.trans ho') (by rwa [entered_cell] at hnone)
    have : ¬ b.Refused f p := by
      simpa [Refused, TooFar, BelowOrigin, PastRoom, ho] using hnear
    rw [claims, if_neg this]
    exact hc
  have hclosed := (h.entered f).mono hW.mono
  generalize b.take f = b' at hfed ⊢
  generalize b.entered f = e at *
  generalize b.landing f = at_ at *
  -- On a build that is not open there are four ways.
  cases hfed with
  | bare hd =>
    rw [hrefusal, if_pos hd]
    exact Or.inl ⟨ho, hclosed⟩
  | far hd _ hfar =>
    rw [hrefusal, if_neg hd, if_pos hfar]
    exact Or.inl ⟨ho, hclosed.refuse _⟩
  | waits hd _ hnear hfew =>
    rw [hrefusal, if_neg hd, if_neg (by omega)]
    refine Or.inl ⟨?_, hclosed.hold (hnew (by omega))⟩
    rw [(hold_spec he.sound at_ f.data f.pkt).frame.open_, ho]
  -- The segment that fills the window opens the build at the first octet held.
  | opens hd _ hnear hfull =>
    rw [hrefusal, if_neg hd, if_neg (by omega)]
    have hc := hclosed.hold (hnew (by omega))
    obtain ⟨ks, hh, hf⟩ := first_of_hold he.sound at_ hd f.pkt
    refine Or.inr ⟨?_, ks, hh, hf, (hc.fix_origin hf).advance (advance_drain _)⟩
    rw [(advance_drain _).open_eq]
    exact (fix_origin_spec hc.sound hf).2.2.2.2.2.1
  | stale _ ho' => rw [ho] at ho'; cases ho'
  | beyond _ ho' => rw [ho] at ho'; cases ho'
  | held _ ho' => rw [ho] at ho'; cases ho'
  | delivered _ ho' => rw [ho] at ho'; cases ho'

end Step

/-! ## Whole runs -/

/-- Once open, a direction stays open. -/
theorem open_take {b : Build α} (hb : b.Steered) {f : Arrival α}
    (ho : (b.entered f).open_ = true) : (b.take f).open_ = true := by
  have hfed := take_fed b f
  have he := hb.entered f
  generalize b.take f = b' at hfed ⊢
  generalize b.entered f = e at *
  cases hfed with
  | bare hd => exact ho
  | far hd ho' => rw [ho] at ho'; cases ho'
  | waits hd ho' => rw [ho] at ho'; cases ho'
  | opens hd ho' => rw [ho] at ho'; cases ho'
  | stale hd _ hend => simpa using ho
  | beyond hd _ hfar => simpa using ho
  | held hd _ hahead hnear =>
    rw [(advance_relieve _).open_eq, (hold_spec (he.sound.below _ _) _ _ _).frame.open_]
    simpa using ho
  | delivered hd _ hat hend =>
    rw [(advance_drain _).open_eq]
    simpa using ho

/-- Where a run stands: closed with nothing delivered, or open along its line. -/
def Standing (s : Option ℕ) (refused : ℕ) (W : ℕ → α × ℕ → Prop) (b : Build α) : Prop :=
  (b.open_ = false ∧ s = none ∧ Closed refused W b) ∨
    (b.open_ = true ∧ ∃ p, s = some p ∧ Line p refused W b)

/-- Entering a segment of an open build keeps the line. -/
theorem Line.entered {s refused : ℕ} {W : ℕ → α × ℕ → Prop} {b : Build α}
    (h : Line s refused W b) (hb : b.Steered) (ho : b.open_ = true) (f : Arrival α) :
    Line s refused W (b.entered f) where
  sound := h.sound.entered f
  waits := fun p c hc => h.waits p c (by simpa using hc)
  delivered := by
    intro o c hc
    have hoct : (b.entered f).half.octets = b.half.octets := by simp [Half.octets]
    have hmiss : (b.entered f).half.missing o = b.half.missing o := by simp [Half.missing]
    rw [hmiss]
    rw [hoct] at hc
    exact h.delivered o c hc
  ledger := by
    obtain ⟨cut, hnext, hdrop, hcut⟩ := h.ledger
    obtain ⟨hn, -, -⟩ := entered_of_open f ho (hb.started_of_open ho)
    refine ⟨cut, ?_, by simpa using hdrop, fun hc => ⟨?_, entered_flags b f (hcut hc).2⟩⟩
    · simpa [hn, Half.missingTotal] using hnext
    · simpa [room] using (hcut hc).1
  lossy := fun hr => entered_flags b f (h.lossy hr)

/-- **One arrival keeps a run standing**, for any `W` that admits what it brings. -/
theorem Standing.take {s : Option ℕ} {refused : ℕ} {W W' : ℕ → α × ℕ → Prop} {b : Build α}
    {f : Arrival α} (h : Standing s refused W b) (hb : b.Steered) (hW : Admits W W' b f) :
    Standing (s.or (b.opening f)) (refused + b.refusal f) W' (b.take f) := by
  rcases h with ⟨ho, rfl, hc⟩ | ⟨ho, p, rfl, hl⟩
  · rw [Option.none_or]
    by_cases hs : Has f.flags SYN
    · obtain ⟨-, -, hoe⟩ := entered_of_syn ho hs
      refine Or.inr ⟨open_take hb hoe, (b.entered f).next, ?_, ?_⟩
      · rw [opening, if_neg (by simp [ho]), if_pos hs]
      · exact Line.take hb hoe (hc.entered f).line hW
    · obtain ⟨-, hoe⟩ := entered_of_not_syn ho hs
      have hopening : b.opening f = if (b.take f).open_ = true then
          ((b.entered f).hold (b.landing f) f.data f.pkt).held.first.map Prod.fst else none := by
        rw [opening, if_neg (by simp [ho]), if_neg hs]
      rcases hc.take hb hoe hW with ⟨ho', hc'⟩ | ⟨ho', ks, hd, hf, hl⟩
      · exact Or.inl ⟨ho', by rw [hopening, if_neg (by simp [ho'])], hc'⟩
      · exact Or.inr ⟨ho', ks, by rw [hopening, if_pos ho', hf]; rfl, hl⟩
  · obtain ⟨-, -, hoe⟩ := entered_of_open f ho (hb.started_of_open ho)
    rw [Option.some_or]
    exact Or.inr ⟨open_take hb hoe, p, rfl, Line.take hb hoe (hl.entered hb ho f) hW⟩

/-- **Every run stands**: for any family `W` that admits what each arrival of the run brings. -/
theorem standing_run {W : List (Arrival α) → ℕ → α × ℕ → Prop} (fs : List (Arrival α))
    (hW : ∀ pre f post, fs = pre ++ f :: post →
      Admits (W pre) (W (pre ++ [f])) (run pre) f) :
    Standing (start fs) (refusals fs) (W fs) (run fs) := by
  induction fs using List.reverseRecOn with
  | nil => exact Or.inl ⟨rfl, rfl, closed_init _⟩
  | append_singleton fs f ih =>
    have hstart : start (fs ++ [f]) = (start fs).or ((run fs).opening f) :=
      trace_append_singleton _ _ fs f
    have hrefusals : refusals (fs ++ [f]) = refusals fs + (run fs).refusal f :=
      trace_append_singleton _ _ fs f
    rw [hstart, hrefusals, run_append_singleton]
    refine (ih ?_).take (steered_run fs) (hW fs f [] rfl)
    rintro pre g post rfl
    exact hW pre g (post ++ [f]) (by simp)

/-- A finished direction stands along its line, or held nothing and delivered nothing. -/
theorem Standing.finished {s : Option ℕ} {refused : ℕ} {W : ℕ → α × ℕ → Prop} {b : Build α}
    (h : Standing s refused W b) :
    Standing (s.or (b.held.first.map Prod.fst)) refused W b.finished := by
  unfold Build.finished
  rcases h with ⟨ho, rfl, hc⟩ | ⟨ho, p, rfl, hl⟩
  · rw [if_neg (by simp [ho]), Option.none_or]
    cases hf : b.held.first with
    | none =>
      have hflush : b.flush = b := by
        rw [flush]
        split
        · rename_i b' hg
          rw [give_up_eq_none.2 hf] at hg
          cases hg
        · rfl
      rw [fix_origin_of_none hf, hflush]
      exact Or.inl ⟨ho, rfl, hc⟩
    | some x =>
      refine Or.inr ⟨?_, x.1, rfl, (hc.fix_origin hf).advance (advance_flush _)⟩
      rw [(advance_flush _).open_eq]
      exact (fix_origin_spec hc.sound hf).2.2.2.2.2.1
  · rw [if_pos ho, Option.some_or]
    refine Or.inr ⟨?_, p, rfl, hl.advance (advance_flush _)⟩
    rw [(advance_flush _).open_eq, ho]

end Wiry.Stream.Build
