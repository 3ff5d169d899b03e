/-
The 64-bit line.

A direction reads every 32-bit sequence number against its frontier. The line
is anchored one wrap in, and the frontier never falls below half a wrap, so no
sequence number reads below zero; and it stays far below `2 ^ 63` for as many
packets as a `u32` can index, so the saturating and the signed arithmetic of the
source are the arithmetic of the natural numbers used here. Between these two
ends the line may lie anywhere: moving every sequence number of a run by one
constant moves the line and changes nothing that is handed back.
-/
import Wiry.Stream.Account
import Wiry.Stream.Relabel

set_option autoImplicit false

namespace Wiry.Stream.Build

variable {α : Type}

/-! ## Reading a sequence number -/

theorem distance_ge (b : Build α) (seq : UInt32) : -2 ^ 31 ≤ b.distance seq := Int32.le_toInt _

theorem distance_lt (b : Build α) (seq : UInt32) : b.distance seq < 2 ^ 31 := Int32.toInt_lt _

/-- The signed difference is the difference of the sequence numbers. -/
theorem distance_emod (b : Build α) (seq : UInt32) :
    ((b.next : ℤ) + b.distance seq) % 2 ^ 32 = seq.toNat := by
  have hd : b.distance seq % 2 ^ 32 = ((seq - UInt32.ofNat b.next).toNat : ℤ) % 2 ^ 32 := by
    unfold distance
    rw [← Int32.toInt_toBitVec, UInt32.toBitVec_toInt32, BitVec.toInt_eq_toNat_bmod]
    exact Int.bmod_emod
  have hs : (seq - UInt32.ofNat b.next).toNat =
      (2 ^ 32 - b.next % 2 ^ 32 + seq.toNat) % 2 ^ 32 := by
    rw [UInt32.toNat_sub, UInt32.toNat_ofNat']
  have hlt := seq.toNat_lt
  rw [hs] at hd
  omega

/-- The position a sequence number names has that sequence number. -/
theorem absolute_emod {b : Build α} {seq : UInt32} (h : 0 ≤ (b.next : ℤ) + b.distance seq) :
    b.absolute seq % 2 ^ 32 = seq.toNat := by
  have := distance_emod b seq
  unfold absolute
  omega

/-! ## The lower end of the line -/

/-- The line of a direction keeps clear of zero. -/
structure Anchored (b : Build α) : Prop where
  fresh : b.started = false → b = {}
  above : b.started = true → 2 ^ 31 < b.next
  /-- Before the direction opens, the frontier stands where it was anchored, and everything held
  is near it. -/
  window : b.started = true → b.open_ = false →
    2 ^ 32 ≤ b.next ∧ b.next < 2 ^ 33 ∧ ∀ p, (b.cell p).isSome → 2 ^ 32 ≤ p + MAX_AHEAD

theorem anchored_init : Anchored ({} : Build α) := ⟨fun _ => rfl, nofun, nofun⟩

/-- The anchor keeps every position far from zero. -/
theorem Anchored.anchor {b : Build α} (h : b.Anchored) (seq : UInt32) :
    (b.anchor seq).Anchored := by
  by_cases hst : b.started = true
  · rwa [anchor_of_started hst]
  · have hlt := seq.toNat_lt
    have hfresh := h.fresh (by simpa using hst)
    subst hfresh
    have hnext : (({} : Build α).anchor seq).next = seq.toNat + 2 ^ 32 := rfl
    refine ⟨fun hs => absurd ((anchor_started _ seq).symm.trans hs) nofun, fun _ => by omega,
      fun _ _ => ?_⟩
    refine ⟨by omega, by omega, fun p hp => ?_⟩
    cases hp

/-- **No position underflows**: an arrival is read at or past zero. -/
theorem Anchored.nonneg {b : Build α} (h : b.Anchored) (seq : UInt32) :
    0 ≤ ((b.anchor seq).next : ℤ) + (b.anchor seq).distance seq := by
  have habove := (h.anchor seq).above (anchor_started b seq)
  have hd := distance_ge (b.anchor seq) seq
  omega

theorem Anchored.reads_eq {b : Build α} (h : b.Anchored) (f : Arrival α) :
    (b.reads f : ℤ) = (b.anchor f.seq).next + (b.anchor f.seq).distance f.seq := by
  have := h.nonneg f.seq
  unfold reads absolute
  omega

/-- The position an arrival is read at has its sequence number. -/
theorem Anchored.reads_emod {b : Build α} (h : b.Anchored) (f : Arrival α) :
    b.reads f % 2 ^ 32 = f.seq.toNat :=
  absolute_emod (h.nonneg f.seq)

/-- After entering, the frontier is at least 2^31, and near 2^32 as long as the stream is not open.
-/
theorem Anchored.entered {b : Build α} (hb : b.Steered) (h : b.Anchored) (f : Arrival α) :
    2 ^ 31 < (b.entered f).next ∧ ((b.entered f).open_ = false →
      2 ^ 32 ≤ (b.entered f).next ∧ (b.entered f).next < 2 ^ 33 ∧
        ∀ p, (b.cell p).isSome → 2 ^ 32 ≤ p + MAX_AHEAD) := by
  have ha := h.anchor f.seq
  have hst := anchor_started b f.seq
  -- An open direction keeps its place; a closed one is placed by the number it meets.
  by_cases ho : b.open_ = true
  · obtain ⟨hnext, -, hoe⟩ := entered_of_open f ho (hb.started_of_open ho)
    refine ⟨?_, fun ho' => by rw [hoe] at ho'; cases ho'⟩
    rw [hnext]
    exact h.above (hb.started_of_open ho)
  · have ho' : b.open_ = false := by simpa using ho
    obtain ⟨hlo, hhi, hcell⟩ := ha.window hst (by rw [anchor_open, ho'])
    by_cases hs : Has f.flags SYN
    · obtain ⟨hnext, -, hoe⟩ := entered_of_syn ho' hs
      have hr := h.reads_eq f
      have hd := distance_ge (b.anchor f.seq) f.seq
      refine ⟨by rw [hnext]; omega, fun ho'' => by rw [hoe] at ho''; cases ho''⟩
    · obtain ⟨hnext, -⟩ := entered_of_not_syn ho' hs
      rw [hnext]
      refine ⟨by omega, fun _ => ⟨hlo, hhi, fun p hp => hcell p ?_⟩⟩
      simpa [cell] using hp

/-- A whole step keeps it so: the frontier only moves up, and a late origin is looked for among
positions that are near. -/
theorem Anchored.take {b : Build α} (hb : b.Steered) (h : b.Anchored) (f : Arrival α) :
    (b.take f).Anchored := by
  have hfed := take_fed b f
  have he := hb.entered f
  have hst := entered_started b f
  obtain ⟨habove, hwindow⟩ := h.entered hb f
  have hcell : ∀ p, (b.entered f).cell p = b.cell p := entered_cell b f
  generalize b.take f = b' at hfed ⊢
  generalize b.entered f = e at *
  generalize b.landing f = at_ at *
  -- A direction that is open only moves forward.
  have hopen : ∀ b₁ : Build α, b₁.started = true → b₁.open_ = true → 2 ^ 31 < b₁.next →
      b₁.Anchored := fun b₁ h1 h2 h3 =>
    ⟨fun hf => (by rw [h1] at hf; cases hf), fun _ => h3,
      fun _ ho => (by rw [h2] at ho; cases ho)⟩
  have hclosed : ∀ b₁ : Build α, b₁.started = true → b₁.next = e.next → e.open_ = false →
      (∀ p, (b₁.cell p).isSome → 2 ^ 32 ≤ p + MAX_AHEAD) → b₁.Anchored :=
    fun b₁ h1 h2 h3 h4 =>
      ⟨fun hf => (by rw [h1] at hf; cases hf), fun _ => (by rw [h2]; exact habove),
        fun _ _ => ⟨by rw [h2]; exact (hwindow h3).1, by rw [h2]; exact (hwindow h3).2.1, h4⟩⟩
  have hheld : e.open_ = false → abs_diff at_ e.next ≤ MAX_AHEAD →
      ∀ p, ((e.hold at_ f.data f.pkt).cell p).isSome → 2 ^ 32 ≤ p + MAX_AHEAD := by
    intro ho hnear p hp
    obtain ⟨hlo, -, hold⟩ := hwindow ho
    rw [(hold_spec he.sound at_ f.data f.pkt).cell] at hp
    cases hc : e.cell p with
    | some c => exact hold p (by rw [← hcell, hc]; rfl)
    | none =>
      rw [hc, Option.none_or] at hp
      split at hp
      · have := carried_isSome.1 hp
        unfold abs_diff at hnear
        omega
      · cases hp
  cases hfed with
  | bare hd =>
    by_cases ho : b'.open_ = true
    · exact hopen _ hst ho habove
    · have ho' : b'.open_ = false := by simpa using ho
      exact hclosed _ hst rfl ho' fun p hp => (hwindow ho').2.2 p (by rwa [← hcell])
  | far hd ho hfar =>
    refine hclosed _ hst rfl ho fun p hp => (hwindow ho).2.2 p ?_
    rwa [← hcell, ← refuse_cell e f.data.length]
  | waits hd ho hnear hfew =>
    have hframe := (hold_spec he.sound at_ f.data f.pkt).frame
    exact hclosed _ (by rw [hframe.started, hst]) hframe.next ho (hheld ho hnear)
  | opens hd ho hnear hfull =>
    have hspec := hold_spec he.sound at_ f.data f.pkt
    obtain ⟨ks, hh, hf⟩ := first_of_hold he.sound at_ hd f.pkt
    obtain ⟨h1, -, -, h4, -, h6, h7⟩ := fix_origin_spec hspec.sound hf
    refine hopen _ ?_ ?_ ?_
    · rw [(advance_drain _).started_eq, h7, hspec.frame.started, hst]
    · rw [(advance_drain _).open_eq, h6]
    · have hle := (advance_drain (e.hold at_ f.data f.pkt).fix_origin).next_le
      have hfirst : ((e.hold at_ f.data f.pkt).cell ks).isSome := by
        rw [cell_first hspec.sound hf (by have := hspec.sound.first_pos hf; omega)]
        exact carried_isSome.2 ⟨le_rfl, by have := hspec.sound.first_pos hf; omega⟩
      have := hheld ho hnear ks hfirst
      simp only [MAX_AHEAD] at this
      omega
  | stale hd ho hend =>
    exact hopen _ (by rw [below_started, hst]) (by rw [below_open, ho]) (by rwa [below_next])
  | beyond hd ho hfar =>
    exact hopen _ (by rw [refuse_started, below_started, hst])
      (by rw [refuse_open, below_open, ho]) (by rwa [refuse_next, below_next])
  | held hd ho hahead hnear =>
    have hframe := (hold_spec (he.below at_ f.data).sound at_ f.data f.pkt).frame
    have hle := (advance_relieve ((e.below at_ f.data).hold at_ f.data f.pkt)).next_le
    rw [hframe.next, below_next] at hle
    refine hopen _ ?_ ?_ (by omega)
    · rw [(advance_relieve _).started_eq, hframe.started, below_started, hst]
    · rw [(advance_relieve _).open_eq, hframe.open_, below_open, ho]
  | delivered hd ho hat hend =>
    have hle := (advance_drain
      ((e.below at_ f.data).append (f.data.drop (e.next - at_)) f.pkt)).next_le
    rw [append_next, below_next] at hle
    refine hopen _ ?_ ?_ (by omega)
    · rw [(advance_drain _).started_eq, append_started, below_started, hst]
    · rw [(advance_drain _).open_eq, append_open, below_open, ho]

/-- **Every reachable state is anchored.** -/
theorem anchored_run (fs : List (Arrival α)) : (run fs).Anchored :=
  run_induction (P := fun _ b => b.Anchored) anchored_init
    (fun fs f h => h.take (steered_run fs) f) fs

/-! ## Moving the line -/

/-- Taking an arrival anchors the direction first. -/
theorem take_anchor (b : Build α) (f : Arrival α) : (b.anchor f.seq).take f = b.take f := by
  unfold take feed
  rw [anchor_of_started (anchor_started b f.seq)]

/-- Two lines anchored at different sequence numbers are one line moved. -/
theorem anchor_shift (seq seq' : UInt32) :
    (({} : Build α).anchor seq).relabel seq'.toNat id =
      (({} : Build α).anchor seq').relabel seq.toNat id := by
  refine Build.ext ?_ ?_ ?_ ?_ ?_ ?_ ?_
  · simp
  · simp [relabel]
  · simp
  · simp [anchor]
    omega
  · simp [anchor]
    omega
  · simp
  · simp

/-- One arrival on each of two moved lines. -/
theorem take_shift {b b' : Build α} {m m' k : UInt32} (hk : m = m' + k) (f : Arrival α)
    (hb : b.started = true) (hb' : b'.started = true) (ha : b.Anchored) (ha' : b'.Anchored)
    (h : b.relabel m.toNat id = b'.relabel m'.toNat id) :
    (b.take f).relabel m.toNat id = (b'.take (f.relabel k id)).relabel m'.toNat id := by
  have hseq : f.relabel (UInt32.ofNat m.toNat) id =
      (f.relabel k id).relabel (UInt32.ofNat m'.toNat) id := by
    simp only [Arrival.relabel, UInt32.ofNat_toNat, List.map_id, hk]
    rw [add_assoc, add_comm k]
  have hpos := ha.nonneg f.seq
  have hpos' := ha'.nonneg (f.relabel k id).seq
  rw [anchor_of_started hb] at hpos
  rw [anchor_of_started hb'] at hpos'
  rw [← take_relabel _ _ hb hpos, ← take_relabel _ _ hb' hpos', hseq, h]

/-- Two runs whose sequence numbers differ by a constant are one run on two lines. -/
theorem run_shift (k : UInt32) (f : Arrival α) (rest : List (Arrival α)) :
    (run (f :: rest)).relabel (f.seq + k).toNat id =
      (run ((f :: rest).map (Arrival.relabel k id))).relabel f.seq.toNat id := by
  have hfirst : ∀ g : Arrival α, run [g] = (({} : Build α).anchor g.seq).take g :=
    fun g => (take_anchor {} g).symm
  have hstarted : ∀ (l : List (Arrival α)) (g : Arrival α), (run (l ++ [g])).started = true := by
    intro l g
    rw [run_append_singleton]
    exact take_started (steered_run l) g
  -- From the first arrival on, each is taken alike after the shift.
  induction rest using List.reverseRecOn with
  | nil =>
    rw [List.map_cons, List.map_nil, hfirst, hfirst]
    exact take_shift rfl f (anchor_started _ _) (anchor_started _ _)
      (anchored_init.anchor f.seq) (anchored_init.anchor _) (anchor_shift _ _)
  | append_singleton rest g ih =>
    have hne : ∀ l : List (Arrival α), l ≠ [] → (run l).started = true := by
      intro l hl
      rw [← List.dropLast_append_getLast hl]
      exact hstarted _ _
    rw [← List.cons_append, List.map_append, List.map_singleton, run_append_singleton,
      run_append_singleton]
    exact take_shift rfl g (hne _ (by simp)) (hne _ (by simp)) (anchored_run _)
      (anchored_run _) ih

/-- **Wrap transparency**: moving every sequence number by one constant changes nothing of what
is handed back, and no sequence number is ever read below zero. -/
theorem wrap_transparent (fs : List (Arrival α)) :
    (∀ k : UInt32, reassembled (fs.map (Arrival.relabel k id)) = reassembled fs) ∧
    ∀ pre f post, fs = pre ++ f :: post →
      0 ≤ (((run pre).anchor f.seq).next : ℤ) + ((run pre).anchor f.seq).distance f.seq := by
  refine ⟨fun k => ?_, fun pre f post _ => (anchored_run pre).nonneg f.seq⟩
  cases fs with
  | nil => rfl
  | cons f rest =>
    have hid : ∀ (m : ℕ) (b : Build α), (b.relabel m id).finish = b.finish := by
      intro m b
      unfold finish
      rw [finished_relabel, relabel_half]
      simp [Half.relabel]
    unfold reassembled
    rw [← hid (f.seq + k).toNat (run (f :: rest)), run_shift, hid]

/-! ## The upper end of the line -/

/-- Nothing on the line lies past `n`. -/
def Within (n : ℕ) (b : Build α) : Prop := b.next ≤ n ∧ ∀ p, (b.cell p).isSome → p < n

section Within

variable {n : ℕ} {b b' : Build α}

theorem Within.mono {m : ℕ} (h : Within n b) (hnm : n ≤ m) : Within m b :=
  ⟨h.1.trans hnm, fun p hp => (h.2 p hp).trans_le hnm⟩

/-- The last octet of the first held run is held. -/
theorem Within.first_stop (h : Within n b) (hb : b.Sound) {ks : ℕ} {hd : Held α}
    (hf : b.held.first = some (ks, hd)) : ks + hd.bytes.length ≤ n := by
  have hpos := hb.first_pos hf
  have hlast : (b.cell (ks + hd.bytes.length - 1)).isSome := by
    rw [cell_first hb hf (by omega)]
    exact carried_isSome.2 ⟨by omega, by omega⟩
  have := h.2 _ hlast
  omega

/-- Advancing moves the frontier no further than what is held. -/
theorem Within.advance (ha : Advance b b') (hb : b.Sound) (h : Within n b) : Within n b' := by
  induction ha with
  | refl b => exact h
  | @pop b b' ks hd hf hks rest ih =>
    refine ih (hb.take_front hf) ⟨?_, fun p hp => h.2 p ?_⟩
    · have := h.1
      have := h.first_stop hb hf
      rw [take_front_next _ _ hks]
      omega
    · rw [take_front_cell hb hf] at hp
      split at hp
      · exact hp
      · cases hp
  | @skip b b' ks hd hf rest ih =>
    refine ih (hb.skip_to ks) ⟨?_, fun p hp => h.2 p (by rwa [skip_to_cell] at hp)⟩
    have := h.1
    have := h.first_stop hb hf
    rw [skip_to_next]
    omega

/-- A segment that is held is within the window. -/
theorem Within.hold (h : Within n b) (hb : b.Sound) {at_ : ℕ} {data : List α} (pkt : ℕ)
    (hat : at_ ≤ n + MAX_AHEAD) :
    Within (n + MAX_AHEAD + data.length) (b.hold at_ data pkt) := by
  have hspec := hold_spec hb at_ data pkt
  refine ⟨?_, fun p hp => ?_⟩
  · have := h.1
    rw [hspec.frame.next]
    omega
  · rw [hspec.cell] at hp
    cases hc : b.cell p with
    | some c =>
      have := h.2 p (by rw [hc]; rfl)
      omega
    | none =>
      rw [hc, Option.none_or] at hp
      split at hp
      · have := carried_isSome.1 hp
        omega
      · cases hp

/-- One arrival moves the end of the line by what it may claim and what it carries. -/
theorem Within.take (hn : 2 ^ 34 ≤ n) (hb : b.Steered) (ha : b.Anchored) (h : Within n b)
    (f : Arrival α) : Within (n + MAX_AHEAD + f.data.length) (b.take f) := by
  have hfed := take_fed b f
  have he := hb.entered f
  -- Entering moves the frontier to the position read, which is near.
  have hwin : Within n (b.entered f) := by
    refine ⟨?_, fun p hp => h.2 p (by rwa [entered_cell] at hp)⟩
    by_cases ho : b.open_ = true
    · rw [(entered_of_open f ho (hb.started_of_open ho)).1]
      exact h.1
    · have ho' : b.open_ = false := by simpa using ho
      obtain ⟨-, hhi, -⟩ := (ha.anchor f.seq).window (anchor_started b f.seq)
        (by rw [anchor_open, ho'])
      by_cases hs : Has f.flags SYN
      · have hr := ha.reads_eq f
        have hd := distance_lt (b.anchor f.seq) f.seq
        rw [(entered_of_syn ho' hs).1]
        omega
      · rw [(entered_of_not_syn ho' hs).1]
        omega
  have hle : n ≤ n + MAX_AHEAD + f.data.length := by omega
  generalize b.take f = b' at hfed ⊢
  generalize b.entered f = e at *
  generalize b.landing f = at_ at *
  have hnext := hwin.1
  have hbelow : Within n (e.below at_ f.data) :=
    ⟨by rwa [below_next], fun p hp => hwin.2 p (by rwa [below_cell] at hp)⟩
  -- By the way the octets were fed: no way leads further than the window and the segment.
  cases hfed with
  | bare hd => exact hwin.mono hle
  | far hd ho hfar => exact Within.mono (n := n) hwin hle
  | waits hd ho hnear hfew =>
    unfold abs_diff at hnear
    exact hwin.hold he.sound _ (by omega)
  | opens hd ho hnear hfull =>
    unfold abs_diff at hnear
    have hheld : Within _ (e.hold at_ f.data f.pkt) := hwin.hold he.sound f.pkt (by omega)
    have hspec := hold_spec he.sound at_ f.data f.pkt
    obtain ⟨ks, hh, hf⟩ := first_of_hold he.sound at_ hd f.pkt
    obtain ⟨h1, -, h3, h4, -, -, -⟩ := fix_origin_spec hspec.sound hf
    refine Within.advance (advance_drain _) h1 ⟨?_, fun p hp => hheld.2 p ?_⟩
    · have := hheld.first_stop hspec.sound hf
      omega
    · unfold cell at hp ⊢
      rwa [h3] at hp
  | stale hd ho hend => exact hbelow.mono hle
  | beyond hd ho hfar => exact Within.mono (n := n) hbelow hle
  | held hd ho hahead hnear =>
    have hbs := he.below at_ f.data
    exact (hbelow.hold hbs.sound _ (by omega)).advance (advance_relieve _)
      (hbs.hold at_ f.data f.pkt).sound
  | delivered hd ho hat hend =>
    have hne : f.data.drop (e.next - at_) ≠ [] := by
      rw [← List.length_pos_iff, List.length_drop]
      omega
    refine Within.advance (advance_drain _) ((he.below at_ f.data).append hne f.pkt).sound ?_
    refine ⟨?_, fun p hp => (hbelow.2 p ?_).trans_le hle⟩
    · rw [append_next, below_next, List.length_drop]
      omega
    · unfold cell at hp ⊢
      rwa [held_append] at hp

end Within

/-- **The line never saturates**: nothing lies past four wraps, `MAX_AHEAD` for each arrival and
the octets fed. For as many arrivals of at most `2 ^ 16` octets as a `u32` counts, that is far
below `2 ^ 63`. -/
theorem within_run (fs : List (Arrival α)) :
    Within (2 ^ 34 + fs.length * MAX_AHEAD + fed_octets fs) (run fs) := by
  refine run_induction
    (P := fun fs b => Within (2 ^ 34 + fs.length * MAX_AHEAD + fed_octets fs) b) ?_ ?_ fs
  · exact ⟨Nat.zero_le _, nofun⟩
  · intro fs f h
    have := Within.take (by omega) (steered_run fs) (anchored_run fs) h f
    have hlen : fed_octets (fs ++ [f]) = fed_octets fs + f.data.length := by simp [fed_octets]
    rw [hlen, List.length_append, List.length_singleton, Nat.add_mul, Nat.one_mul]
    exact this.mono (by omega)

end Wiry.Stream.Build
