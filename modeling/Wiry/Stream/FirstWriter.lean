/-
First writer wins, where it does.

The reading the module promises is that the earliest segment to carry a
position, unless a bound refused it, owns the octet there. `hold` keeps to it:
it adds only what no held run has. `append` does not: a segment that reaches the
frontier is delivered whole, over octets that an earlier segment left waiting
past the frontier. So the promise holds of a run exactly when no segment that
reaches the frontier overlaps what is held (`ClearAtFrontier`), and both parts
of it fail together: which octet is delivered, and that the contents of a
retransmission do not matter.
-/
import Wiry.Stream.Wrap

set_option autoImplicit false

namespace Wiry.Stream

variable {α β : Type}

/-- What is left of an arrival once its octets are forgotten. -/
def Arrival.shape (f : Arrival α) : Arrival Unit := f.relabel 0 fun _ => ()

namespace Build

/-! ## The earliest writer of a position -/

/-- The octet and the packet of the earliest arrival that carries `p` and is not refused there. -/
def firstWriter (fs : List (Arrival α)) (p : ℕ) : Option (α × ℕ) :=
  trace (fun w b f => w.or (b.claims f p)) none fs

/-- `c` is what the earliest arrival to claim position `p` claims there. -/
def FirstWriter (fs : List (Arrival α)) (p : ℕ) (c : α × ℕ) : Prop :=
  ∃ pre f post, fs = pre ++ f :: post ∧ (run pre).claims f p = some c ∧
    ∀ pre' g post', pre = pre' ++ g :: post' → (run pre').claims g p = none

@[simp] theorem firstWriter_nil (p : ℕ) : firstWriter ([] : List (Arrival α)) p = none := rfl

theorem firstWriter_append_singleton (fs : List (Arrival α)) (f : Arrival α) (p : ℕ) :
    firstWriter (fs ++ [f]) p = (firstWriter fs p).or ((run fs).claims f p) :=
  trace_append_singleton _ _ fs f

/-- No arrival claims a position that has no first writer. -/
theorem firstWriter_eq_none {fs : List (Arrival α)} {p : ℕ} :
    firstWriter fs p = none ↔
      ∀ pre f post, fs = pre ++ f :: post → (run pre).claims f p = none := by
  induction fs using List.reverseRecOn with
  | nil => simp
  | append_singleton fs f ih =>
    rw [firstWriter_append_singleton, Option.or_eq_none_iff, ih]
    constructor
    · rintro ⟨hfs, hf⟩ pre g post heq
      rcases List.eq_nil_or_concat post with rfl | ⟨post, h, rfl⟩
      · obtain ⟨rfl, hg⟩ := List.append_inj' heq rfl
        rw [← List.cons.inj hg |>.1]
        exact hf
      · rw [List.concat_eq_append, ← List.cons_append, ← List.append_assoc] at heq
        obtain ⟨rfl, -⟩ := List.append_inj' heq rfl
        exact hfs pre g post rfl
    · intro h
      refine ⟨?_, h fs f [] rfl⟩
      rintro pre g post rfl
      exact h pre g (post ++ [f]) (by simp)

/-- The computed first writer is the one of the specification. -/
theorem firstWriter_eq_some {fs : List (Arrival α)} {p : ℕ} {c : α × ℕ} :
    firstWriter fs p = some c ↔ FirstWriter fs p c := by
  -- From the last arrival backwards: it writes first only where no earlier one wrote.
  induction fs using List.reverseRecOn with
  | nil =>
    constructor
    · intro h
      cases h
    · rintro ⟨pre, f, post, heq, -⟩
      simp at heq
  | append_singleton fs f ih =>
    rw [firstWriter_append_singleton]
    constructor
    · intro h
      cases hw : firstWriter fs p with
      | some d =>
        rw [hw, Option.some_or] at h
        obtain ⟨pre, g, post, rfl, hg, hearlier⟩ := ih.1 (by rw [hw, h])
        exact ⟨pre, g, post ++ [f], by simp, hg, hearlier⟩
      | none =>
        rw [hw, Option.none_or] at h
        exact ⟨fs, f, [], rfl, h, firstWriter_eq_none.1 hw⟩
    · rintro ⟨pre, g, post, heq, hg, hearlier⟩
      -- the first writer is the last arrival, or stands before it
      rcases List.eq_nil_or_concat post with rfl | ⟨post, h, rfl⟩
      · obtain ⟨rfl, hg'⟩ := List.append_inj' heq rfl
        rw [firstWriter_eq_none.2 hearlier, Option.none_or, List.cons.inj hg' |>.1, hg]
      · rw [List.concat_eq_append, ← List.cons_append, ← List.append_assoc] at heq
        obtain ⟨rfl, -⟩ := List.append_inj' heq rfl
        rw [ih.2 ⟨pre, g, post, rfl, hg, hearlier⟩, Option.some_or]

/-! ## What is held was written first -/

/-- What one exit leaves held ahead of its frontier: what was held, and what the arrival carries
if it is not too far. A segment that reaches the frontier carries nothing there. -/
theorem Fed.cell {e b : Build α} {at_ pkt : ℕ} {data : List α} (h : Fed e at_ data pkt b)
    (he : e.Steered) {p : ℕ} (hp : b.Ahead p) :
    e.Ahead p ∧ (e.open_ = true → at_ ≤ e.next → carried at_ data pkt p = none) ∧
      b.cell p = (e.cell p).or
        (if MAX_AHEAD < (if e.open_ then at_ - e.next else abs_diff at_ e.next) then none
          else carried at_ data pkt p) := by
  -- Before the stream is open nothing is behind the frontier.
  have hclosed : e.open_ = false → e.Ahead p ∧
      (e.open_ = true → at_ ≤ e.next → carried at_ data pkt p = none) := fun ho =>
    ⟨fun ho' => (by cases ho.symm.trans ho'), fun ho' => (by cases ho.symm.trans ho')⟩
  -- By the way the octets were fed: ahead of the frontier a cell is filled by holding and by
  -- nothing else.
  cases h with
  | bare hd =>
    have hnone : carried at_ data pkt p = none := by
      rw [carried_eq_none, hd, List.length_nil]
      omega
    exact ⟨hp, fun _ _ => hnone, by rw [hnone, ite_self, Option.or_none]⟩
  | far hd ho hfar =>
    refine ⟨(hclosed ho).1, (hclosed ho).2, ?_⟩
    rw [ho, if_neg Bool.false_ne_true, if_pos hfar, Option.or_none, refuse_cell]
  | waits hd ho hnear hfew =>
    refine ⟨(hclosed ho).1, (hclosed ho).2, ?_⟩
    rw [ho, if_neg Bool.false_ne_true, if_neg (by omega), (hold_spec he.sound _ _ _).cell]
    split
    · rfl
    · rw [carried_eq_none.2 (by omega)]
  -- The segment that opens the stream is held first, and draining leaves what is ahead.
  | opens hd ho hnear hfull =>
    refine ⟨(hclosed ho).1, (hclosed ho).2, ?_⟩
    have hspec := hold_spec he.sound at_ data pkt
    obtain ⟨ks, hh, hf⟩ := first_of_hold he.sound at_ hd pkt
    obtain ⟨h1, -, h3, -, -, h6, -⟩ := fix_origin_spec hspec.sound hf
    have hle := hp (by rw [(advance_drain _).open_eq, h6])
    have hfix : (e.hold at_ data pkt).fix_origin.cell p = (e.hold at_ data pkt).cell p := by
      unfold Build.cell
      rw [h3]
    rw [ho, if_neg Bool.false_ne_true, if_neg (by omega), (advance_drain _).cell_eq h1 hle,
      hfix, hspec.cell]
    split
    · rfl
    · rw [carried_eq_none.2 (by omega)]
  | stale hd ho hend =>
    have hle : e.next ≤ p := by
      have := hp (by rw [below_open, ho])
      rwa [below_next] at this
    have hnone : carried at_ data pkt p = none := carried_eq_none.2 (by omega)
    exact ⟨fun _ => hle, fun _ _ => hnone, by rw [hnone, ite_self, Option.or_none, below_cell]⟩
  | beyond hd ho hfar =>
    have hle : e.next ≤ p := by
      have := hp (by rw [refuse_open, below_open, ho])
      rwa [refuse_next, below_next] at this
    refine ⟨fun _ => hle, fun _ _ => by omega, ?_⟩
    rw [if_pos ho, if_pos hfar, Option.or_none, refuse_cell, below_cell]
  | held hd ho hahead hnear =>
    have hbs := he.below at_ data
    have hspec := hold_spec hbs.sound at_ data pkt
    have hle := hp (by rw [(advance_relieve _).open_eq, hspec.frame.open_, below_open, ho])
    have hmono := (advance_relieve ((e.below at_ data).hold at_ data pkt)).next_le
    rw [hspec.frame.next, below_next] at hmono
    refine ⟨fun _ => by omega, fun _ _ => by omega, ?_⟩
    rw [if_pos ho, if_neg (by omega), (advance_relieve _).cell_eq hspec.sound hle, hspec.cell,
      below_cell]
    split
    · rfl
    · rw [carried_eq_none.2 (by omega)]
  -- Octets delivered in order lie behind the new frontier.
  | delivered hd ho hat hend =>
    have hbs := he.below at_ data
    have hne : data.drop (e.next - at_) ≠ [] := by
      rw [← List.length_pos_iff, List.length_drop]
      omega
    have hle := hp (by rw [(advance_drain _).open_eq, append_open, below_open, ho])
    have hmono := (advance_drain
      ((e.below at_ data).append (data.drop (e.next - at_)) pkt)).next_le
    rw [append_next, below_next, List.length_drop] at hmono
    have hnone : carried at_ data pkt p = none := carried_eq_none.2 (by omega)
    refine ⟨fun _ => by omega, fun _ _ => hnone, ?_⟩
    rw [hnone, ite_self, Option.or_none,
      (advance_drain _).cell_eq (hbs.append hne pkt).sound hle]
    unfold Build.cell
    rw [held_append, below_held]

theorem claims_of_tooFar {b : Build α} {f : Arrival α} (h : b.TooFar f) (p : ℕ) :
    b.claims f p = none := if_pos (Or.inl h)

/-- Ahead of the frontier, an arrival adds what it claims to what is held. -/
theorem cell_take {b : Build α} (hb : b.Steered) (f : Arrival α) {p : ℕ}
    (hp : (b.take f).Ahead p) :
    b.Ahead p ∧ (b.take f).cell p = (b.cell p).or (b.claims f p) := by
  have he := hb.entered f
  -- An octet ahead now was ahead before, and the feed keeps it if it keeps the segment's.
  obtain ⟨hahead, hreach, hcell⟩ := (take_fed b f).cell he hp
  refine ⟨?_, ?_⟩
  · intro ho
    obtain ⟨hn, -, hoe⟩ := entered_of_open f ho (hb.started_of_open ho)
    have := hahead hoe
    omega
  · rw [hcell, entered_cell]
    congr 1
    change (if b.TooFar f then none else b.carries f p) = b.claims f p
    unfold claims
    by_cases hfar : b.TooFar f
    · rw [if_pos hfar]
      exact (claims_of_tooFar hfar p).symm
    · rw [if_neg hfar]
      by_cases href : b.Refused f p
      · rw [if_pos href]
        -- refused: too far, below the origin, or behind what is expected
        rcases href with h | ⟨ho, hlt⟩ | ⟨ho, hle, -⟩
        · exact absurd h hfar
        · have := he.origin_le ho
          have := hahead ho
          omega
        · exact hreach ho hle
      · rw [if_neg href]

/-- **Past the frontier the held octets are the first writers'.** -/
theorem firstWriter_ahead (fs : List (Arrival α)) :
    ∀ p, (run fs).Ahead p → firstWriter fs p = (run fs).cell p := by
  refine run_induction
    (P := fun fs b => ∀ p, b.Ahead p → firstWriter fs p = b.cell p) (fun _ _ => rfl) ?_ fs
  intro fs f ih p hp
  obtain ⟨hahead, hcell⟩ := cell_take (steered_run fs) f hp
  rw [firstWriter_append_singleton, hcell, ih p hahead]

/-! ## Runs without overlap at the frontier -/

/-- No arrival that reaches the frontier of an open direction carries, past the frontier and
within the room `MAX_STREAM` leaves, a position at which an octet is already held. -/
def ClearAtFrontier (fs : List (Arrival α)) : Prop :=
  ∀ pre f post, fs = pre ++ f :: post → ∀ p, (run pre).Appends f p →
    ((run pre).carries f p).isSome → (run pre).cell p = none

/-- Where an arrival is delivered straight from its payload, nothing refuses it. -/
theorem claims_of_appends {b : Build α} (hb : b.Steered) {f : Arrival α} {p : ℕ}
    (h : b.Appends f p) : b.claims f p = b.carries f p ∧ b.Ahead p := by
  obtain ⟨ho, hat, hle, hlt⟩ := h
  have horigin := (hb.entered f).origin_le ho
  refine ⟨if_neg ?_, ?_⟩
  · simp only [Refused, TooFar, BelowOrigin, PastRoom, ho, if_true, true_and]
    omega
  · intro ho'
    obtain ⟨hn, -, -⟩ := entered_of_open f ho' (hb.started_of_open ho')
    omega

/-- Where every step is clear at the frontier, the admitted octets are the first writer's. -/
theorem admits_firstWriter {fs : List (Arrival α)} (hclear : ClearAtFrontier fs)
    (pre : List (Arrival α)) (f : Arrival α) (post : List (Arrival α))
    (hfs : fs = pre ++ f :: post) :
    Admits (FirstWriter pre) (FirstWriter (pre ++ [f])) (run pre) f := by
  have hb := steered_run pre
  -- A position ahead of the frontier where nothing is held has no writer yet.
  have hfree : ∀ p c, (run pre).claims f p = some c → (run pre).Ahead p →
      (run pre).cell p = none → FirstWriter (pre ++ [f]) p c := by
    intro p c hc hahead hcell
    rw [← firstWriter_eq_some, firstWriter_append_singleton, firstWriter_ahead pre p hahead,
      hcell, Option.none_or, hc]
  refine ⟨?_, ?_, ?_⟩
  · intro p c hc
    rw [← firstWriter_eq_some] at hc ⊢
    rw [firstWriter_append_singleton, hc, Option.some_or]
  · intro p c hc hahead hcell
    refine hfree p c hc ?_ hcell
    intro ho
    obtain ⟨hn, -, hoe⟩ := entered_of_open f ho (hb.started_of_open ho)
    have := hahead hoe
    omega
  · intro p c hc happ
    obtain ⟨hcarry, hahead⟩ := claims_of_appends hb happ
    refine hfree p c hc hahead (hclear pre f post hfs p happ ?_)
    rw [← hcarry, hc]
    rfl

/-- Every octet delivered is the first writer's at its position, and the segments name that
writer's packet for it. -/
def FirstWriterWins (fs : List (Arrival α)) : Prop :=
  ∀ s, final_start fs = some s → ∀ o x, (reassembled fs).data[o]? = some x →
    ∃ k, (reassembled fs).packet_at o = some k ∧
      FirstWriter fs (s + o + (reassembled fs).missing o) (x, k)

theorem packet_at_of_tiles {h : Half α} (ht : Half.Tiles 0 h.segs h.data.length) {o : ℕ} {x : α}
    (hx : h.data[o]? = some x) :
    ∃ k, h.packet_at o = some k ∧ h.octets[o]? = some (x, k) := by
  have ho : o < h.data.length := (List.getElem?_eq_some_iff.1 hx).1
  obtain ⟨pre, seg, post, hsegs, hat, hlo, hhi⟩ := Half.seg_at_of_tiles ht ho
  have hpkt := Half.pkts_getElem_of_tiles ht hsegs hlo hhi
  refine ⟨seg.pkt, by rw [Half.packet_at, hat]; rfl, ?_⟩
  rw [Half.octets, List.getElem?_zip_eq_some]
  exact ⟨hx, hpkt⟩

/-- Without overlap at the frontier, first writer wins. -/
theorem ClearAtFrontier.wins {fs : List (Arrival α)} (h : ClearAtFrontier fs) :
    FirstWriterWins fs := by
  intro s hs o x hx
  rcases (standing_run fs (admits_firstWriter h)).finished with ⟨-, -, hc⟩ | ⟨-, s', hs', hl⟩
  · have hnil : (reassembled fs).data = [] := hc.data
    rw [hnil] at hx
    cases hx
  · have hstart : final_start fs = some s' := hs'
    obtain rfl : s = s' := by simpa [hs] using hstart
    obtain ⟨k, hk, hoct⟩ := packet_at_of_tiles hl.sound.tiles hx
    exact ⟨k, hk, hl.delivered o _ hoct⟩

/-! ## Runs of one shape -/

section Shape

variable (g : α → β)

theorem anchor_map (b : Build α) (seq : UInt32) (h : b.Anchored) :
    (b.relabel 0 g).anchor seq = (b.anchor seq).relabel 0 g := by
  by_cases hst : b.started = true
  · rw [anchor_of_started hst, anchor_of_started (by rw [relabel_started, hst])]
  · have hfresh := h.fresh (by simpa using hst)
    subst hfresh
    refine Build.ext ?_ ?_ ?_ ?_ ?_ ?_ ?_ <;> simp [anchor, relabel, Half.relabel]

theorem map_arrival (f : Arrival α) : (f.relabel 0 g).seq = f.seq ∧
    (f.relabel 0 g).flags = f.flags ∧ (f.relabel 0 g).data = f.data.map g ∧
    (f.relabel 0 g).pkt = f.pkt :=
  ⟨UInt32.add_zero _, rfl, rfl, rfl⟩

/-- What an arrival reads and where it lands depends on no octet. -/
theorem entered_map {b : Build α} (h : b.Anchored) (f : Arrival α) :
    (b.relabel 0 g).entered (f.relabel 0 g) = (b.entered f).relabel 0 g ∧
      (b.relabel 0 g).landing (f.relabel 0 g) = b.landing f := by
  have hreads : (b.relabel 0 g).reads (f.relabel 0 g) = b.reads f := by
    have := absolute_relabel 0 g (h.nonneg f.seq)
    unfold reads
    rw [(map_arrival g f).1, anchor_map g b f.seq h]
    simpa using this
  refine ⟨?_, by unfold landing; rw [hreads]; rfl⟩
  unfold entered
  rw [hreads, (map_arrival g f).1, anchor_map g b f.seq h]
  exact see_control_relabel 0 g _ _ _

/-- So does a whole step. -/
theorem take_map {b : Build α} (h : b.Anchored) (f : Arrival α) :
    (b.relabel 0 g).take (f.relabel 0 g) = (b.take f).relabel 0 g := by
  rw [← take_anchor (b.relabel 0 g), ← take_anchor b, (map_arrival g f).1,
    anchor_map g b f.seq h]
  exact take_relabel 0 g (anchor_started b f.seq) (h.nonneg f.seq)

/-- **A run commutes with a map of the octets.** -/
theorem run_map (fs : List (Arrival α)) :
    run (fs.map (Arrival.relabel 0 g)) = (run fs).relabel 0 g := by
  induction fs using List.reverseRecOn with
  | nil => exact Build.ext (by simp [Half.relabel]) (by simp [relabel]) rfl rfl rfl rfl rfl
  | append_singleton fs f ih =>
    rw [List.map_append, List.map_singleton, run_append_singleton, run_append_singleton, ih,
      take_map g (anchored_run fs)]

theorem reassembled_map (fs : List (Arrival α)) :
    reassembled (fs.map (Arrival.relabel 0 g)) = (reassembled fs).relabel g := by
  unfold reassembled finish
  rw [run_map, finished_relabel, relabel_half]

theorem carried_map (at_ : ℕ) (data : List α) (pkt p : ℕ) :
    carried at_ (data.map g) pkt p = (carried at_ data pkt p).map fun c => (g c.1, c.2) := by
  rw [carried_eq, carried_eq]
  split
  · simp [Function.comp_def]
  · rfl

/-- Relabelling the octets relabels the cells. -/
theorem cell_map (b : Build α) (p : ℕ) :
    (b.relabel 0 g).cell p = (b.cell p).map fun c => (g c.1, c.2) := by
  have hentry : ∀ x : ℕ × Held α,
      SortedMap.cellAt Held.cells (x.1 + 0, x.2.relabel g) p =
        (SortedMap.cellAt Held.cells x p).map fun c => (g c.1, c.2) :=
    fun x => carried_map g x.1 x.2.bytes x.2.pkt p
  unfold cell SortedMap.lookup relabel
  simp only [SortedMap.entries_map]
  induction b.held.entries with
  | nil => rfl
  | cons x rest ih =>
    rw [List.map_cons, List.findSome?_cons, List.findSome?_cons, hentry x, ih]
    cases SortedMap.cellAt Held.cells x p <;> rfl

theorem carries_map {b : Build α} (h : b.Anchored) (f : Arrival α) (p : ℕ) :
    (b.relabel 0 g).carries (f.relabel 0 g) p =
      (b.carries f p).map fun c => (g c.1, c.2) := by
  unfold carries
  rw [(entered_map g h f).2]
  exact carried_map g _ _ _ _

/-- Whether it is delivered is not. -/
theorem appends_map {b : Build α} (h : b.Anchored) (f : Arrival α) (p : ℕ) :
    (b.relabel 0 g).Appends (f.relabel 0 g) p ↔ b.Appends f p := by
  unfold Appends room
  rw [(entered_map g h f).1, (entered_map g h f).2, relabel_open, relabel_next, relabel_half,
    length_data_relabel, Nat.add_zero]

/-- And the claims. -/
theorem claims_map {b : Build α} (h : b.Anchored) (f : Arrival α) (p : ℕ) :
    (b.relabel 0 g).claims (f.relabel 0 g) p =
      (b.claims f p).map fun c => (g c.1, c.2) := by
  have href : (b.relabel 0 g).Refused (f.relabel 0 g) p ↔ b.Refused f p := by
    unfold Refused TooFar BelowOrigin PastRoom room
    rw [(entered_map g h f).1, (entered_map g h f).2, relabel_open, relabel_next, relabel_origin,
      relabel_half, length_data_relabel, Nat.add_zero, Nat.add_zero]
  unfold claims
  simp only [href]
  split
  · rfl
  · exact carries_map g h f p

end Shape

theorem map_shape_append {fs pre : List (Arrival α)} {f : Arrival α} {post : List (Arrival α)}
    {gs : List (Arrival β)} (hfs : fs = pre ++ f :: post)
    (h : fs.map Arrival.shape = gs.map Arrival.shape) :
    ∃ pre' f' post', gs = pre' ++ f' :: post' ∧ pre.map Arrival.shape = pre'.map Arrival.shape ∧
      f.shape = f'.shape := by
  subst hfs
  rw [List.map_append, List.map_cons] at h
  obtain ⟨pre', rest, rfl, hpre, hrest⟩ := List.map_eq_append_iff.1 h.symm
  obtain ⟨f', post', rfl, hf, -⟩ := List.map_eq_cons_iff.1 hrest
  exact ⟨pre', f', post', rfl, hpre.symm, hf.symm⟩

section SameShape

variable {pre : List (Arrival α)} {pre' : List (Arrival β)}

/-- Two runs of one shape are in states of one shape. -/
theorem run_shape (h : pre.map Arrival.shape = pre'.map Arrival.shape) :
    (run pre).relabel 0 (fun _ => ()) = (run pre').relabel 0 fun _ => () := by
  rw [← run_map, ← run_map]
  exact congrArg run h

variable {f : Arrival α} {f' : Arrival β} (h : pre.map Arrival.shape = pre'.map Arrival.shape)
  (hf : f.shape = f'.shape)

include h in
theorem cell_isNone_shape (p : ℕ) : (run pre).cell p = none ↔ (run pre').cell p = none := by
  have heq := cell_map (fun _ => ()) (run pre) p
  rw [run_shape h, cell_map] at heq
  rw [← Option.map_eq_none_iff, ← heq, Option.map_eq_none_iff]

include h hf in
theorem carries_isSome_shape (p : ℕ) :
    ((run pre).carries f p).isSome = ((run pre').carries f' p).isSome := by
  have heq := carries_map (fun _ => ()) (anchored_run pre) f p
  rw [run_shape h] at heq
  have heq' := carries_map (fun _ => ()) (anchored_run pre') f' p
  unfold Arrival.shape at hf
  rw [hf, heq'] at heq
  simpa using (congrArg Option.isSome heq).symm

include h hf in
/-- They claim the same positions. -/
theorem claims_isSome_shape (p : ℕ) :
    ((run pre).claims f p).isSome = ((run pre').claims f' p).isSome := by
  have heq := claims_map (fun _ => ()) (anchored_run pre) f p
  rw [run_shape h] at heq
  have heq' := claims_map (fun _ => ()) (anchored_run pre') f' p
  unfold Arrival.shape at hf
  rw [hf, heq'] at heq
  simpa using (congrArg Option.isSome heq).symm

include h hf in
/-- And deliver the same ones. -/
theorem appends_shape (p : ℕ) : (run pre).Appends f p ↔ (run pre').Appends f' p := by
  rw [← appends_map (fun _ => ()) (anchored_run pre), ← appends_map (fun _ => ()) (anchored_run pre'),
    run_shape h]
  unfold Arrival.shape at hf
  rw [hf]

include h hf in
/-- Their segments land alike. -/
theorem landing_shape : (run pre).landing f = (run pre').landing f' := by
  rw [← (entered_map (fun _ => ()) (anchored_run pre) f).2,
    ← (entered_map (fun _ => ()) (anchored_run pre') f').2, run_shape h]
  unfold Arrival.shape at hf
  rw [hf]

end SameShape

/-- Whether the frontier is clear depends on no octet. -/
theorem ClearAtFrontier.shape {fs gs : List (Arrival α)} (hclear : ClearAtFrontier fs)
    (h : fs.map Arrival.shape = gs.map Arrival.shape) : ClearAtFrontier gs := by
  intro pre f post hgs p happ hcarry
  obtain ⟨pre', f', post', hfs, hpre, hf⟩ := map_shape_append hgs h.symm
  rw [cell_isNone_shape hpre]
  refine hclear pre' f' post' hfs p ((appends_shape hpre hf p).1 happ) ?_
  rwa [← carries_isSome_shape hpre hf]

/-- Where a direction opens depends on no octet. -/
theorem opening_map (g : α → β) {b : Build α} (h : b.Anchored) (f : Arrival α) :
    (b.relabel 0 g).opening (f.relabel 0 g) = b.opening f := by
  obtain ⟨hentered, hlanding⟩ := entered_map g h f
  have hhold : ((b.entered f).relabel 0 g).hold (b.landing f) (f.data.map g) f.pkt =
      ((b.entered f).hold (b.landing f) f.data f.pkt).relabel 0 g :=
    hold_relabel 0 g (b.entered f) (b.landing f) f.data f.pkt
  unfold opening
  rw [take_map g h, hentered, hlanding, (map_arrival g f).2.1, (map_arrival g f).2.2.1,
    (map_arrival g f).2.2.2, hhold, relabel_first, relabel_open, relabel_open, relabel_next,
    Nat.add_zero, Option.map_map]
  rfl

/-- Where the stream starts does not depend on its octets. -/
theorem final_start_map (g : α → β) (fs : List (Arrival α)) :
    final_start (fs.map (Arrival.relabel 0 g)) = final_start fs := by
  have hstart : start (fs.map (Arrival.relabel 0 g)) = start fs := by
    induction fs using List.reverseRecOn with
    | nil => rfl
    | append_singleton fs f ih =>
      have htrace : ∀ {γ : Type} (l : List (Arrival γ)) (a : Arrival γ),
          start (l ++ [a]) = (start l).or ((run l).opening a) :=
        fun l a => trace_append_singleton _ _ l a
      rw [List.map_append, List.map_singleton, htrace, htrace, ih, run_map,
        opening_map g (anchored_run fs)]
  unfold final_start
  rw [hstart, run_map, relabel_first, Option.map_map]
  rfl

theorem final_start_shape {fs gs : List (Arrival α)}
    (h : fs.map Arrival.shape = gs.map Arrival.shape) : final_start fs = final_start gs := by
  rw [← final_start_map (fun _ => ()) fs, ← final_start_map (fun _ => ()) gs]
  exact congrArg final_start h

/-- Runs of one shape hand back halves of one shape. -/
theorem reassembled_shape {fs gs : List (Arrival α)}
    (h : fs.map Arrival.shape = gs.map Arrival.shape) :
    (reassembled fs).relabel (fun _ => ()) = (reassembled gs).relabel fun _ => () := by
  rw [← reassembled_map, ← reassembled_map]
  exact congrArg reassembled h

/-! ## Retransmissions -/

/-- Two feeds differ only in what later overlapping retransmissions contain: their segments are
the same but for octets at positions that an earlier arrival claimed. -/
structure DifferInRetransmissions (fs gs : List (Arrival α)) : Prop where
  shape : fs.map Arrival.shape = gs.map Arrival.shape
  octets : ∀ i f g, fs[i]? = some f → gs[i]? = some g → ∀ p,
    (run (fs.take i)).carries f p = (run (gs.take i)).carries g p ∨
      ∃ c, FirstWriter (fs.take i) p c

/-- What later overlapping retransmissions contain does not change what is delivered. -/
def RetransmissionsIgnored (fs : List (Arrival α)) : Prop :=
  ∀ gs, DifferInRetransmissions fs gs → (reassembled gs).data = (reassembled fs).data

/-- What is claimed is carried. -/
theorem carries_of_claims {b : Build α} {f : Arrival α} {p : ℕ} {c : α × ℕ}
    (h : b.claims f p = some c) : b.carries f p = some c := by
  unfold claims at h
  split at h
  · cases h
  · exact h

/-- The first writers of two feeds that differ in retransmissions write the same octet. -/
theorem FirstWriter.octet_eq {fs gs : List (Arrival α)} (h : DifferInRetransmissions fs gs)
    {p : ℕ} {x y : α} {k k' : ℕ} (hfs : FirstWriter fs p (x, k))
    (hgs : FirstWriter gs p (y, k')) : x = y := by
  obtain ⟨pre, f, post, hsplit, hclaims, hearlier⟩ := hfs
  obtain ⟨pre', f', post', hsplit', hpre, hf⟩ := map_shape_append hsplit h.shape
  have hlen : pre.length = pre'.length := by simpa using congrArg List.length hpre
  obtain ⟨c, hc⟩ := Option.isSome_iff_exists.1
    (show ((run pre').claims f' p).isSome by rw [← claims_isSome_shape hpre hf, hclaims]; rfl)
  -- The corresponding arrival is the first writer of the other feed.
  have hfirst : FirstWriter gs p c := by
    refine ⟨pre', f', post', hsplit', hc, fun a g c' ha => ?_⟩
    obtain ⟨a', g', c'', ha', hshape, hg⟩ := map_shape_append ha hpre.symm
    rw [← Option.not_isSome_iff_eq_none, claims_isSome_shape hshape hg,
      hearlier a' g' c'' ha']
    simp
  obtain rfl : c = (y, k') := by
    rw [← firstWriter_eq_some] at hfirst hgs
    exact Option.some.inj (hfirst.symm.trans hgs)
  have htake : fs.take pre.length = pre := by rw [hsplit, List.take_left]
  have htake' : gs.take pre.length = pre' := by rw [hsplit', hlen, List.take_left]
  rcases h.octets pre.length f f' (by simp [hsplit]) (by simp [hsplit', hlen]) p with heq | hw
  · rw [htake, htake', carries_of_claims hclaims, carries_of_claims hc] at heq
    exact (Prod.mk.inj (Option.some.inj heq)).1
  · obtain ⟨c, hw⟩ := hw
    rw [htake, ← firstWriter_eq_some, firstWriter_eq_none.2 hearlier] at hw
    cases hw

/-- Without overlap at the frontier, what a retransmission contains does not matter. -/
theorem ClearAtFrontier.ignores {fs : List (Arrival α)} (hclear : ClearAtFrontier fs) :
    RetransmissionsIgnored fs := by
  -- The other run has the shape of this one, so lengths and gaps are the same.
  intro gs h
  have hshape := reassembled_shape h.shape
  have hlen : (reassembled gs).data.length = (reassembled fs).data.length := by
    have := congrArg (fun x : Half Unit => x.data.length) hshape
    simpa using this.symm
  have hgaps : (reassembled gs).gaps = (reassembled fs).gaps :=
    (congrArg (fun x : Half Unit => x.gaps) hshape).symm
  -- Octet by octet: each is its first writer's, and that is no retransmission.
  refine List.ext_getElem? fun o => ?_
  cases hx : (reassembled fs).data[o]? with
  | none =>
    rw [List.getElem?_eq_none_iff] at hx ⊢
    omega
  | some x =>
    have ho := (List.getElem?_eq_some_iff.1 hx).1
    have hsome : (reassembled gs).data[o]? ≠ none := by
      rw [Ne, List.getElem?_eq_none_iff]
      omega
    obtain ⟨y, hy⟩ := Option.ne_none_iff_exists'.1 hsome
    rw [hy]
    rcases (run_accounted fs).2 with ⟨s, hs, -⟩ | ⟨-, hnil, -⟩
    · obtain ⟨k, -, hwx⟩ := hclear.wins s hs o x hx
      obtain ⟨k', -, hwy⟩ := (hclear.shape h.shape).wins s
        (by rw [← final_start_shape h.shape, hs]) o y hy
      have hmiss : (reassembled gs).missing o = (reassembled fs).missing o := by
        unfold Half.missing
        rw [hgaps]
      rw [hmiss] at hwy
      rw [hwx.octet_eq h hwy]
    · rw [hnil] at ho
      simp at ho

/-! ## What is delivered stays delivered -/

theorem Advance.data_grows {b b' : Build α} (h : Advance b b') :
    b.half.data <+: b'.half.data := by
  induction h with
  | refl b => exact List.prefix_rfl
  | pop hf _ _ ih =>
    rw [take_front_data] at ih
    exact (List.prefix_append _ _).trans ih
  | skip _ _ ih => simpa using ih

/-- Each arrival only adds to what was delivered. -/
theorem take_data_grows {b : Build α} (hb : b.Steered) (f : Arrival α) :
    b.half.data <+: (b.take f).half.data := by
  have hfed := take_fed b f
  have he := hb.entered f
  have hdata : (b.entered f).half.data = b.half.data := entered_data b f
  rw [← hdata]
  -- Each way of feeding leaves the data or appends to it.
  generalize b.take f = b' at hfed ⊢
  generalize b.entered f = e at *
  cases hfed with
  | bare hd => exact List.prefix_rfl
  | far hd ho hfar => exact List.prefix_rfl
  | waits hd ho hnear hfew => rw [(hold_spec he.sound _ _ _).frame.half]
  | opens hd ho hnear hfull =>
    have hspec := hold_spec he.sound (b.landing f) f.data f.pkt
    obtain ⟨ks, hh, hf⟩ := first_of_hold he.sound (b.landing f) hd f.pkt
    have := (advance_drain (e.hold (b.landing f) f.data f.pkt).fix_origin).data_grows
    rwa [(fix_origin_spec hspec.sound hf).2.1, hspec.frame.half] at this
  | stale hd ho hend => rw [below_data]
  | beyond hd ho hfar => rw [refuse_data, below_data]
  | held hd ho hahead hnear =>
    have := (advance_relieve
      ((e.below (b.landing f) f.data).hold (b.landing f) f.data f.pkt)).data_grows
    rwa [(hold_spec (he.sound.below _ _) _ _ _).frame.half, below_data] at this
  | delivered hd ho hat hend =>
    have := (advance_drain ((e.below (b.landing f) f.data).append
      (f.data.drop (e.next - b.landing f)) f.pkt)).data_grows
    rw [append_data, below_data] at this
    exact (List.prefix_append _ _).trans this

/-- So does a longer run. -/
theorem run_data_grows (pre post : List (Arrival α)) :
    (run pre).half.data <+: (run (pre ++ post)).half.data := by
  induction post using List.reverseRecOn with
  | nil => rw [List.append_nil]
  | append_singleton post f ih =>
    rw [← List.append_assoc, run_append_singleton]
    exact ih.trans (take_data_grows (steered_run _) f)

/-- And so does finishing. -/
theorem finished_data_grows {b : Build α} (hb : b.Sound) :
    b.half.data <+: b.finished.half.data := by
  unfold finished
  split
  · exact (advance_flush b).data_grows
  · have := (advance_flush b.fix_origin).data_grows
    cases hf : b.held.first with
    | none => rwa [fix_origin_of_none hf] at this ⊢
    | some x => rwa [(fix_origin_spec hb hf).2.1] at this

/-- Where an arrival is delivered straight from its payload, its octet is what is handed back. -/
theorem delivered_of_appends (pre : List (Arrival α)) (f : Arrival α) (post : List (Arrival α))
    {p : ℕ} {c : α × ℕ} (happ : (run pre).Appends f p) (hc : (run pre).carries f p = some c) :
    (reassembled (pre ++ f :: post)).data[(run pre).half.data.length +
      (p - ((run pre).entered f).next)]? = some c.1 := by
  -- What the step has appended is still there when the stream is finished.
  have hprefix : ((run pre).take f).half.data <+: (reassembled (pre ++ f :: post)).data := by
    have h1 := run_data_grows (pre ++ [f]) post
    rw [run_append_singleton, List.append_assoc] at h1
    exact h1.trans (finished_data_grows (steered_run _).sound)
  have hb := steered_run pre
  have he := hb.entered f
  obtain ⟨ho, hat, hle, hlt⟩ := happ
  have hp := carries_isSome.1 (by rw [hc]; rfl)
  have hfed := take_fed (run pre) f
  unfold carries at hc
  rw [← entered_data (run pre) f]
  generalize (run pre).take f = b' at hfed hprefix
  generalize (run pre).entered f = e at *
  generalize (run pre).landing f = at_ at *
  -- The segment starts at the frontier or below it, so no other way of feeding is left.
  cases hfed with
  | bare hd => rw [hd, List.length_nil] at hp; omega
  | far hd ho' => rw [ho] at ho'; cases ho'
  | waits hd ho' => rw [ho] at ho'; cases ho'
  | opens hd ho' => rw [ho] at ho'; cases ho'
  | stale hd _ hend => omega
  | beyond hd _ hfar => omega
  | held hd _ hahead => omega
  -- Delivered: the octet is cut out of the segment behind the frontier and within the room.
  | delivered hd _ _ hend =>
    have hadv := (advance_drain
      ((e.below at_ f.data).append (f.data.drop (e.next - at_)) f.pkt)).data_grows
    have hall := hadv.trans hprefix
    rw [append_data, below_data, below_room] at hall
    obtain ⟨rest, hrest⟩ := hall
    rw [carried_eq, if_pos hp.1] at hc
    have hoctet : f.data[p - at_]? = some c.1 := by
      cases hx : f.data[p - at_]? with
      | none => rw [hx] at hc; cases hc
      | some x =>
        rw [hx] at hc
        rw [← Option.some.inj hc]
    have hget : ((f.data.drop (e.next - at_)).take e.room)[p - e.next]? = some c.1 := by
      rw [List.getElem?_take, if_pos (by omega), List.getElem?_drop,
        show e.next - at_ + (p - e.next) = p - at_ by omega, hoctet]
    rw [← hrest, List.append_assoc, List.getElem?_append_right (by omega),
      Nat.add_sub_cancel_left, List.getElem?_append_left (List.getElem?_eq_some_iff.1 hget).1,
      hget]

/-- The arrival with the octet at an index replaced. -/
def rewritten (f : Arrival α) (j : ℕ) (y : α) : Arrival α := { f with data := f.data.set j y }

theorem shape_rewritten (f : Arrival α) (j : ℕ) (y : α) : (rewritten f j y).shape = f.shape := by
  simp [rewritten, Arrival.shape, Arrival.relabel, List.map_const']

/-- Replacing an octet changes what is carried at its position only. -/
theorem carries_rewritten (b : Build α) (f : Arrival α) {p : ℕ} (y : α)
    (hp : (b.carries f p).isSome) (q : ℕ) :
    b.carries (rewritten f (p - b.landing f) y) q =
      if q = p then some (y, f.pkt) else b.carries f q := by
  have hp' := carries_isSome.1 hp
  have hland : b.landing (rewritten f (p - b.landing f) y) = b.landing f := rfl
  unfold carries
  rw [hland, carried_eq, carried_eq]
  by_cases hle : b.landing f ≤ q
  · rw [if_pos hle, if_pos hle]
    simp only [rewritten]
    by_cases hq : q = p
    · subst hq
      rw [if_pos rfl, List.getElem?_set_self (by omega)]
      rfl
    · rw [if_neg hq, List.getElem?_set_ne (by omega)]
  · rw [if_neg hle, if_neg hle, if_neg (by omega)]

/-- If what a retransmission contains never matters, no segment that reaches the frontier
overlaps what is held: changing its octet there would change what is delivered. -/
theorem RetransmissionsIgnored.clear [Nontrivial α] {fs : List (Arrival α)}
    (h : RetransmissionsIgnored fs) : ClearAtFrontier fs := by
  intro pre f post hfs p happ hcarry
  by_contra hcell
  obtain ⟨c, hc⟩ := Option.isSome_iff_exists.1 hcarry
  obtain ⟨d, hd⟩ := Option.ne_none_iff_exists'.1 hcell
  obtain ⟨y, hy⟩ := exists_ne c.1
  -- The same feed with another octet at `p`, which an earlier arrival wrote first.
  have hfirst : FirstWriter pre p d := by
    rw [← firstWriter_eq_some, firstWriter_ahead pre p (claims_of_appends (steered_run pre) happ).2,
      hd]
  generalize hf' : rewritten f (p - (run pre).landing f) y = f'
  have hshape : f.shape = f'.shape := by rw [← hf', shape_rewritten]
  have hcarry' : ∀ q, (run pre).carries f' q =
      if q = p then some (y, f.pkt) else (run pre).carries f q := by
    rw [← hf']
    exact carries_rewritten (run pre) f y hcarry
  have hdiff : DifferInRetransmissions fs (pre ++ f' :: post) := by
    have hmap : fs.map Arrival.shape = (pre ++ f' :: post).map Arrival.shape := by
      rw [hfs, List.map_append, List.map_append, List.map_cons, List.map_cons, hshape]
    refine ⟨hmap, ?_⟩
    intro i g g' hg hg' q
    rcases Nat.lt_trichotomy i pre.length with hi | rfl | hi
    · -- Before the arrival the two feeds are one.
      rw [hfs, List.getElem?_append_left hi] at hg
      rw [List.getElem?_append_left hi, hg] at hg'
      obtain rfl := Option.some.inj hg'
      rw [hfs, List.take_append_of_le_length hi.le, List.take_append_of_le_length hi.le]
      exact Or.inl rfl
    · obtain rfl : f = g := by simpa [hfs] using hg
      obtain rfl : f' = g' := by simpa using hg'
      rw [hfs, List.take_left, List.take_left, hcarry']
      by_cases hq : q = p
      · subst hq
        exact Or.inr ⟨d, hfirst⟩
      · exact Or.inl (by rw [if_neg hq])
    · -- After it the arrivals are the same, and land where they did.
      have hsame : fs[i]? = (pre ++ f' :: post)[i]? := by
        rw [hfs, List.getElem?_append_right (by omega), List.getElem?_append_right (by omega),
          show i - pre.length = (i - pre.length - 1) + 1 by omega, List.getElem?_cons_succ,
          List.getElem?_cons_succ]
      rw [hsame, hg'] at hg
      obtain rfl := Option.some.inj hg
      have htake : (fs.take i).map Arrival.shape =
          ((pre ++ f' :: post).take i).map Arrival.shape := by
        rw [List.map_take, List.map_take, hmap]
      refine Or.inl ?_
      unfold carries
      rw [landing_shape htake rfl]
  have hnext : (run pre).Appends f' p := (appends_shape rfl hshape p).1 happ
  have hsame := h _ hdiff
  have hold := delivered_of_appends pre f post happ hc
  have hnew := delivered_of_appends pre f' post hnext (by rw [hcarry', if_pos rfl])
  have hent : ((run pre).entered f').next = ((run pre).entered f).next := by rw [← hf']; rfl
  rw [hsame, hent, hfs, hold] at hnew
  exact hy (Option.some.inj hnew).symm

/-- **First writer wins, and retransmissions are ignored, exactly when** no segment that reaches
the frontier overlaps octets an earlier one left waiting. -/
theorem first_writer_wins_iff (fs : List (Arrival UInt8)) :
    (FirstWriterWins fs ∧ RetransmissionsIgnored fs) ↔ ClearAtFrontier fs :=
  have : Nontrivial UInt8 := ⟨0, 1, by decide⟩
  ⟨fun h => h.2.clear, fun h => ⟨h.wins, h.ignores⟩⟩

/-- A SYN at 0, four octets held at 11, and a segment of 20 octets at 1 that runs over them. -/
def overtaken : List (Arrival UInt8) :=
  [⟨0, SYN, [], 0⟩, ⟨11, 0, [0x42, 0x42, 0x42, 0x42], 1⟩, ⟨1, 0, List.replicate 20 0x41, 2⟩]

/-- The octet delivered at 11 is the later segment's. -/
theorem overtaken_not_first_writer : ¬ (FirstWriterWins overtaken ∧
    RetransmissionsIgnored overtaken) := by
  rintro ⟨h, -⟩
  have hstart : final_start overtaken = some (2 ^ 32 + 1) := by decide +kernel
  have hoctet : (reassembled overtaken).data[10]? = some 0x41 := by decide +kernel
  have hfirst : firstWriter overtaken (2 ^ 32 + 1 + 10 + (reassembled overtaken).missing 10) =
      some (0x42, 1) := by decide +kernel
  obtain ⟨k, -, hw⟩ := h _ hstart 10 _ hoctet
  rw [← firstWriter_eq_some, hfirst] at hw
  have := (Prod.mk.inj (Option.some.inj hw)).1
  exact absurd this (by decide)

end Build

end Wiry.Stream
