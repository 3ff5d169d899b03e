/-
What each function of `Build` does, once for each.

The state of a direction is read through two views. `cell` is the sparse array
the held runs stand for: which octet, of which packet, waits at a sequence
position. `octets` is the delivered data, each octet with the packet `segs`
names for it. `hold` adds to the first what is not there yet; `append` moves the
frontier over its argument and adds to the second what `MAX_STREAM` leaves room
for.

The loops (`drain`, `give_up_on_front`, `relieve`, and the one in `finish`) only
repeat two moves, taking the first held run and skipping to it, so they are
collected in one relation, `Advance`, and a property of all four is a property
of the two moves.
-/
import Wiry.Stream.Build
import Mathlib.Data.UInt

set_option autoImplicit false

namespace Wiry.Stream

/-! ## Flag bits -/

/-- Some bit of `m` is set in `flags`. -/
def Has (flags m : UInt8) : Prop := flags &&& m ≠ 0

instance (flags m : UInt8) : Decidable (Has flags m) := inferInstanceAs (Decidable (_ ≠ _))

theorem or_and_distrib (a b c : UInt8) : (a ||| b) &&& c = (a &&& c) ||| (b &&& c) := by
  rw [← UInt8.toBitVec_inj]
  ext i
  simp [Bool.and_or_distrib_right]

theorem Has.or {flags m : UInt8} (h : Has flags m) (k : UInt8) : Has (flags ||| k) m := by
  unfold Has at h ⊢
  rw [or_and_distrib, Ne, UInt8.or_eq_zero_iff]
  exact fun h' => h h'.1

theorem has_or_self {flags m : UInt8} (hm : m ≠ 0) : Has (flags ||| m) m := by
  unfold Has
  rw [or_and_distrib, Ne, UInt8.or_eq_zero_iff, UInt8.and_self]
  exact fun h' => hm h'.2

namespace Build

variable {α : Type}

/-- The octet held at a sequence position, with its packet. -/
def cell (b : Build α) (p : ℕ) : Option (α × ℕ) := SortedMap.lookup Held.cells b.held p

/-- The octet a segment starting at `at_` carries at a sequence position, with its packet. -/
def carried (at_ : ℕ) (data : List α) (pkt : ℕ) (p : ℕ) : Option (α × ℕ) :=
  SortedMap.cellAt Held.cells (at_, ⟨data, pkt⟩) p

theorem carried_eq (at_ : ℕ) (data : List α) (pkt p : ℕ) :
    carried at_ data pkt p = if at_ ≤ p then data[p - at_]?.map fun o => (o, pkt) else none := by
  unfold carried SortedMap.cellAt Held.cells
  simp only [List.getElem?_map]

theorem carried_isSome {at_ : ℕ} {data : List α} {pkt p : ℕ} :
    (carried at_ data pkt p).isSome ↔ at_ ≤ p ∧ p < at_ + data.length := by
  rw [carried, SortedMap.cellAt_isSome]
  simp [SortedMap.stop]

theorem carried_eq_none {at_ : ℕ} {data : List α} {pkt p : ℕ} :
    carried at_ data pkt p = none ↔ p < at_ ∨ at_ + data.length ≤ p := by
  rw [← Option.not_isSome_iff_eq_none, carried_isSome]
  omega

/-- Cutting the front off a segment leaves the octets past the cut where they were. -/
theorem carried_drop (at_ : ℕ) (data : List α) (pkt : ℕ) {n p : ℕ} (hp : at_ + n ≤ p) :
    carried (at_ + n) (data.drop n) pkt p = carried at_ data pkt p := by
  rw [carried_eq, carried_eq, if_pos hp, if_pos (by omega), List.getElem?_drop]
  congr 2
  omega

/-! ## The invariant of the representation -/

/-- The representation invariant: the held runs are apart and counted, and the segments tile the
data. Gaps are in order and lie inside it. -/
structure Sound (b : Build α) : Prop where
  apart : SortedMap.Apart Held.cells b.held
  counted : b.held_bytes = SortedMap.total Held.cells b.held
  tiles : Half.Tiles 0 b.half.segs b.half.data.length
  gaps_sorted : b.half.gaps.Pairwise fun g g' => g.at_ ≤ g'.at_
  gaps_le : ∀ g ∈ b.half.gaps, g.at_ ≤ b.half.data.length
  data_le : b.half.data.length ≤ MAX_STREAM

/-- The empty build is sound. -/
theorem sound_init : Sound ({} : Build α) where
  apart := SortedMap.apart_empty
  counted := rfl
  tiles := rfl
  gaps_sorted := List.Pairwise.nil
  gaps_le := by simp
  data_le := Nat.zero_le _

/-! ## `append` -/

/-- The octets `MAX_STREAM` has room for. -/
def room (b : Build α) : ℕ := MAX_STREAM - b.half.data.length

section Append

variable (b : Build α) (data : List α) (pkt : ℕ)

@[simp] theorem append_held_bytes : (b.append data pkt).held_bytes = b.held_bytes := by
  unfold append
  dsimp only
  split <;> rfl

@[simp] theorem append_origin : (b.append data pkt).origin = b.origin := by
  unfold append
  dsimp only
  split <;> rfl

@[simp] theorem append_open : (b.append data pkt).open_ = b.open_ := by
  unfold append
  dsimp only
  split <;> rfl

@[simp] theorem append_started : (b.append data pkt).started = b.started := by
  unfold append
  dsimp only
  split <;> rfl

@[simp] theorem append_next : (b.append data pkt).next = b.next + data.length := by
  unfold append
  dsimp only
  split <;> rfl

@[simp] theorem append_gaps : (b.append data pkt).half.gaps = b.half.gaps := by
  unfold append
  dsimp only
  split
  · rfl
  · split <;> rfl

/-- What is delivered is the prefix there is room for. -/
@[simp] theorem append_data :
    (b.append data pkt).half.data = b.half.data ++ data.take b.room := by
  unfold append room
  dsimp only
  split
  · rename_i h
    simp [h]
  · split <;> simp [List.take_eq_take_iff, Nat.min_comm]

/-- What there is no room for is counted. -/
@[simp] theorem append_dropped :
    (b.append data pkt).half.dropped = b.half.dropped + (data.length - b.room) := by
  unfold append room
  dsimp only
  split
  · rename_i h
    rw [h]
    rfl
  · split
    · dsimp only
      omega
    · dsimp only
      omega

/-- The flags change only when something is cut, and then say so. -/
theorem append_flags (hd : data ≠ []) :
    (b.append data pkt).half.flags =
      if data.length ≤ b.room then b.half.flags else b.half.flags ||| TRUNCATED := by
  have hpos := List.length_pos_iff.2 hd
  unfold append room
  dsimp only
  split
  · rename_i h
    rw [if_neg (by omega)]
  · split
    · rw [if_neg (by omega)]
    · rw [if_pos (by omega)]

end Append

/-! ### The segment list -/

/-- Pushing a stretch adds its packet once for each octet. -/
theorem pkts_push_seg (segs : List Seg) (len n pkt : ℕ) :
    Half.pkts (push_seg segs len n pkt) = Half.pkts segs ++ List.replicate n pkt := by
  unfold push_seg
  split
  · rename_i s hs
    obtain ⟨pre, rfl⟩ := List.getLast?_eq_some_iff.1 hs
    split
    · rename_i h
      rw [List.dropLast_concat, Half.pkts_append, Half.pkts_append, Half.pkts_cons, Half.pkts_cons]
      dsimp only
      rw [h.1, Half.pkts_nil, List.append_nil, List.append_nil, List.append_assoc,
        List.replicate_append_replicate]
    · rw [Half.pkts_append, Half.pkts_cons, Half.pkts_nil, List.append_nil]
  · rw [Half.pkts_append, Half.pkts_cons, Half.pkts_nil, List.append_nil]

/-- And the stretches tile the longer data. -/
theorem tiles_push_seg {segs : List Seg} {len n : ℕ} (ht : Half.Tiles 0 segs len) (hn : 0 < n)
    (pkt : ℕ) : Half.Tiles 0 (push_seg segs len n pkt) (len + n) := by
  unfold push_seg
  split
  · rename_i s hs
    obtain ⟨pre, rfl⟩ := List.getLast?_eq_some_iff.1 hs
    split
    · obtain ⟨m, hpre, hs', hpos, hend⟩ := ht.of_append
      have hend' : m + s.len = len := hend
      rw [List.dropLast_concat]
      exact hpre.append ⟨hs', by dsimp only; omega, by dsimp only [Half.Tiles]; omega⟩
    · exact ht.append ⟨rfl, hn, rfl⟩
  · exact ht.append ⟨rfl, hn, rfl⟩

theorem append_segs (b : Build α) (data : List α) (pkt : ℕ) :
    (b.append data pkt).half.segs =
      if b.room = 0 then b.half.segs
      else push_seg b.half.segs b.half.data.length (min data.length b.room) pkt := by
  unfold append room
  dsimp only
  split
  · rfl
  · split <;> rfl

theorem zip_replicate_self {β : Type} (xs : List α) (c : β) :
    xs.zip (List.replicate xs.length c) = xs.map fun o => (o, c) := by
  induction xs with
  | nil => rfl
  | cons x xs ih => simp [List.replicate_succ, ih]

/-- What is delivered is named for the packet that carried it. -/
theorem append_octets {b : Build α} (hb : b.Sound) (data : List α) (pkt : ℕ) :
    (b.append data pkt).half.octets =
      b.half.octets ++ (data.take b.room).map fun o => (o, pkt) := by
  have hlen : (Half.pkts b.half.segs).length = b.half.data.length := by
    have := hb.tiles.length_pkts
    omega
  unfold Half.octets
  rw [append_data, append_segs]
  split
  · rename_i h
    simp [h]
  · rw [pkts_push_seg, List.zip_append hlen.symm, Nat.min_comm, ← List.length_take,
      zip_replicate_self]

/-- Appending in-order octets keeps the build sound. -/
theorem Sound.append {b : Build α} (hb : b.Sound) {data : List α} (hd : data ≠ []) (pkt : ℕ) :
    (b.append data pkt).Sound where
  apart := by simpa using hb.apart
  counted := by simpa using hb.counted
  tiles := by
    have hpos := List.length_pos_iff.2 hd
    rw [append_segs, append_data, List.length_append, List.length_take]
    -- a cut that takes nothing adds no segment
    split
    · rename_i h
      simpa [h] using hb.tiles
    · rename_i h
      rw [Nat.min_comm]
      exact tiles_push_seg hb.tiles (by omega) pkt
  gaps_sorted := by simpa using hb.gaps_sorted
  gaps_le := by
    intro g hg
    rw [append_gaps] at hg
    have := hb.gaps_le g hg
    rw [append_data, List.length_append]
    omega
  data_le := by
    have := hb.data_le
    rw [append_data, List.length_append, List.length_take, room]
    omega

/-! ## The two moves -/

section TakeFront

variable {b : Build α} {ks : ℕ} {h : Held α}

/-- A turn of `drain` moves the frontier to the end of the run it takes, if it is not past it. -/
theorem take_front_next (b : Build α) {ks : ℕ} (h : Held α) (hks : ks ≤ b.next) :
    (b.take_front ks h).next = max b.next (ks + h.bytes.length) := by
  unfold take_front
  dsimp only
  split
  · rw [pop_next, Nat.max_eq_left ‹_›]
  · rw [append_next, pop_next, List.length_drop]
    omega

@[simp] theorem take_front_origin (b : Build α) (ks : ℕ) (h : Held α) :
    (b.take_front ks h).origin = b.origin := by
  unfold take_front
  dsimp only
  split <;> simp

@[simp] theorem take_front_open (b : Build α) (ks : ℕ) (h : Held α) :
    (b.take_front ks h).open_ = b.open_ := by
  unfold take_front
  dsimp only
  split <;> simp

@[simp] theorem take_front_started (b : Build α) (ks : ℕ) (h : Held α) :
    (b.take_front ks h).started = b.started := by
  unfold take_front
  dsimp only
  split <;> simp

@[simp] theorem take_front_gaps (b : Build α) (ks : ℕ) (h : Held α) :
    (b.take_front ks h).half.gaps = b.half.gaps := by
  unfold take_front
  dsimp only
  split <;> simp

/-- The runs of a sound state are not empty. -/
theorem Sound.first_pos (hb : b.Sound) (hf : b.held.first = some (ks, h)) :
    0 < h.bytes.length := by
  have := hb.apart.nonempty _ (SortedMap.mem_of_first hf)
  rwa [← List.length_pos_iff, Held.length_cells] at this

/-- So does taking the first held segment out. -/
theorem Sound.popped (hb : b.Sound) (hf : b.held.first = some (ks, h)) :
    (b.pop ks h).Sound where
  apart := hb.apart.remove_first hf
  counted := by
    have hsum : SortedMap.total Held.cells (b.held.remove ks) + h.cells.length =
        SortedMap.total Held.cells b.held := SortedMap.total_remove_first hf
    have := hb.counted
    rw [Held.length_cells] at hsum
    simp only [pop]
    omega
  tiles := hb.tiles
  gaps_sorted := hb.gaps_sorted
  gaps_le := hb.gaps_le
  data_le := hb.data_le

/-- And so does delivering it. -/
theorem Sound.take_front (hb : b.Sound) (hf : b.held.first = some (ks, h)) :
    (b.take_front ks h).Sound := by
  unfold Build.take_front
  dsimp only
  split
  · exact hb.popped hf
  · have := hb.first_pos hf
    refine (hb.popped hf).append ?_ h.pkt
    rw [← List.length_pos_iff, List.length_drop]
    omega

theorem take_front_data (b : Build α) (ks : ℕ) (h : Held α) :
    (b.take_front ks h).half.data =
      b.half.data ++ (h.bytes.drop (b.next - ks)).take b.room := by
  unfold take_front
  dsimp only
  split
  · rw [List.drop_eq_nil_of_le (by omega)]
    simp
  · exact append_data _ _ _

/-- And frees its cells. -/
theorem take_front_cell (hb : b.Sound) (hf : b.held.first = some (ks, h)) (p : ℕ) :
    (b.take_front ks h).cell p = if ks + h.bytes.length ≤ p then b.cell p else none := by
  unfold cell
  rw [held_take_front]
  simpa [SortedMap.stop] using hb.apart.lookup_remove_first hf p

/-- On the first run, what is held is that run. -/
theorem cell_first (hb : b.Sound) (hf : b.held.first = some (ks, h)) {p : ℕ}
    (hp : p < ks + h.bytes.length) : b.cell p = carried ks h.bytes h.pkt p :=
  hb.apart.lookup_first hf (by simpa [SortedMap.stop] using hp)

end TakeFront

section SkipTo

variable {b : Build α} {first : ℕ}

theorem skip_to_next (b : Build α) (first : ℕ) : (b.skip_to first).next = max b.next first := by
  unfold skip_to
  split
  · rw [Nat.max_eq_right (Nat.le_of_lt ‹_›)]
  · rw [Nat.max_eq_left (by omega)]

@[simp] theorem skip_to_origin (b : Build α) (first : ℕ) :
    (b.skip_to first).origin = b.origin := by
  unfold skip_to
  split <;> rfl

@[simp] theorem skip_to_open (b : Build α) (first : ℕ) : (b.skip_to first).open_ = b.open_ := by
  unfold skip_to
  split <;> rfl

@[simp] theorem skip_to_started (b : Build α) (first : ℕ) :
    (b.skip_to first).started = b.started := by
  unfold skip_to
  split <;> rfl

@[simp] theorem skip_to_data (b : Build α) (first : ℕ) :
    (b.skip_to first).half.data = b.half.data := by
  unfold skip_to
  split <;> rfl

@[simp] theorem skip_to_segs (b : Build α) (first : ℕ) :
    (b.skip_to first).half.segs = b.half.segs := by
  unfold skip_to
  split <;> rfl

@[simp] theorem skip_to_octets (b : Build α) (first : ℕ) :
    (b.skip_to first).half.octets = b.half.octets := by
  simp [Half.octets]

@[simp] theorem skip_to_dropped (b : Build α) (first : ℕ) :
    (b.skip_to first).half.dropped = b.half.dropped := by
  unfold skip_to
  split <;> rfl

@[simp] theorem skip_to_flags (b : Build α) (first : ℕ) :
    (b.skip_to first).half.flags = b.half.flags := by
  unfold skip_to
  split <;> rfl

@[simp] theorem skip_to_cell (b : Build α) (first p : ℕ) : (b.skip_to first).cell p = b.cell p := by
  unfold cell
  rw [held_skip_to]

/-- And records it. -/
theorem skip_to_gaps (b : Build α) (first : ℕ) :
    (b.skip_to first).half.gaps = b.half.gaps ++
      if b.next < first then [⟨b.half.data.length, first - b.next⟩] else [] := by
  unfold skip_to
  split <;> simp

/-- A recorded gap is as long as the frontier moved. -/
theorem skip_to_missingTotal (b : Build α) (first : ℕ) :
    (b.skip_to first).half.missingTotal = b.half.missingTotal + (first - b.next) := by
  unfold Half.missingTotal
  rw [skip_to_gaps, Holes.size_append]
  split
  · rw [Holes.size_singleton]
  · rw [Holes.size_nil]
    omega

/-- Moving the frontier over a gap keeps the build sound. -/
theorem Sound.skip_to (hb : b.Sound) (first : ℕ) : (b.skip_to first).Sound where
  apart := by simpa using hb.apart
  counted := by
    have := hb.counted
    unfold Build.skip_to
    split <;> exact this
  tiles := by simpa using hb.tiles
  gaps_sorted := by
    rw [skip_to_gaps]
    -- a gap is recorded at the end of the data, behind those before
    split
    · refine List.pairwise_append.2 ⟨hb.gaps_sorted, List.pairwise_singleton _ _, ?_⟩
      intro g hg g' hg'
      rw [List.mem_singleton.1 hg']
      exact hb.gaps_le g hg
    · simpa using hb.gaps_sorted
  gaps_le := by
    intro g hg
    rw [skip_to_gaps] at hg
    rw [skip_to_data]
    rcases List.mem_append.1 hg with hg | hg
    · exact hb.gaps_le g hg
    · split at hg
      · rw [List.mem_singleton.1 hg]
      · cases hg
  data_le := by simpa using hb.data_le

end SkipTo

/-! ## The loops -/

/-- `b` becomes `b'` by taking first held runs the frontier has reached and skipping to first
held runs it has not. -/
inductive Advance : Build α → Build α → Prop
  | refl (b : Build α) : Advance b b
  | pop {b b' : Build α} {ks : ℕ} {h : Held α} (hf : b.held.first = some (ks, h))
      (hks : ks ≤ b.next) (rest : Advance (b.take_front ks h) b') : Advance b b'
  | skip {b b' : Build α} {ks : ℕ} {h : Held α} (hf : b.held.first = some (ks, h))
      (rest : Advance (b.skip_to ks) b') : Advance b b'

/-- Advances in a row are one. -/
theorem Advance.trans {b b' b'' : Build α} (h : Advance b b') (h' : Advance b' b'') :
    Advance b b'' := by
  induction h with
  | refl b => exact h'
  | pop hf hks _ ih => exact .pop hf hks (ih h')
  | skip hf _ ih => exact .skip hf (ih h')

theorem advance_drain (b : Build α) : Advance b b.drain :=
  drain_induction (P := Advance) (fun b _ => .refl b) (fun _ _ _ hf hks ih => .pop hf hks ih) b

theorem advance_give_up {b b' : Build α} (h : b.give_up_on_front = some b') : Advance b b' := by
  unfold give_up_on_front at h
  split at h
  · cases h
  · rename_i first hd hf
    obtain rfl := Option.some.inj h
    exact .skip hf (advance_drain _)

/-- So is relief. -/
theorem advance_relieve (b : Build α) : Advance b b.relieve := by
  rw [relieve]
  split
  · split
    · rename_i b' hg
      exact (advance_give_up hg).trans (advance_relieve b')
    · exact .refl b
  · exact .refl b
termination_by b.held.length
decreasing_by exact length_give_up_lt ‹_›

/-- So is flushing. -/
theorem advance_flush (b : Build α) : Advance b b.flush := by
  rw [flush]
  split
  · rename_i b' hg
    exact (advance_give_up hg).trans (advance_flush b')
  · exact .refl b
termination_by b.held.length
decreasing_by exact length_give_up_lt ‹_›

theorem give_up_eq_none {b : Build α} : b.give_up_on_front = none ↔ b.held.first = none := by
  unfold give_up_on_front
  split <;> simp_all

/-- `drain` stops where nothing is held at or before the frontier. -/
theorem drain_stops (b : Build α) :
    ∀ ks h, b.drain.held.first = some (ks, h) → b.drain.next < ks :=
  drain_induction (P := fun _ b' => ∀ ks h, b'.held.first = some (ks, h) → b'.next < ks)
    (fun _ h => h) (fun _ _ _ _ _ ih => ih) b

/-- `relieve` stops inside the holding bounds, or with nothing held. -/
theorem relieve_stops (b : Build α) : ¬ b.relieve.overfull ∨ b.relieve.held.first = none := by
  rw [relieve]
  split
  · split
    · rename_i b' hg
      exact relieve_stops b'
    · rename_i hg
      exact Or.inr (give_up_eq_none.1 hg)
  · exact Or.inl ‹_›
termination_by b.held.length
decreasing_by exact length_give_up_lt ‹_›

/-- The loop of `finish` stops with nothing held. -/
theorem flush_stops (b : Build α) : b.flush.held.first = none := by
  rw [flush]
  split
  · rename_i b' hg
    exact flush_stops b'
  · exact give_up_eq_none.1 ‹_›
termination_by b.held.length
decreasing_by exact length_give_up_lt ‹_›

/-! ### What a loop keeps -/

section Advance

variable {b b' : Build α}

theorem Advance.sound (h : Advance b b') (hb : b.Sound) : b'.Sound := by
  induction h with
  | refl b => exact hb
  | pop hf _ _ ih => exact ih (hb.take_front hf)
  | skip _ _ ih => exact ih (hb.skip_to _)

theorem Advance.next_le (h : Advance b b') : b.next ≤ b'.next := by
  induction h with
  | refl b => exact le_rfl
  | pop _ hks _ ih =>
    rw [take_front_next _ _ hks] at ih
    omega
  | skip _ _ ih =>
    rw [skip_to_next] at ih
    omega

/-- It opens and closes nothing. -/
theorem Advance.open_eq (h : Advance b b') : b'.open_ = b.open_ := by
  induction h with
  | refl b => rfl
  | pop _ _ _ ih => rw [ih, take_front_open]
  | skip _ _ ih => rw [ih, skip_to_open]

theorem Advance.origin_eq (h : Advance b b') : b'.origin = b.origin := by
  induction h with
  | refl b => rfl
  | pop _ _ _ ih => rw [ih, take_front_origin]
  | skip _ _ ih => rw [ih, skip_to_origin]

theorem Advance.started_eq (h : Advance b b') : b'.started = b.started := by
  induction h with
  | refl b => rfl
  | pop _ _ _ ih => rw [ih, take_front_started]
  | skip _ _ ih => rw [ih, skip_to_started]

/-- And holds no more than before. -/
theorem Advance.length_le (h : Advance b b') : b'.held.length ≤ b.held.length := by
  induction h with
  | refl b => exact le_rfl
  | pop hf _ _ ih =>
    have := length_take_front hf
    omega
  | skip _ _ ih => rwa [held_skip_to] at ih

/-- Past the frontier a loop ends at, what is held has not changed. -/
theorem Advance.cell_eq (h : Advance b b') (hb : b.Sound) {p : ℕ} (hp : b'.next ≤ p) :
    b'.cell p = b.cell p := by
  induction h with
  | refl b => rfl
  | @pop b b' ks hd hf hks rest ih =>
    have hle := rest.next_le
    rw [take_front_next _ _ hks] at hle
    rw [ih (hb.take_front hf) hp, take_front_cell hb hf, if_pos (by omega)]
  | skip _ _ ih => rw [ih (hb.skip_to _) hp, skip_to_cell]

/-- A loop holds nothing new. -/
theorem Advance.cell_sub (h : Advance b b') (hb : b.Sound) {p : ℕ} {c : α × ℕ}
    (hc : b'.cell p = some c) : b.cell p = some c := by
  induction h with
  | refl b => exact hc
  | pop hf _ _ ih =>
    have hc' := ih (hb.take_front hf) hc
    rw [take_front_cell hb hf] at hc'
    split at hc'
    · exact hc'
    · cases hc'
  | skip _ _ ih => simpa using ih (hb.skip_to _) hc

end Advance

end Build

end Wiry.Stream
