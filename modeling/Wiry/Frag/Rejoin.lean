/-
What the reassembler makes of the pieces of one payload: pushed in any order,
they are held until the last of them arrives, and that one completes the group.

`Held` is the invariant: after any set of the pieces, in any order, the group
covers exactly these, has the head once the first of them came, and knows the
length once the last of them did. `Held.take` keeps it for one piece more, and
a group that holds all of them is complete.
-/
import Wiry.Frag.Interference

set_option autoImplicit false

namespace Wiry.Frag

open Wiry.Packet Wiry.Recency SortedMap

/-! ## One piece -/

/-- The frame `buf` carries the stretch `c` of the payload `P`: of length `c.2` from `c.1` on. The
stretch at zero brings the head `H`. -/
structure Part (L : Layers) (link : ProtoId) (k : Key) (H : Head) (P : Bytes) (buf : Bytes)
    (c : ℕ × ℕ) (f : Found) : Prop where
  found : inspect L buf link = some f
  key_eq : f.key = k
  at_eq : f.at_ = c.1
  data_eq : f.data buf = slice P c.1 (c.1 + c.2)
  more_eq : f.more = decide (c.1 + c.2 < P.length)
  head_eq : f.head = if c.1 = 0 then some H else none

/-- A stretch of the payload that is not empty. -/
structure Inside (P : Bytes) (c : ℕ × ℕ) : Prop where
  pos : 0 < c.2
  le : c.1 + c.2 ≤ P.length

section Part

variable {L : Layers} {link : ProtoId} {k : Key} {H : Head} {P buf : Bytes} {c : ℕ × ℕ} {f : Found}

theorem Part.length_data (h : Part L link k H P buf c f) (hc : Inside P c) :
    (f.data buf).length = c.2 := by
  rw [h.data_eq, length_slice hc.le]
  omega

theorem Part.extent (h : Part L link k H P buf c f) (hc : Inside P c) :
    f.data_end - f.data_at = c.2 := by
  obtain ⟨-, hend⟩ := inspect_bounds h.found
  rw [← h.length_data hc, Found.data, length_slice hend]

theorem Part.not_teardrop (h : Part L link k H P buf c f) (hc : Inside P c)
    (hP : P.length ≤ MAX_DATAGRAM) : ¬ f.Teardrop := by
  have hpos := hc.pos
  have hle := hc.le
  unfold Found.Teardrop
  rw [h.at_eq, h.extent hc]
  omega

end Part

/-! ## A group fed with pieces -/

/-- The group has taken the stretches `done` of the payload `P`. -/
structure Held (H : Head) (P : Bytes) (done : List (ℕ × ℕ)) (g : Group) : Prop where
  inside : ∀ c ∈ done, Inside P c
  separated : g.got.Separated
  filled : g.got.Filled
  covered : ∀ p, Covered g.got p ↔ ∃ c ∈ done, c.1 ≤ p ∧ p < c.1 + c.2
  octets : ∀ p, Covered g.got p → g.data[p]? = P[p]?
  length_le : g.data.length ≤ P.length
  head_of : ∀ h, g.head = some h → h = H
  head_eq : (∃ c ∈ done, c.1 = 0) → g.head = some H
  total_of : ∀ t, g.total = some t → t = P.length
  total_eq : (∃ c ∈ done, c.1 + c.2 = P.length) → g.total = some P.length

theorem total_take (g : Group) (pos : ℕ) (f : Found) (data : Bytes) :
    (g.take pos f data).total =
      if f.more = false ∧ g.total.isNone then some (f.at_ + (f.data_end - f.data_at))
      else g.total := rfl

namespace Held

variable {L : Layers} {link : ProtoId} {k : Key} {H : Head} {P buf : Bytes} {done : List (ℕ × ℕ)}
  {g : Group} {c : ℕ × ℕ} {f : Found}

theorem init (H : Head) (P : Bytes) (seq : ℕ) : Held H P [] { seq := seq } where
  inside := nofun
  separated := separated_empty
  filled := nofun
  covered p := ⟨fun h => absurd h (not_covered_empty p), fun ⟨_, hc, _⟩ => absurd hc List.not_mem_nil⟩
  octets p h := absurd h (not_covered_empty p)
  length_le := Nat.zero_le _
  head_of := nofun
  head_eq := fun ⟨_, hc, _⟩ => absurd hc List.not_mem_nil
  total_of := nofun
  total_eq := fun ⟨_, hc, _⟩ => absurd hc List.not_mem_nil

/-- The invariant of the rejoining: after one more piece the group holds the octets of the pieces
seen, knows the head once the first piece came and the length once the last did. -/
theorem take (h : Held H P done g) (hf : Part L link k H P buf c f) (hc : Inside P c) (pos : ℕ) :
    Held H P (done ++ [c]) (g.take pos f (f.data buf)) where
  inside := by
    intro c' hc'
    rcases List.mem_append.1 hc' with hc' | hc'
    · exact h.inside c' hc'
    · rw [List.mem_singleton.1 hc']
      exact hc
  separated := Group.separated_take h.separated pos f _
  filled := by
    have hlen := hf.length_data hc
    have hpos := hc.pos
    apply Group.filled_absorb h.separated h.filled
    rintro heq
    rw [heq] at hlen
    exact absurd hlen (Nat.ne_of_lt hpos)
  covered p := by
    have hcov := Group.covered_absorb h.separated f.at_ (f.data buf) p
    rw [hf.length_data hc, hf.at_eq, h.covered] at hcov
    rw [Group.got_take, hf.at_eq, hcov]
    simp only [List.mem_append, List.mem_singleton, or_and_right, exists_or, exists_eq_left]
  octets p hp := by
    classical
    have hcov := Group.covered_absorb h.separated f.at_ (f.data buf) p
    have hget := Group.absorb_getElem? h.separated f.at_ (f.data buf) p
    have hle := hc.le
    rw [hf.length_data hc] at hcov hget
    rw [Group.data_take, hget]
    by_cases hfresh : f.at_ ≤ p ∧ p < f.at_ + c.2 ∧ ¬ Covered g.got p
    · -- the position is the piece's own
      rw [if_pos hfresh, hf.data_eq, slice_getElem?, ← hf.at_eq, if_pos (by omega)]
      congr 1
      omega
    · have hold : Covered g.got p := by
        rcases hcov.1 hp with hold | hnew
        · exact hold
        · by_contra hfree
          exact hfresh ⟨hnew.1, hnew.2, hfree⟩
      have hsame := h.octets p hold
      have hlt : p < g.data.length := by
        by_contra hge
        obtain ⟨c', hc', hpc⟩ := (h.covered p).1 hold
        have hend := (h.inside c' hc').le
        rw [List.getElem?_eq_none (Nat.le_of_not_lt hge), List.getElem?_eq_getElem (by omega)] at hsame
        exact absurd hsame nofun
      rw [if_neg hfresh, resized_getElem?, if_pos hlt, hsame]
  length_le := by
    rw [Group.data_take, Group.length_absorb h.separated, hf.length_data hc, hf.at_eq]
    exact Nat.max_le.2 ⟨h.length_le, hc.le⟩
  head_of := by
    intro h' hh'
    rw [Group.head_take, hf.head_eq] at hh'
    cases hg : g.head with
    | some h'' =>
      rw [hg] at hh'
      rw [← Option.some.inj hh']
      exact h.head_of h'' hg
    | none =>
      rw [hg, Option.none_or] at hh'
      split at hh'
      · exact (Option.some.inj hh').symm
      · exact absurd hh' nofun
  head_eq := by
    rintro ⟨c', hc', hzero⟩
    rw [Group.head_take, hf.head_eq]
    cases hg : g.head with
    | some h' => rw [h.head_of h' hg]; rfl
    | none =>
      rcases List.mem_append.1 hc' with hc' | hc'
      · exact absurd (h.head_eq ⟨c', hc', hzero⟩) (by rw [hg]; nofun)
      · rw [List.mem_singleton.1 hc'] at hzero
        rw [if_pos hzero]
        rfl
  total_of := by
    intro t ht
    rw [total_take, hf.extent hc, hf.more_eq, hf.at_eq] at ht
    have hle := hc.le
    split at ht
    · rename_i hlast
      have hmore := of_decide_eq_false hlast.1
      have hend := Option.some.inj ht
      omega
    · exact h.total_of t ht
  total_eq := by
    rintro ⟨c', hc', hend⟩
    rw [total_take, hf.extent hc, hf.more_eq, hf.at_eq]
    cases hg : g.total with
    | some t =>
      rw [if_neg (by simp), h.total_of t hg]
    | none =>
      rcases List.mem_append.1 hc' with hc' | hc'
      · exact absurd (h.total_eq ⟨c', hc', hend⟩) (by rw [hg]; nofun)
      · rw [List.mem_singleton.1 hc'] at hend
        rw [if_pos ⟨decide_eq_false (by omega), rfl⟩, hend]

/-- A position no piece has brought yet keeps the group open. -/
theorem not_complete (h : Held H P done g) {p : ℕ} (hp : p < P.length)
    (hfree : ∀ c ∈ done, ¬ (c.1 ≤ p ∧ p < c.1 + c.2)) : ¬ g.complete = true := by
  intro hc
  obtain ⟨-, hany⟩ := Bool.and_eq_true_iff.1 hc
  obtain ⟨t, ht, hrange⟩ := (Option.any_eq_true _ _).1 hany
  obtain ⟨hfirst, -⟩ := of_decide_eq_true hrange
  -- the one range it holds is the whole payload
  have hmem : (0, t) ∈ g.got.entries := List.mem_of_mem_head? hfirst
  obtain rfl := h.total_of t ht
  obtain ⟨c, hc, hpc⟩ := (h.covered p).1 ⟨_, hmem, Nat.zero_le p, hp⟩
  exact hfree c hc hpc

/-- The pieces that leave no position out complete the group with the payload. -/
theorem complete (h : Held H P done g) (hP : 0 < P.length)
    (hall : ∀ p, p < P.length → ∃ c ∈ done, c.1 ≤ p ∧ p < c.1 + c.2) :
    g.complete = true ∧ g.head = some H ∧ g.data = P := by
  -- Every octet of the datagram lies in some fragment taken, and none beyond its end.
  have hcov : ∀ p, Covered g.got p ↔ p < P.length := by
    intro p
    rw [h.covered]
    constructor
    · rintro ⟨c, hc, hpc⟩
      have hle := (h.inside c hc).le
      omega
    · exact hall p
  have hentries := h.separated.entries_eq h.filled hP hcov
  -- The fragment at zero gives the head, the one with the last octet the total.
  have hhead : g.head = some H := by
    obtain ⟨c, hc, hpc⟩ := hall 0 hP
    exact h.head_eq ⟨c, hc, by omega⟩
  have htotal : g.total = some P.length := by
    obtain ⟨c, hc, hpc⟩ := hall (P.length - 1) (by omega)
    have hle := (h.inside c hc).le
    exact h.total_eq ⟨c, hc, by omega⟩
  refine ⟨?_, hhead, ?_⟩
  · unfold Group.complete
    rw [hhead, htotal]
    simp [SortedMap.first, SortedMap.length, hentries]
  -- and each octet stored is the datagram's
  · apply List.ext_getElem?
    intro p
    by_cases hp : p < P.length
    · exact h.octets p ((hcov p).2 hp)
    · have hlen := h.length_le
      rw [List.getElem?_eq_none (by omega), List.getElem?_eq_none (by omega)]

/-- A complete group holds the payload, whichever pieces it was fed. -/
theorem of_complete (h : Held H P done g) (hP : 0 < P.length) (hc : g.complete = true) :
    g.head = some H ∧ g.data = P := by
  have hall : ∀ p, p < P.length → ∃ c ∈ done, c.1 ≤ p ∧ p < c.1 + c.2 := by
    intro p hp
    by_contra hnone
    exact h.not_complete hp (fun c hc hpc => hnone ⟨c, hc, hpc⟩) hc
  exact (h.complete hP hall).2

/-- Whatever pieces a run brings, its group has taken them. -/
theorem gather {run : List (ℕ × Bytes)} (h : Held H P done g)
    (hrun : ∀ p ∈ run, ∃ c f, Inside P c ∧ Part L link k H P p.2 c f) :
    ∃ done', Held H P done' (Frag.gather L link g run) := by
  induction run generalizing done g with
  | nil => exact ⟨done, h⟩
  | cons p run ih =>
    obtain ⟨c, f, hc, hf⟩ := hrun p List.mem_cons_self
    have htake := h.take hf hc p.1
    rw [← gather_singleton hf.found] at htake
    obtain ⟨done', hdone⟩ := ih htake fun q hq => hrun q (List.mem_cons_of_mem _ hq)
    rw [← gather_append] at hdone
    exact ⟨done', hdone⟩

end Held

/-! ## The run -/

/-- The state after some pieces of one datagram: it has no group but theirs. -/
structure Lone (k : Key) (H : Head) (P : Bytes) (ps : List (ℕ × Bytes)) (done : List (ℕ × ℕ))
    (r : Reassembler) : Prop where
  kept : r.Kept
  small : Small 1 r
  only : ∀ k' g, r.groups.lookup k' = some g → k' = k
  out_eq : r.out = []
  held : Held H P done (r.entry k).2
  at_eq : (r.entry k).2.at_ = ps.map Prod.fst

namespace Lone

variable {L : Layers} {link : ProtoId} {k : Key} {H : Head} {P : Bytes} {ps : List (ℕ × Bytes)}
  {done : List (ℕ × ℕ)} {r : Reassembler} {p : ℕ × Bytes} {c : ℕ × ℕ} {f : Found}

theorem init (k : Key) (H : Head) (P : Bytes) : Lone k H P [] [] {} where
  kept := Reassembler.kept_init
  small := ⟨Nat.zero_le _, fun k g h => by simp at h⟩
  only k' g h := by simp at h
  out_eq := rfl
  held := .init H P 0
  at_eq := rfl

theorem not_refuses (h : Lone k H P ps done r) (hf : Part L link k H P p.2 c f) (hc : Inside P c)
    (hP : P.length ≤ MAX_DATAGRAM) (hroom : ps.length < MAX_FRAGS) : ¬ r.refuses f := by
  rintro (htear | hfull)
  · exact hf.not_teardrop hc hP htear
  · rw [hf.key_eq, h.at_eq, List.length_map] at hfull
    omega

/-- One group is no crowd, so the piece is taken in and nothing is evicted. -/
theorem push_eq (h : Lone k H P ps done r) (hf : Part L link k H P p.2 c f) (hc : Inside P c)
    (hP : P.length ≤ MAX_DATAGRAM) (hroom : ps.length < MAX_FRAGS) :
    r.push L link p.1 p.2 = (r.taken p.1 f (f.data p.2)).sweep ∧
      Small 1 (r.taken p.1 f (f.data p.2)) ∧
      ∀ k' g, (r.taken p.1 f (f.data p.2)).groups.lookup k' = some g → k' = k := by
  have hgroups : ∀ k' g, (r.taken p.1 f (f.data p.2)).groups.lookup k' = some g → k' = k := by
    intro k' g hg
    by_cases hk : k' = k
    · exact hk
    · rw [Reassembler.lookup_taken_of_ne (by rwa [hf.key_eq])] at hg
      exact h.only k' g hg
  have htaken := h.small.taken h.kept p.1 (hf.not_teardrop hc hP) p.2
  have hone : Small 1 (r.taken p.1 f (f.data p.2)) := ⟨length_keys_le_one hgroups, htaken.held_le⟩
  have hcrowded := hone.not_crowded (h.kept.taken p.1 f _) (by decide)
  refine ⟨?_, hone, hgroups⟩
  unfold Reassembler.push
  rw [hf.found]
  dsimp only
  rw [Reassembler.push_fragment_of_not_refuses (h.not_refuses hf hc hP hroom),
    Reassembler.evict_of_not_crowded hcrowded]

/-- A piece that leaves a position open. -/
theorem push (h : Lone k H P ps done r) (hf : Part L link k H P p.2 c f) (hc : Inside P c)
    (hP : P.length ≤ MAX_DATAGRAM) (hroom : ps.length < MAX_FRAGS) {i : ℕ} (hi : i < P.length)
    (hfree : ∀ c' ∈ done ++ [c], ¬ (c'.1 ≤ i ∧ i < c'.1 + c'.2)) :
    Lone k H P (ps ++ [p]) (done ++ [c]) (r.push L link p.1 p.2) := by
  obtain ⟨hpush, hsmall, hgroups⟩ := h.push_eq hf hc hP hroom
  have hkept := h.kept.push L link p.1 p.2
  have htake := h.held.take hf hc p.1
  -- An octet is missing, so the push stores the fragment and completes nothing.
  have hopen := htake.not_complete hi hfree
  have hlook := Reassembler.lookup_taken r p.1 f (f.data p.2)
  have hout := Reassembler.out_taken r p.1 f (f.data p.2)
  rw [hf.key_eq, if_neg hopen] at hlook hout
  rw [hpush] at hkept ⊢
  have hentry : ((r.taken p.1 f (f.data p.2)).sweep.entry k).2 =
      (r.entry k).2.take p.1 f (f.data p.2) := by
    rw [← Reassembler.groups_sweep] at hlook
    rw [Reassembler.entry_of_some hlook]
  refine ⟨hkept, ?_, ?_, ?_, ?_, ?_⟩
  · exact ⟨by rw [Reassembler.groups_sweep]; exact hsmall.count_le,
      by rw [Reassembler.groups_sweep]; exact hsmall.held_le⟩
  · rw [Reassembler.groups_sweep]
    exact hgroups
  · rw [Reassembler.out_sweep, hout, h.out_eq]
    rfl
  · rw [hentry]
    exact htake
  · rw [hentry, Group.at_take, h.at_eq, List.map_append]
    rfl

/-- The piece that leaves none. -/
theorem push_last (h : Lone k H P ps done r) (hf : Part L link k H P p.2 c f) (hc : Inside P c)
    (hP : P.length ≤ MAX_DATAGRAM) (hroom : ps.length < MAX_FRAGS) (hpos : 0 < P.length)
    (hall : ∀ i, i < P.length → ∃ c' ∈ done ++ [c], c'.1 ≤ i ∧ i < c'.1 + c'.2) :
    ∃ g : Group, g.head = some H ∧ g.data = P ∧ g.at_ = (ps ++ [p]).map Prod.fst ∧
      (r.push L link p.1 p.2).out = closed g ∧
      ∀ k', (r.push L link p.1 p.2).groups.lookup k' = none := by
  obtain ⟨hpush, -, hgroups⟩ := h.push_eq hf hc hP hroom
  have htake := h.held.take hf hc p.1
  obtain ⟨hcomplete, hhead, hdata⟩ := htake.complete hpos hall
  have hlook := Reassembler.lookup_taken r p.1 f (f.data p.2)
  have hout := Reassembler.out_taken r p.1 f (f.data p.2)
  rw [hf.key_eq, if_pos hcomplete] at hlook hout
  refine ⟨(r.entry k).2.take p.1 f (f.data p.2), hhead, hdata, ?_, ?_, ?_⟩
  · rw [Group.at_take, h.at_eq, List.map_append]
    rfl
  · rw [hpush, Reassembler.out_sweep, hout, h.out_eq]
    rfl
  -- the one group is closed, so none is left
  · intro k'
    rw [hpush, Reassembler.groups_sweep]
    cases hg : (r.taken p.1 f (f.data p.2)).groups.lookup k' with
    | none => rfl
    | some g =>
      rw [hgroups k' g hg, hlook] at hg
      exact absurd hg nofun

end Lone

/-- Stretches with no position in common. -/
def Apart (c d : ℕ × ℕ) : Prop := c.1 + c.2 ≤ d.1 ∨ d.1 + d.2 ≤ c.1

/-- The stretches `cs` cut the payload into pieces. -/
structure Cut (P : Bytes) (cs : List (ℕ × ℕ)) : Prop where
  inside : ∀ c ∈ cs, Inside P c
  apart : cs.Pairwise Apart
  all : ∀ i, i < P.length → ∃ c ∈ cs, c.1 ≤ i ∧ i < c.1 + c.2

theorem Cut.perm {P : Bytes} {cs cs' : List (ℕ × ℕ)} (h : Cut P cs) (hperm : cs'.Perm cs) :
    Cut P cs' where
  inside c hc := h.inside c (hperm.subset hc)
  apart := hperm.symm.pairwise h.apart fun hcd => hcd.symm
  all i hi := by
    obtain ⟨c, hc, hic⟩ := h.all i hi
    exact ⟨c, hperm.symm.subset hc, hic⟩

/-- The last of a list of pieces. -/
theorem forall₂_append_singleton {α β : Type} {R : α → β → Prop} {ps : List α} {cs : List β} {c : β}
    (h : List.Forall₂ R ps (cs ++ [c])) :
    ∃ ps' p, ps = ps' ++ [p] ∧ List.Forall₂ R ps' cs ∧ R p c := by
  have hinit := List.forall₂_take_append _ _ _ h
  have hlast := List.forall₂_drop_append _ _ _ h
  obtain ⟨p, rest, hp, hrest, hdrop⟩ := List.forall₂_cons_right_iff.1 hlast
  rw [List.forall₂_nil_right_iff.1 hrest] at hdrop
  exact ⟨_, p, by rw [← hdrop, List.take_append_drop], hinit, hp⟩

section Runs

variable {L : Layers} {link : ProtoId} {k : Key} {H : Head} {P : Bytes}

/-- While a position is left open, the pieces are held. -/
theorem pushes_lone (hP : P.length ≤ MAX_DATAGRAM) {i : ℕ} (hi : i < P.length)
    {ps : List (ℕ × Bytes)} {cs : List (ℕ × ℕ)}
    (hparts : List.Forall₂ (fun p c => ∃ f, Part L link k H P p.2 c f) ps cs)
    (hinside : ∀ c ∈ cs, Inside P c) (hroom : cs.length < MAX_FRAGS)
    (hfree : ∀ c ∈ cs, ¬ (c.1 ≤ i ∧ i < c.1 + c.2)) :
    Lone k H P ps cs (pushes L link ps) := by
  induction cs using List.reverseRecOn generalizing ps with
  | nil =>
    obtain rfl := List.forall₂_nil_right_iff.1 hparts
    exact .init k H P
  | append_singleton cs c ih =>
    obtain ⟨ps', p, rfl, hparts', f, hf⟩ := forall₂_append_singleton hparts
    rw [List.length_append, List.length_singleton] at hroom
    have hlone := ih hparts' (fun c' hc' => hinside c' (List.mem_append_left _ hc')) (by omega)
      (fun c' hc' => hfree c' (List.mem_append_left _ hc'))
    rw [pushes_append_singleton]
    have hlen := hparts'.length_eq
    exact hlone.push hf (hinside c (List.mem_append_right _ (List.mem_singleton_self c))) hP
      (by omega) hi hfree

/-- **Pieces pushed in any order rejoin.** The last of them hands the group back, and nothing is
left. -/
theorem pushes_rejoin (hP : P.length ≤ MAX_DATAGRAM) (hpos : 0 < P.length)
    {ps : List (ℕ × Bytes)} {cs : List (ℕ × ℕ)}
    (hparts : List.Forall₂ (fun p c => ∃ f, Part L link k H P p.2 c f) ps cs) (hcut : Cut P cs)
    (hroom : cs.length ≤ MAX_FRAGS) :
    ∃ g : Group, g.head = some H ∧ g.data = P ∧ g.at_ = ps.map Prod.fst ∧
      (pushes L link ps).out = closed g ∧
      ∀ k', (pushes L link ps).groups.lookup k' = none := by
  induction cs using List.reverseRecOn with
  | nil =>
    obtain ⟨c, hc, -⟩ := hcut.all 0 hpos
    exact absurd hc List.not_mem_nil
  | append_singleton cs c _ =>
    obtain ⟨ps', p, rfl, hparts', f, hf⟩ := forall₂_append_singleton hparts
    have hc := hcut.inside c (List.mem_append_right _ (List.mem_singleton_self c))
    have hstart : c.1 ≤ c.1 ∧ c.1 < c.1 + c.2 := ⟨le_rfl, Nat.lt_add_of_pos_right hc.pos⟩
    have hlen := hparts'.length_eq
    rw [List.length_append, List.length_singleton] at hroom
    -- until the last piece arrives, its first octet is missing
    have hlone := pushes_lone (i := c.1) hP (Nat.lt_of_lt_of_le hstart.2 hc.le) hparts'
      (fun c' hc' => hcut.inside c' (List.mem_append_left _ hc')) (by omega) (by
        intro c' hc' hin
        rcases (List.pairwise_append.1 hcut.apart).2.2 c' hc' c (List.mem_singleton_self c) with
          hle | hle
        · omega
        · omega)
    rw [pushes_append_singleton]
    exact hlone.push_last hf hc hP (by omega) hpos hcut.all

/-- What `defragment` makes of the frames that carry the pieces of a payload. -/
theorem defragment_pieces (hP : P.length ≤ MAX_DATAGRAM) (hpos : 0 < P.length) {fs : List Bytes}
    {cs : List (ℕ × ℕ)} (hparts : List.Forall₂ (fun buf c => ∃ f, Part L link k H P buf c f) fs cs)
    (hcut : Cut P cs) (hroom : cs.length ≤ MAX_FRAGS) (keys : List Key) :
    ∃ g : Group, g.head = some H ∧ g.data = P ∧ g.at_ = (numbered fs).map Prod.fst ∧
      defragment L fs link keys = (closed g).insertionSort Reassembler.by_at := by
  have hnumbered : List.Forall₂ (fun p c => ∃ f, Part L link k H P p.2 c f) (numbered fs) cs := by
    rw [← map_snd_numbered fs, List.forall₂_map_left_iff] at hparts
    exact hparts
  obtain ⟨g, hhead, hdata, hat, hout, hnone⟩ := pushes_rejoin hP hpos hnumbered hcut hroom
  refine ⟨g, hhead, hdata, hat, ?_⟩
  have hdrained : (pushes L link (numbered fs)).drained keys = [] := by
    unfold Reassembler.drained
    simp [hnone]
  unfold defragment Reassembler.finish
  rw [Reassembler.foldl_finish_turn, hdrained, hout, List.append_nil]

end Runs

end Wiry.Frag
