/-
Two runs of the reassembler: one over all frames, one over those of a single
key. The first completes the same datagrams under that key as the second, as
long as it evicts nothing.

A group is compared with its image by `Alike`: the two hold the same octets, and
differ in the stamp and in the positions.
-/
import Mathlib.Data.Option.Basic
import Wiry.Frag.Defragment

set_option autoImplicit false

namespace Wiry.Frag

open Wiry.Packet Wiry.Recency

variable {L : Layers} {link : ProtoId}

/-! ## The datagrams a run completes -/

/-- The frame of a complete piece. -/
def Piece.frame : Piece → Option Bytes
  | .Complete _ frame => some frame
  | _ => none

/-- The datagrams among the pieces. -/
def complete_frames (pieces : List Piece) : List Bytes := pieces.filterMap Piece.frame

theorem complete_frames_append (ps qs : List Piece) :
    complete_frames (ps ++ qs) = complete_frames ps ++ complete_frames qs := List.filterMap_append

@[simp] theorem complete_frames_spill (g : Group) : complete_frames (spill g) = [] := by
  rw [complete_frames, spill, List.filterMap_eq_nil_iff]
  intro p hp
  obtain ⟨pos, -, rfl⟩ := List.mem_map.1 hp
  rfl

/-- Spilled groups complete nothing. -/
theorem complete_frames_spills (gone : List (Key × Group)) :
    complete_frames (gone.flatMap fun g => spill g.2) = [] := by
  induction gone with
  | nil => rfl
  | cons g gone ih => rw [List.flatMap_cons, complete_frames_append, complete_frames_spill, ih]; rfl

theorem complete_frames_drained (r : Reassembler) (keys : List Key) :
    complete_frames (r.drained keys) = [] := by
  induction keys with
  | nil => rfl
  | cons k keys ih =>
    have hcons : r.drained (k :: keys) = (r.groups.lookup k).elim [] spill ++ r.drained keys := rfl
    rw [hcons, complete_frames_append, ih]
    cases r.groups.lookup k with
    | none => rfl
    | some g => exact congrArg (· ++ []) (complete_frames_spill g)

theorem complete_frames_closed (g : Group) : complete_frames (closed g) = g.assemble.toList := by
  unfold closed
  cases g.assemble with
  | none => exact complete_frames_spill g
  | some frame => rfl

/-- A frame carries a fragment of `k`. -/
def has_key (L : Layers) (link : ProtoId) (k : Key) (buf : Bytes) : Bool :=
  (inspect L buf link).any fun f => f.key = k

theorem has_key_of_some {buf : Bytes} {f : Found} (hf : inspect L buf link = some f) (k : Key) :
    has_key L link k buf = decide (f.key = k) := by
  unfold has_key
  rw [hf]
  rfl

theorem has_key_of_none {buf : Bytes} (hf : inspect L buf link = none) (k : Key) :
    has_key L link k buf = false := by
  unfold has_key
  rw [hf]
  rfl

theorem has_key_iff {k : Key} {buf : Bytes} :
    has_key L link k buf = true ↔ ∃ f, inspect L buf link = some f ∧ f.key = k := by
  simp [has_key, Option.any_eq_true]

/-- The datagrams one push hands back, under the key of the fragment pushed. -/
def emitted (L : Layers) (link : ProtoId) (r : Reassembler) (p : ℕ × Bytes) : List (Key × Bytes) :=
  match inspect L p.2 link with
  | none => []
  | some f =>
    (complete_frames ((r.push L link p.1 p.2).out.drop r.out.length)).map fun frame => (f.key, frame)

/-- The datagrams a run completes from the state `r` on. -/
def completions_from (L : Layers) (link : ProtoId) : Reassembler → List (ℕ × Bytes) →
    List (Key × Bytes)
  | _, [] => []
  | r, p :: ps => emitted L link r p ++ completions_from L link (r.push L link p.1 p.2) ps

/-- The datagrams a run completes, each under its key. -/
def completions (L : Layers) (link : ProtoId) (ps : List (ℕ × Bytes)) : List (Key × Bytes) :=
  completions_from L link {} ps

/-- One more frame adds the completions it causes. -/
theorem completions_append_singleton (ps : List (ℕ × Bytes)) (p : ℕ × Bytes) :
    completions L link (ps ++ [p]) =
      completions L link ps ++ emitted L link (pushes L link ps) p := by
  have hgeneral : ∀ r : Reassembler, completions_from L link r (ps ++ [p]) =
      completions_from L link r ps ++
        emitted L link (ps.foldl (fun r p => r.push L link p.1 p.2) r) p := by
    induction ps with
    | nil => exact fun r => List.append_nil _
    | cons q ps ih =>
      intro r
      rw [List.cons_append, completions_from, completions_from, ih, List.foldl_cons,
        List.append_assoc]
  exact hgeneral {}

/-! ## What one push does -/

namespace Reassembler

variable {r : Reassembler}

theorem lookup_taken_of_ne {k : Key} {f : Found} (hne : k ≠ f.key) (pos : ℕ) (data : Bytes) :
    (r.taken pos f data).groups.lookup k = r.groups.lookup k := by
  have hentry := lookup_entry_of_ne (r := r) hne
  unfold taken
  by_cases hc : ((r.entry f.key).2.take pos f data).complete = true
  · rw [fed_of_complete hc]
    show ((AList.insert f.key _ (r.entry f.key).1.groups).erase f.key).lookup k = _
    rw [AList.lookup_erase_ne hne, AList.lookup_insert_ne hne, hentry]
  · rw [fed_of_not_complete hc]
    show (AList.insert f.key _ (r.entry f.key).1.groups).lookup k = _
    rw [AList.lookup_insert_ne hne, hentry]

theorem lookup_taken (r : Reassembler) (pos : ℕ) (f : Found) (data : Bytes) :
    (r.taken pos f data).groups.lookup f.key =
      if ((r.entry f.key).2.take pos f data).complete then none
      else some ((r.entry f.key).2.take pos f data) := by
  unfold taken
  by_cases hc : ((r.entry f.key).2.take pos f data).complete = true
  · rw [fed_of_complete hc, if_pos hc]
    exact AList.lookup_erase _ _
  · rw [fed_of_not_complete hc, if_neg hc]
    exact AList.lookup_insert _

theorem out_taken (r : Reassembler) (pos : ℕ) (f : Found) (data : Bytes) :
    (r.taken pos f data).out =
      r.out ++ if ((r.entry f.key).2.take pos f data).complete then
        closed ((r.entry f.key).2.take pos f data) else [] := by
  unfold taken
  by_cases hc : ((r.entry f.key).2.take pos f data).complete = true
  · rw [fed_of_complete hc, if_pos hc, out_entry]
  · rw [fed_of_not_complete hc, if_neg hc, List.append_nil]
    exact out_entry r f.key

theorem evict_of_not_crowded (h : ¬ r.crowded) : r.evict = r.sweep := by
  have hloop : r.evict_loop r.order = r := by
    cases r.order with
    | nil => rfl
    | cons e rest => exact if_neg h
  unfold evict
  rw [hloop]

end Reassembler

/-- The datagram a fragment completes, where it is taken in and completes one. -/
def delivered (g : Group) (pos : ℕ) (f : Found) (data : Bytes) : List Bytes :=
  if (g.take pos f data).complete then (g.take pos f data).assemble.toList else []

theorem emitted_of_none {r : Reassembler} {p : ℕ × Bytes} (h : inspect L p.2 link = none) :
    emitted L link r p = [] := by
  unfold emitted
  rw [h]

theorem emitted_of_refuses {r : Reassembler} {p : ℕ × Bytes} {f : Found}
    (h : inspect L p.2 link = some f) (href : r.refuses f) : emitted L link r p = [] := by
  unfold emitted Reassembler.push
  rw [h]
  dsimp only
  rw [Reassembler.push_fragment_of_refuses href]
  dsimp only
  rw [List.drop_left]
  rfl

/-- A push hands back what its own group completes, whatever it evicts. -/
theorem emitted_of_not_refuses {r : Reassembler} {p : ℕ × Bytes} {f : Found} (hr : r.Kept)
    (h : inspect L p.2 link = some f) (href : ¬ r.refuses f) :
    emitted L link r p =
      (delivered (r.entry f.key).2 p.1 f (f.data p.2)).map fun frame => (f.key, frame) := by
  obtain ⟨-, -, gone, hout, -⟩ := Reassembler.evict_spec (hr.taken p.1 f (f.data p.2))
  unfold emitted Reassembler.push
  rw [h]
  dsimp only
  rw [Reassembler.push_fragment_of_not_refuses href, hout, Reassembler.out_taken,
    List.append_assoc, List.drop_left, complete_frames_append, complete_frames_spills,
    List.append_nil]
  unfold delivered
  split
  · rw [complete_frames_closed]
  · rfl

/-! ## The completions are those of the pieces -/

/-- A push adds its own completions to those before it. -/
theorem complete_frames_push {r : Reassembler} (p : ℕ × Bytes) (hr : r.Kept) :
    complete_frames (r.push L link p.1 p.2).out =
      complete_frames r.out ++ (emitted L link r p).map Prod.snd := by
  -- No fragment, a refused one, or one that is taken and then swept.
  cases hf : inspect L p.2 link with
  | none =>
    rw [emitted_of_none hf]
    unfold Reassembler.push
    rw [hf]
    exact complete_frames_append _ _
  | some f =>
    by_cases href : r.refuses f
    · rw [emitted_of_refuses hf href]
      unfold Reassembler.push
      rw [hf]
      dsimp only
      rw [Reassembler.push_fragment_of_refuses href]
      exact complete_frames_append _ _
    -- The eviction emits no whole datagram, so only the group itself may complete.
    · obtain ⟨-, -, gone, hout, -⟩ := Reassembler.evict_spec (hr.taken p.1 f (f.data p.2))
      rw [emitted_of_not_refuses hr hf href]
      unfold Reassembler.push
      rw [hf]
      dsimp only
      rw [Reassembler.push_fragment_of_not_refuses href, hout, Reassembler.out_taken,
        complete_frames_append, complete_frames_append, complete_frames_spills, List.append_nil,
        List.map_map]
      congr 1
      unfold delivered
      split
      · rw [complete_frames_closed]
        exact (List.map_id _).symm
      · rfl

theorem complete_frames_out (ps : List (ℕ × Bytes)) :
    complete_frames (pushes L link ps).out = (completions L link ps).map Prod.snd := by
  refine pushes_induction
    (P := fun ps r => complete_frames r.out = (completions L link ps).map Prod.snd) rfl ?_ ps
  intro ps p ih
  rw [complete_frames_push p (pushes_kept L link ps).1, ih, completions_append_singleton,
    List.map_append]

/-- The datagrams `defragment` hands back are those the run completes. -/
theorem complete_frames_defragment (L : Layers) (frames : List Bytes) (link : ProtoId)
    (keys : List Key) :
    (complete_frames (defragment L frames link keys)).Perm
      ((completions L link (numbered frames)).map Prod.snd) := by
  have hperm := ((pushes L link (numbered frames)).finish_perm keys).filterMap Piece.frame
  have hdrained := complete_frames_drained (pushes L link (numbered frames)) keys
  have hout : complete_frames (pushes L link (numbered frames)).out =
      (completions L link (numbered frames)).map Prod.snd := complete_frames_out (numbered frames)
  rw [List.filterMap_append] at hperm
  unfold complete_frames at hdrained hout
  rw [hdrained, List.append_nil, hout] at hperm
  exact hperm

/-- A datagram is completed under the key of every fragment it was assembled from. -/
theorem completions_sound (ps : List (ℕ × Bytes)) :
    ∀ c ∈ completions L link ps, ∃ g run, Gathered L link ps c.1 g run ∧ g.complete = true ∧
      g.assemble = some c.2 := by
  -- The last push completes at most its own datagram, from the fragments gathered for it.
  induction ps using List.reverseRecOn with
  | nil => exact nofun
  | append_singleton ps p ih =>
    intro c hc
    rw [completions_append_singleton] at hc
    rcases List.mem_append.1 hc with hc | hc
    · obtain ⟨g, run, hg, hcomplete, hassemble⟩ := ih c hc
      exact ⟨g, run, hg.mono p, hcomplete, hassemble⟩
    · cases hf : inspect L p.2 link with
      | none => simp [emitted_of_none hf] at hc
      | some f =>
        by_cases href : (pushes L link ps).refuses f
        · simp [emitted_of_refuses hf href] at hc
        · have hkept := (pushes_kept L link ps).1
          rw [emitted_of_not_refuses hkept hf href] at hc
          obtain ⟨frame, hframe, rfl⟩ := List.mem_map.1 hc
          have htear : ¬ f.Teardrop := fun ht => href (.inl ht)
          -- before the push the group was gathered from a run, and the fragment extends it
          have hentry := (pushes_accounted L link ps).entry f.key
          obtain ⟨run, hrun⟩ := hentry.live _ _ (Reassembler.lookup_entry _ f.key)
          unfold delivered at hframe
          split at hframe
          · rename_i hcomplete
            exact ⟨_, _, hrun.take hf rfl htear, hcomplete, Option.mem_toList.1 hframe⟩
          · exact absurd hframe List.not_mem_nil

/-! ## Groups that hold the same -/

/-- Two groups that differ in their stamp and positions only. -/
structure Alike (g g' : Group) : Prop where
  head_eq : g.head = g'.head
  data_eq : g.data = g'.data
  got_eq : g.got = g'.got
  total_eq : g.total = g'.total
  count_eq : g.at_.length = g'.at_.length

namespace Alike

variable {g g' : Group}

theorem opened (seq seq' : ℕ) : Alike { seq := seq } { seq := seq' } := ⟨rfl, rfl, rfl, rfl, rfl⟩

/-- Groups that hold the same octets still do after the same fragment, whatever its position. -/
theorem take (h : Alike g g') (pos pos' : ℕ) (f : Found) (data : Bytes) :
    Alike (g.take pos f data) (g'.take pos' f data) where
  head_eq := by rw [Group.head_take, Group.head_take, h.head_eq]
  data_eq := by
    rw [Group.data_take, Group.data_take]
    unfold Group.absorb
    rw [h.got_eq, h.data_eq]
  got_eq := by
    rw [Group.got_take, Group.got_take]
    unfold Group.absorb
    rw [h.got_eq, h.data_eq]
  total_eq := by
    show (if f.more = false ∧ g.total.isNone then some _ else g.total) =
      if f.more = false ∧ g'.total.isNone then some _ else g'.total
    rw [h.total_eq]
  count_eq := by
    rw [Group.at_take, Group.at_take, List.length_append, List.length_append, h.count_eq]
    rfl

theorem complete_eq (h : Alike g g') : g.complete = g'.complete := by
  unfold Group.complete
  rw [h.head_eq, h.total_eq, h.got_eq]

theorem assemble_eq (h : Alike g g') : g.assemble = g'.assemble := by
  unfold Group.assemble
  rw [h.head_eq, h.data_eq]

theorem delivered_eq (h : Alike g g') (pos pos' : ℕ) (f : Found) (data : Bytes) :
    delivered g pos f data = delivered g' pos' f data := by
  unfold delivered
  rw [(h.take pos pos' f data).complete_eq, (h.take pos pos' f data).assemble_eq]

end Alike

/-! ## Two runs -/

/-- A state with groups of one key only has one group at most. -/
theorem length_keys_le_one {r : Reassembler} {k : Key}
    (h : ∀ k' g, r.groups.lookup k' = some g → k' = k) : r.groups.keys.length ≤ 1 := by
  have hsub : r.groups.keys ⊆ [k] := by
    intro k' hk'
    obtain ⟨g, hg⟩ := Option.isSome_iff_exists.1 (AList.lookup_isSome.2 hk')
    exact List.mem_singleton.2 (h k' g hg)
  exact (List.subperm_of_subset r.groups.keys_nodup hsub).length_le

/-- `s` is what `r` is to the key `k`, and nothing else. -/
structure Mirrors (k : Key) (r s : Reassembler) : Prop where
  slot : Option.Rel Alike (r.groups.lookup k) (s.groups.lookup k)
  only : ∀ k' g, s.groups.lookup k' = some g → k' = k

namespace Mirrors

variable {k : Key} {r s : Reassembler}

theorem init (k : Key) : Mirrors k {} {} := ⟨.none, fun k' g h => by simp at h⟩

/-- The group a fragment of the key meets is alike in both. -/
theorem entry (h : Mirrors k r s) : Alike (r.entry k).2 (s.entry k).2 := by
  have hslot := h.slot
  cases hr : r.groups.lookup k with
  | none =>
    rw [hr] at hslot
    cases hs : s.groups.lookup k with
    | some g => rw [hs] at hslot; exact nomatch hslot
    | none =>
      rw [Reassembler.entry_of_none hr, Reassembler.entry_of_none hs]
      exact .opened _ _
  | some g =>
    rw [hr] at hslot
    cases hs : s.groups.lookup k with
    | none => rw [hs] at hslot; exact nomatch hslot
    | some g' =>
      rw [hs] at hslot
      rw [Reassembler.entry_of_some hr, Reassembler.entry_of_some hs]
      cases hslot with
      | some halike => exact halike

theorem refuses_iff (h : Mirrors k r s) {f : Found} (hf : f.key = k) :
    r.refuses f ↔ s.refuses f := by
  unfold Reassembler.refuses
  rw [hf, h.entry.count_eq]

/-- A run that mirrors another on one key still does after a fragment of that key. -/
theorem taken (h : Mirrors k r s) {f : Found} (hf : f.key = k) (pos pos' : ℕ) (data : Bytes) :
    Mirrors k (r.taken pos f data) (s.taken pos' f data) where
  slot := by
    subst hf
    have htake := h.entry.take pos pos' f data
    rw [Reassembler.lookup_taken, Reassembler.lookup_taken, htake.complete_eq]
    split
    · exact .none
    · exact .some htake
  only := by
    intro k' g hg
    by_cases hk : k' = k
    · exact hk
    · rw [Reassembler.lookup_taken_of_ne (by rwa [hf])] at hg
      exact h.only k' g hg

/-- One group is never a crowd: it is as large in the other run. -/
theorem not_crowded (h : Mirrors k r s) (hr : r.Kept) (hs : s.Kept) (hroom : ¬ r.crowded) :
    ¬ s.crowded := by
  have hcount := length_keys_le_one h.only
  -- The mirrored run holds at most the one group of the key, which is no larger than its
  -- counterpart.
  have hbuffered : s.buffered ≤ r.buffered := by
    have hslot := h.slot
    rw [hs.buffered_eq]
    cases hlook : s.groups.lookup k with
    | none =>
      have hempty : s.groups = ∅ := by
        apply eq_empty_of_lookup
        intro k'
        by_cases hk : k' = k
        · rw [hk, hlook]
        · cases hk' : s.groups.lookup k' with
          | none => rfl
          | some g => exact absurd (h.only k' g hk') hk
      rw [hempty, weight_empty]
      exact Nat.zero_le _
    | some g' =>
      have hrest : s.groups.erase k = ∅ := by
        apply eq_empty_of_lookup
        intro k'
        by_cases hk : k' = k
        · rw [hk, AList.lookup_erase]
        · rw [AList.lookup_erase_ne hk]
          cases hk' : s.groups.lookup k' with
          | none => rfl
          | some g => exact absurd (h.only k' g hk') hk
      rw [weight_erase Group.held hlook, hrest, weight_empty, Nat.zero_add]
      rw [hlook] at hslot
      cases hr' : r.groups.lookup k with
      | none => rw [hr'] at hslot; exact nomatch hslot
      | some g =>
        rw [hr'] at hslot
        cases hslot with
        | some halike =>
          have hheld := hr.held_le hr'
          unfold Group.held at hheld ⊢
          rwa [← halike.data_eq]
  -- One group is within the count; the octets are within the limit since the full run's are.
  have hmax : (1 : ℕ) ≤ MAX_INFLIGHT := by decide
  unfold Reassembler.crowded at hroom ⊢
  omega

/-- A frame of the key, pushed in both runs. -/
theorem push_both (h : Mirrors k r s) (hr : r.Kept) (hs : s.Kept) {p q : ℕ × Bytes} {f : Found}
    (hpq : q.2 = p.2) (hf : inspect L p.2 link = some f) (hk : f.key = k)
    (hroom : ¬ r.refuses f → ¬ (r.taken p.1 f (f.data p.2)).crowded) :
    Mirrors k (r.push L link p.1 p.2) (s.push L link q.1 q.2) ∧
      emitted L link s q = emitted L link r p := by
  have hfq : inspect L q.2 link = some f := by rw [hpq, hf]
  -- Both runs refuse the fragment or both take it.
  by_cases href : r.refuses f
  · have hrefs := (h.refuses_iff hk).1 href
    rw [emitted_of_refuses hf href, emitted_of_refuses hfq hrefs]
    unfold Reassembler.push
    rw [hf, hfq]
    dsimp only
    rw [Reassembler.push_fragment_of_refuses href, Reassembler.push_fragment_of_refuses hrefs]
    exact ⟨⟨h.slot, h.only⟩, rfl⟩
  · have hrefs : ¬ s.refuses f := fun hs => href ((h.refuses_iff hk).2 hs)
    have htaken := h.taken hk p.1 q.1 (f.data p.2)
    -- Neither run has to make room, so the sweep leaves both as they are.
    have hroom' := htaken.not_crowded (hr.taken p.1 f _) (hs.taken q.1 f _) (hroom href)
    rw [emitted_of_not_refuses hr hf href, emitted_of_not_refuses hs hfq hrefs]
    unfold Reassembler.push
    rw [hf, hfq]
    dsimp only
    rw [hpq, Reassembler.push_fragment_of_not_refuses href,
      Reassembler.push_fragment_of_not_refuses hrefs,
      Reassembler.evict_of_not_crowded (hroom href), Reassembler.evict_of_not_crowded hroom']
    refine ⟨⟨?_, ?_⟩, ?_⟩
    · rw [Reassembler.groups_sweep, Reassembler.groups_sweep]
      exact htaken.slot
    · rw [Reassembler.groups_sweep]
      exact htaken.only
    · subst hk
      rw [h.entry.delivered_eq p.1 q.1]

/-- A frame of no key or another, pushed in the first run only. -/
theorem push_other (h : Mirrors k r s) {p : ℕ × Bytes} (hkey : has_key L link k p.2 = false)
    (hroom : ∀ f, inspect L p.2 link = some f → ¬ r.refuses f →
      ¬ (r.taken p.1 f (f.data p.2)).crowded) :
    Mirrors k (r.push L link p.1 p.2) s := by
  have hslot : (r.push L link p.1 p.2).groups.lookup k = r.groups.lookup k := by
    unfold Reassembler.push
    cases hf : inspect L p.2 link with
    | none => rfl
    | some f =>
      have hne : k ≠ f.key := by
        rw [has_key_of_some hf] at hkey
        exact fun heq => of_decide_eq_false hkey heq.symm
      dsimp only
      by_cases href : r.refuses f
      · rw [Reassembler.push_fragment_of_refuses href]
      · rw [Reassembler.push_fragment_of_not_refuses href,
          Reassembler.evict_of_not_crowded (hroom f hf href), Reassembler.groups_sweep,
          Reassembler.lookup_taken_of_ne hne]
  exact ⟨hslot ▸ h.slot, h.only⟩

end Mirrors

/-- A frame of another key completes nothing under this one. -/
theorem emitted_other {r : Reassembler} (hr : r.Kept) {k : Key} {p : ℕ × Bytes}
    (hkey : has_key L link k p.2 = false) :
    (emitted L link r p).filter (fun c => c.1 = k) = [] := by
  cases hf : inspect L p.2 link with
  | none => rw [emitted_of_none hf]; rfl
  | some f =>
    rw [has_key_of_some hf] at hkey
    by_cases href : r.refuses f
    · rw [emitted_of_refuses hf href]; rfl
    · rw [emitted_of_not_refuses hr hf href, List.filter_eq_nil_iff]
      intro c hc
      obtain ⟨frame, -, rfl⟩ := List.mem_map.1 hc
      exact fun heq => of_decide_eq_false hkey (of_decide_eq_true heq)

/-- A frame of this key completes nothing under another. -/
theorem emitted_own {r : Reassembler} (hr : r.Kept) {k : Key} {p : ℕ × Bytes}
    (hkey : has_key L link k p.2 = true) :
    (emitted L link r p).filter (fun c => c.1 = k) = emitted L link r p := by
  cases hf : inspect L p.2 link with
  | none => rw [has_key_of_none hf] at hkey; exact absurd hkey nofun
  | some f =>
    rw [has_key_of_some hf] at hkey
    by_cases href : r.refuses f
    · rw [emitted_of_refuses hf href]; rfl
    · rw [emitted_of_not_refuses hr hf href, List.filter_eq_self]
      intro c hc
      obtain ⟨frame, -, rfl⟩ := List.mem_map.1 hc
      exact hkey

/-- A run that never has anything to evict. -/
def Within (L : Layers) (link : ProtoId) (ps : List (ℕ × Bytes)) : Prop :=
  ∀ qs p, qs ++ [p] <+: ps → ∀ f, inspect L p.2 link = some f → ¬ (pushes L link qs).refuses f →
    ¬ ((pushes L link qs).taken p.1 f (f.data p.2)).crowded

/-- The two runs go together: `qs` holds the frames of the key, at positions of its own. -/
theorem runs_mirror {k : Key} (ps : List (ℕ × Bytes)) (hroom : Within L link ps) :
    ∀ qs : List (ℕ × Bytes), qs.map Prod.snd = (ps.map Prod.snd).filter (has_key L link k) →
      Mirrors k (pushes L link ps) (pushes L link qs) ∧
        (completions L link ps).filter (fun c => c.1 = k) = completions L link qs := by
  induction ps using List.reverseRecOn with
  | nil =>
    intro qs hqs
    obtain rfl : qs = [] := List.map_eq_nil_iff.1 hqs
    exact ⟨.init k, rfl⟩
  | append_singleton ps p ih =>
    intro qs hqs
    have hwithin : Within L link ps := fun qs' p' hpre =>
      hroom qs' p' (hpre.trans (List.prefix_append ps [p]))
    have hlast := hroom ps p (List.prefix_refl _)
    have hkept := (pushes_kept L link ps).1
    rw [List.map_append, List.filter_append] at hqs
    by_cases hkey : has_key L link k p.2 = true
    · -- both runs push the frame
      have hone : ([p].map Prod.snd).filter (has_key L link k) = [p.2] := by simp [hkey]
      rw [hone] at hqs
      obtain ⟨qs', tail, rfl, hqs', htail⟩ := List.map_eq_append_iff.1 hqs
      obtain ⟨q, rfl, hq⟩ := List.map_eq_singleton_iff.1 htail
      obtain ⟨hmirrors, hcompletions⟩ := ih hwithin qs' hqs'
      obtain ⟨f, hf, hk⟩ := has_key_iff.1 hkey
      obtain ⟨hpushed, hemitted⟩ :=
        hmirrors.push_both hkept (pushes_kept L link qs').1 hq hf hk (hlast f hf)
      rw [pushes_append_singleton, pushes_append_singleton, completions_append_singleton,
        completions_append_singleton, List.filter_append, hcompletions, hemitted,
        emitted_own hkept hkey]
      exact ⟨hpushed, rfl⟩
    · have hkey' : has_key L link k p.2 = false := Bool.eq_false_iff.2 hkey
      have hnone : ([p].map Prod.snd).filter (has_key L link k) = [] := by simp [hkey']
      rw [hnone, List.append_nil] at hqs
      obtain ⟨hmirrors, hcompletions⟩ := ih hwithin qs hqs
      rw [pushes_append_singleton, completions_append_singleton, List.filter_append,
        emitted_other hkept hkey', List.append_nil]
      exact ⟨hmirrors.push_other hkey' hlast, hcompletions⟩

theorem map_snd_numbered (frames : List Bytes) : (numbered frames).map Prod.snd = frames := by
  unfold numbered
  rw [List.map_map]
  exact List.zipIdx_map_fst 0 frames

/-- **Datagrams do not interfere.** A run that never has anything to evict completes under each key
exactly what the frames of that key complete alone, in the same order; what it completes is what the
pieces hold; and a datagram completed under a key is assembled from fragments of that key. -/
theorem datagrams_do_not_interfere (L : Layers) (frames : List Bytes) (link : ProtoId)
    (hroom : Within L link (numbered frames)) (k : Key) :
    (completions L link (numbered frames)).filter (fun c => c.1 = k) =
        completions L link (numbered (frames.filter (has_key L link k))) ∧
      (∀ keys, (complete_frames (defragment L frames link keys)).Perm
        ((completions L link (numbered frames)).map Prod.snd)) ∧
      (∀ keys, (complete_frames (defragment L (frames.filter (has_key L link k)) link keys)).Perm
        (((completions L link (numbered frames)).filter fun c => c.1 = k).map Prod.snd)) ∧
      ∀ c ∈ completions L link (numbered frames), ∃ g run,
        Gathered L link (numbered frames) c.1 g run ∧ g.complete = true ∧
          g.assemble = some c.2 := by
  have hruns := (runs_mirror (k := k) (numbered frames) hroom
    (numbered (frames.filter (has_key L link k))) (by rw [map_snd_numbered, map_snd_numbered])).2
  refine ⟨hruns, complete_frames_defragment L frames link, ?_, completions_sound _⟩
  intro keys
  rw [hruns]
  exact complete_frames_defragment L _ link keys

/-! ## Short runs -/

/-- At most `n` groups, each of what a datagram may hold. -/
structure Small (n : ℕ) (r : Reassembler) : Prop where
  count_le : r.groups.keys.length ≤ n
  held_le : ∀ k g, r.groups.lookup k = some g → g.held ≤ MAX_DATAGRAM

theorem Group.held_take_le {g : Group} (hsep : g.got.Separated) (hg : g.held ≤ MAX_DATAGRAM)
    (pos : ℕ) {f : Found} (htear : ¬ f.Teardrop) (buf : Bytes) :
    (g.take pos f (f.data buf)).held ≤ MAX_DATAGRAM := by
  have hlen : (f.data buf).length ≤ f.data_end - f.data_at := by
    unfold Found.data slice
    rw [List.length_drop, List.length_take]
    omega
  unfold Found.Teardrop at htear
  unfold Group.held at hg ⊢
  rw [Group.data_take, length_absorb hsep]
  omega

namespace Small

variable {n : ℕ} {r : Reassembler}

/-- One more fragment fills at most one more datagram's room. -/
theorem taken (h : Small n r) (hr : r.Kept) (pos : ℕ) {f : Found} (htear : ¬ f.Teardrop)
    (buf : Bytes) : Small (n + 1) (r.taken pos f (f.data buf)) where
  -- One more key at most, whether the group is opened, grown or completed.
  count_le := by
    have hcount := h.count_le
    have hentry : (r.entry f.key).1.groups.keys.length ≤ n + 1 := by
      cases hlook : r.groups.lookup f.key with
      | some g =>
        rw [Reassembler.entry_of_some hlook]
        exact Nat.le_succ_of_le hcount
      | none =>
        rw [Reassembler.entry_of_none hlook, length_keys]
        dsimp only
        rw [weight_new (fun _ => 1) hlook, ← length_keys]
        omega
    have hreplace := weight_replace (fun _ => 1) (Reassembler.lookup_entry r f.key)
      ((r.entry f.key).2.take pos f (f.data buf))
    rw [← length_keys, ← length_keys] at hreplace
    unfold Reassembler.taken
    by_cases hc : ((r.entry f.key).2.take pos f (f.data buf)).complete = true
    · rw [Reassembler.fed_of_complete hc]
      have herase := weight_erase (fun _ => 1)
        (AList.lookup_insert (a := f.key) (b := (r.entry f.key).2.take pos f (f.data buf))
          (r.entry f.key).1.groups)
      rw [← length_keys, ← length_keys] at herase
      dsimp only
      omega
    · rw [Reassembler.fed_of_not_complete hc]
      unfold Reassembler.stored
      dsimp only
      omega
  -- The group of the fragment is within one datagram; the others are as they were.
  held_le := by
    intro k g hg
    by_cases hk : k = f.key
    · subst hk
      rw [Reassembler.lookup_taken] at hg
      split at hg
      · exact absurd hg nofun
      · obtain rfl := Option.some.inj hg
        have hlook := Reassembler.lookup_entry r f.key
        apply Group.held_take_le ((hr.entry f.key).separated _ _ hlook) _ pos htear
        cases hold : r.groups.lookup f.key with
        | some g =>
          rw [Reassembler.entry_of_some hold]
          exact h.held_le _ _ hold
        | none =>
          rw [Reassembler.entry_of_none hold]
          exact Nat.zero_le _
    · rw [Reassembler.lookup_taken_of_ne hk] at hg
      exact h.held_le k g hg

/-- The same for a whole push: a frame that is no fragment changes nothing, one that tears its group
down makes room. -/
theorem push (h : Small n r) (hr : r.Kept) (L : Layers) (link : ProtoId) (p : ℕ × Bytes) :
    Small (n + 1) (r.push L link p.1 p.2) := by
  have hmono : Small (n + 1) r := ⟨Nat.le_succ_of_le h.count_le, h.held_le⟩
  unfold Reassembler.push
  cases hf : inspect L p.2 link with
  | none => exact ⟨hmono.count_le, hmono.held_le⟩
  | some f =>
    dsimp only
    by_cases href : r.refuses f
    · rw [Reassembler.push_fragment_of_refuses href]
      exact ⟨hmono.count_le, hmono.held_le⟩
    · have htaken := h.taken hr p.1 (fun ht => href (.inl ht)) p.2
      obtain ⟨-, -, gone, -, ⟨order', hev⟩, -⟩ :=
        Reassembler.evict_spec (hr.taken p.1 f (f.data p.2))
      rw [Reassembler.push_fragment_of_not_refuses href]
      refine ⟨Nat.le_trans hev.length_keys_le htaken.count_le, ?_⟩
      intro k g hg
      exact htaken.held_le k g (hev.lookup_of_left hg).1

theorem not_crowded (h : Small n r) (hr : r.Kept) (hn : n ≤ 256) : ¬ r.crowded := by
  have hcount := h.count_le
  have hweight := weight_le Group.held h.held_le
  have hproduct : r.groups.keys.length * MAX_DATAGRAM ≤ 256 * MAX_DATAGRAM :=
    Nat.mul_le_mul_right _ (by omega)
  have hbounds : 256 ≤ MAX_INFLIGHT ∧ 256 * MAX_DATAGRAM ≤ MAX_BUFFERED := by decide
  have hbuffered := hr.buffered_eq
  unfold Reassembler.crowded
  omega

end Small

/-- A short run cannot fill the buffers, whatever its frames are. -/
theorem within_of_length_le {ps : List (ℕ × Bytes)} (h : ps.length ≤ 256) : Within L link ps := by
  have hsmall : ∀ qs, Small qs.length (pushes L link qs) := by
    intro qs
    refine pushes_induction (P := fun qs r => Small qs.length r) ⟨Nat.le_refl _, ?_⟩ ?_ qs
    · intro k g hg
      simp at hg
    · intro qs p ih
      rw [List.length_append]
      exact ih.push (pushes_kept L link qs).1 L link p
  intro qs p hpre f hf href
  have hkept := (pushes_kept L link qs).1
  have hlen := hpre.length_le
  rw [List.length_append, List.length_singleton] at hlen
  have htaken := (hsmall qs).taken hkept p.1 (fun ht => href (.inl ht)) p.2
  exact htaken.not_crowded (hkept.taken p.1 f _) (by omega)

theorem datagrams_do_not_interfere_sample :
    ∃ k : Key, k.id = 7 ∧
      (completions Layers.core .Ipv4 (numbered sample_frames)).map Prod.fst = [k] ∧
      (completions Layers.core .Ipv4 (numbered sample_frames)).filter (fun c => c.1 = k) =
        completions Layers.core .Ipv4
          (numbered (sample_frames.filter (has_key Layers.core .Ipv4 k))) := by
  refine ⟨⟨wide [10, 0, 0, 1], wide [10, 0, 0, 2], 7, 17, false⟩, rfl, by decide +kernel, ?_⟩
  exact (datagrams_do_not_interfere Layers.core sample_frames .Ipv4
    (within_of_length_le (by decide)) _).1

end Wiry.Frag
