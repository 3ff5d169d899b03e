/-
`defragment` accounts for every frame it is given, and the state between two
pushes stays within its bounds.

`push` takes `usize` differences. `pushes_checked` is the run with each of them
checked, `none` where one would wrap; it never is.
-/
import Wiry.Frag.Accounting

set_option autoImplicit false

namespace Wiry.Frag

open Wiry.Packet Wiry.Recency

/-! ## Subtractions -/

/-- `a - b` of `usize`. -/
def sub_checked (a b : ℕ) : Option ℕ := if b ≤ a then some (a - b) else none

theorem sub_checked_of_le {a b : ℕ} (h : b ≤ a) : sub_checked a b = some (a - b) := if_pos h

namespace Reassembler

/-- `fed`, its differences checked. -/
def fed_checked (r : Reassembler) (key : Key) (g g' : Group) : Option Reassembler :=
  (sub_checked g'.data.length g.data.length).bind fun grown =>
    let r := { r with
      groups := r.groups.insert key g'
      buffered := r.buffered + grown }
    if g'.complete then
      (sub_checked r.buffered g'.data.length).map fun left =>
        { r with
          groups := r.groups.erase key
          buffered := left
          out := r.out ++ closed g' }
    else some r

/-- `evict_turn`, its difference checked. -/
def evict_turn_checked (r : Reassembler) (stamp : ℕ) (key : Key) (rest : List (ℕ × Key)) :
    Option Reassembler :=
  match r.groups.lookup key with
  | some g =>
    if g.seq = stamp then
      (sub_checked r.buffered g.data.length).map fun left =>
        { r with
          order := rest
          groups := r.groups.erase key
          buffered := left
          out := r.out ++ spill g }
    else some { r with order := rest }
  | none => some { r with order := rest }

/-- `evict_loop` of checked turns. -/
def evict_loop_checked (r : Reassembler) : List (ℕ × Key) → Option Reassembler
  | [] => some r
  | (stamp, key) :: rest =>
    if r.crowded then (r.evict_turn_checked stamp key rest).bind (·.evict_loop_checked rest)
    else some r

/-- `push_fragment` with every difference checked; the one against `MAX_DATAGRAM` is only taken
where the offset is below it. -/
def push_fragment_checked (r : Reassembler) (pos : ℕ) (f : Found) (data : Bytes) :
    Option Reassembler :=
  if f.at_ ≥ MAX_DATAGRAM then some { r with out := r.out ++ [.Incomplete pos] }
  else
    (sub_checked f.data_end f.data_at).bind fun len =>
      (sub_checked MAX_DATAGRAM f.at_).bind fun room =>
        if len > room then some { r with out := r.out ++ [.Incomplete pos] }
        else
          let (r, g) := r.entry f.key
          if g.at_.length ≥ MAX_FRAGS then some { r with out := r.out ++ [.Incomplete pos] }
          else
            (r.fed_checked f.key g (g.take pos f data)).bind fun r =>
              (r.evict_loop_checked r.order).map sweep

/-- `push` with every difference checked. -/
def push_checked (L : Layers) (link : ProtoId) (r : Reassembler) (pos : ℕ) (buf : Bytes) :
    Option Reassembler :=
  match inspect L buf link with
  | none => some { r with out := r.out ++ [.Whole pos] }
  | some f => r.push_fragment_checked pos f (f.data buf)

variable {r : Reassembler}

/-- The held octets are counted without overflow when a group grows. -/
theorem fed_checked_eq (h : r.Kept) {key : Key} {g g' : Group} (hg : Grows r key g g') :
    r.fed_checked key g g' = some (r.fed key g g') := by
  have hgrown : g.data.length ≤ g'.data.length := hg.held_le
  have hheld : g'.data.length ≤ r.buffered + (g'.data.length - g.data.length) :=
    (h.stored hg).held_le (AList.lookup_insert _)
  unfold fed_checked
  rw [sub_checked_of_le hgrown, Option.bind_some]
  dsimp only
  by_cases hc : g'.complete = true
  · rw [if_pos hc, sub_checked_of_le hheld, Option.map_some, fed_of_complete hc]
    rfl
  · rw [if_neg hc, fed_of_not_complete hc]
    rfl

/-- Nor does the count underflow when one is evicted. -/
theorem evict_turn_checked_eq (h : r.Kept) (stamp : ℕ) (key : Key) (rest : List (ℕ × Key)) :
    r.evict_turn_checked stamp key rest = some (r.evict_turn stamp key rest) := by
  unfold evict_turn_checked evict_turn
  cases hlook : r.groups.lookup key with
  | none => rfl
  | some g =>
    have hheld : g.data.length ≤ r.buffered := h.held_le hlook
    dsimp only
    rw [sub_checked_of_le hheld, Option.map_some]
    by_cases hs : g.seq = stamp
    · rw [if_pos hs, if_pos hs]
    · rw [if_neg hs, if_neg hs]

/-- Nor over the whole eviction. -/
theorem evict_loop_checked_eq (order : List (ℕ × Key)) (h : r.Kept) (horder : r.order = order) :
    r.evict_loop_checked order = some (r.evict_loop order) := by
  induction order generalizing r with
  | nil => rfl
  | cons e rest ih =>
    obtain ⟨stamp, key⟩ := e
    rw [evict_loop_checked, evict_loop]
    by_cases hc : r.crowded
    · rw [if_pos hc, if_pos hc, evict_turn_checked_eq h, Option.bind_some]
      exact ih (h.evict_turn horder) (order_evict_turn r stamp key rest)
    · rw [if_neg hc, if_neg hc]

/-- A fragment is taken without overflow. -/
theorem push_fragment_checked_eq (h : r.Kept) (pos : ℕ) {f : Found} (hf : f.data_at ≤ f.data_end)
    (data : Bytes) :
    r.push_fragment_checked pos f data = some (r.push_fragment pos f data) := by
  unfold push_fragment_checked push_fragment
  -- The source's guards in its order: the offset, the end, the number of fragments.
  by_cases hat : f.at_ ≥ MAX_DATAGRAM
  · have htear : f.Teardrop := .inl hat
    rw [if_pos hat, if_pos htear]
  · rw [if_neg hat, sub_checked_of_le hf, Option.bind_some,
      sub_checked_of_le (Nat.le_of_not_ge hat), Option.bind_some]
    by_cases hroom : f.data_end - f.data_at > MAX_DATAGRAM - f.at_
    · have htear : f.Teardrop := .inr hroom
      rw [if_pos hroom, if_pos htear]
    · have htear : ¬ f.Teardrop := not_or.2 ⟨hat, hroom⟩
      rw [if_neg hroom, if_neg htear]
      dsimp only
      by_cases hfull : (r.entry f.key).2.at_.length ≥ MAX_FRAGS
      · rw [if_pos hfull, if_pos hfull]
      · have hgrows := h.grows pos f data
        have hfed := (h.entry f.key).fed hgrows
        rw [if_neg hfull, if_neg hfull, fed_checked_eq (h.entry f.key) hgrows, Option.bind_some,
          evict_loop_checked_eq _ hfed rfl]
        rfl

/-- No difference a push takes wraps. -/
theorem push_checked_eq (h : r.Kept) (L : Layers) (link : ProtoId) (pos : ℕ) (buf : Bytes) :
    r.push_checked L link pos buf = some (r.push L link pos buf) := by
  unfold push_checked push
  cases hf : inspect L buf link with
  | none => rfl
  | some f => exact push_fragment_checked_eq h pos (inspect_bounds hf).1 _

end Reassembler

/-- `pushes` with every difference checked. -/
def pushes_checked (L : Layers) (link : ProtoId) (ps : List (ℕ × Bytes)) : Option Reassembler :=
  ps.foldlM (fun r p => r.push_checked L link p.1 p.2) {}

/-- No run of pushes overflows. -/
theorem pushes_checked_eq (L : Layers) (link : ProtoId) (ps : List (ℕ × Bytes)) :
    pushes_checked L link ps = some (pushes L link ps) := by
  refine pushes_induction (P := fun ps r => pushes_checked L link ps = some r) rfl ?_ ps
  intro ps p ih
  unfold pushes_checked at ih ⊢
  rw [List.foldlM_append, ih]
  show ([p].foldlM (fun r p => Reassembler.push_checked L link r p.1 p.2) (pushes L link ps)) = _
  rw [List.foldlM_cons, Reassembler.push_checked_eq (pushes_kept L link ps).1]
  rfl

/-! ## The end of the run -/

namespace Reassembler

variable {r : Reassembler}

/-- What draining the hash map adds, key by key. -/
def drained (r : Reassembler) (keys : List Key) : List Piece :=
  keys.flatMap fun k => (r.groups.lookup k).elim [] spill

theorem foldl_finish_turn (r : Reassembler) (keys : List Key) (out : List Piece) :
    keys.foldl r.finish_turn out = out ++ r.drained keys := by
  induction keys generalizing out with
  | nil => exact (List.append_nil out).symm
  | cons k keys ih =>
    rw [List.foldl_cons, ih]
    unfold finish_turn drained
    rw [List.flatMap_cons]
    cases r.groups.lookup k with
    | none => rfl
    | some g => exact List.append_assoc _ _ _

instance : Std.Total by_at := ⟨fun p q => Nat.le_total p.at_ q.at_⟩

instance : IsTrans Piece by_at := ⟨fun _ _ _ => Nat.le_trans⟩

/-- Drained pieces at one position are one piece, so sorting leaves nothing of their order. -/
theorem sorted_drained {keys keys' : List Key} (h : keys'.Perm keys) :
    (r.drained keys').insertionSort by_at = (r.drained keys).insertionSort by_at := by
  have hperm : (r.drained keys').Perm (r.drained keys) := h.flatMap_right _
  have hincomplete : ∀ p ∈ r.drained keys, p = .Incomplete p.at_ := by
    intro p hp
    obtain ⟨k, -, hp⟩ := List.mem_flatMap.1 hp
    cases hlook : r.groups.lookup k with
    | none => simp [hlook] at hp
    | some g =>
      rw [hlook] at hp
      obtain ⟨pos, -, rfl⟩ := List.mem_map.1 hp
      rfl
  apply List.Perm.eq_of_pairwise _ (List.pairwise_insertionSort by_at _)
    (List.pairwise_insertionSort by_at _)
  · exact (List.perm_insertionSort _ _).trans (hperm.trans (List.perm_insertionSort _ _).symm)
  · intro p q hp hq hpq hqp
    rw [hincomplete p (hperm.subset ((List.mem_insertionSort _).1 hp)),
      hincomplete q ((List.mem_insertionSort _).1 hq), Nat.le_antisymm hpq hqp]

theorem finish_eq_foldr (r : Reassembler) (keys : List Key) :
    r.finish keys =
      r.out.foldr (List.orderedInsert by_at) ((r.drained keys).insertionSort by_at) := by
  unfold finish
  rw [foldl_finish_turn]
  exact List.foldr_append

/-- **The order the hash map drains in does not show.** -/
theorem finish_congr {keys keys' : List Key} (h : keys'.Perm keys) :
    r.finish keys' = r.finish keys := by
  rw [finish_eq_foldr, finish_eq_foldr, sorted_drained h]

theorem finish_perm (r : Reassembler) (keys : List Key) :
    (r.finish keys).Perm (r.out ++ r.drained keys) := by
  unfold finish
  rw [foldl_finish_turn]
  exact List.perm_insertionSort _ _

end Reassembler

/-! ## What a run accounts for -/

section Fates

variable {L : Layers} {link : ProtoId} {ps : List (ℕ × Bytes)} {r : Reassembler}

/-- Draining the live groups accounts for what they hold. -/
theorem Accounted.drained (h : Accounted L link ps r) {keys : List Key}
    (hkeys : keys.Perm r.groups.keys) :
    ∃ fates : List Fate, r.out ++ r.drained keys = fates.map Fate.piece ∧
      (∀ t ∈ fates, t.Sound L link ps) ∧
      mentioned fates = (ps.map Prod.fst : List ℕ) := by
  obtain ⟨old, hold, hsound, hsum⟩ := h.out
  let rest := keys.flatMap fun k =>
    (r.groups.lookup k).elim [] fun g => g.at_.map Fate.incomplete
  -- What is drained are the groups in the order of the keys, each with its fate.
  have hpieces : r.drained keys = rest.map Fate.piece := by
    rw [List.map_flatMap]
    unfold Reassembler.drained
    congr 1
    funext k
    cases r.groups.lookup k with
    | none => rfl
    | some g => exact spill_eq g
  -- Their positions are those the groups hold, whatever the order.
  have hmentioned : mentioned rest = weight Group.positions r.groups := by
    rw [weight_eq_sum Group.positions hkeys]
    show mentioned (keys.flatMap _) = _
    clear hkeys hpieces rest
    induction keys with
    | nil => rfl
    | cons k keys ih =>
      rw [List.flatMap_cons, mentioned_append, ih, List.map_cons, List.sum_cons]
      congr 1
      cases r.groups.lookup k with
      | none => rfl
      | some g => exact mentioned_spilled g
  refine ⟨old ++ rest, ?_, ?_, ?_⟩
  · rw [hold, hpieces, List.map_append]
  · intro t ht
    rcases List.mem_append.1 ht with ht | ht
    · exact hsound t ht
    · obtain ⟨k, -, ht⟩ := List.mem_flatMap.1 ht
      cases hlook : r.groups.lookup k with
      | none => simp [hlook] at ht
      | some g =>
        rw [hlook] at ht
        obtain ⟨run, hrun⟩ := h.live k g hlook
        exact hrun.spilled t ht
  · rw [mentioned_append, hmentioned]
    exact hsum

end Fates

/-- A list in the order of another's image is the image of that one in some order. -/
theorem exists_perm_of_perm_map {α β : Type} {f : α → β} {bs : List β} {as : List α}
    (h : bs.Perm (as.map f)) : ∃ as' : List α, as'.Perm as ∧ bs = as'.map f := by
  have hrel : Relation.Comp List.Perm (List.Forall₂ fun b a => b = f a) bs as := by
    refine ⟨as.map f, h, ?_⟩
    rw [List.forall₂_map_left_iff]
    exact List.forall₂_same.2 fun _ _ => rfl
  rw [← List.forall₂_comp_perm_eq_perm_comp_forall₂] at hrel
  obtain ⟨as', hforall, hperm⟩ := hrel
  refine ⟨as', hperm, ?_⟩
  rw [← List.forall₂_eq_eq_eq, List.forall₂_map_right_iff]
  exact hforall

/-! ## Between two pushes -/

/-- What holds of the state after the pushes `ps`. -/
structure Steady (L : Layers) (link : ProtoId) (ps : List (ℕ × Bytes)) : Prop where
  /-- Every difference taken on the way is one of naturals. -/
  checked : pushes_checked L link ps = some (pushes L link ps)
  groups_le : (pushes L link ps).groups.keys.length ≤ MAX_INFLIGHT
  buffered_le : (pushes L link ps).buffered ≤ MAX_BUFFERED
  buffered_eq : (pushes L link ps).buffered = weight Group.held (pushes L link ps).groups
  /-- No two entries of the queue have one stamp. -/
  stamps : (pushes L link ps).order.Pairwise fun e e' => e.1 < e'.1
  own_entry : ∀ k g, (pushes L link ps).groups.lookup k = some g → (g.seq, k) ∈ (pushes L link ps).order
  /-- Whatever fragment comes next, a group that `evict` finds is still there afterwards unless its
  own entry was popped. -/
  stale : ∀ pos buf f, inspect L buf link = some f →
    let r := (pushes L link ps).taken pos f (f.data buf)
    ∀ k g, r.groups.lookup k = some g → (g.seq, k) ∈ r.evict.order →
      r.evict.groups.lookup k = some g

/-- The bounds hold after every run. -/
theorem steady (L : Layers) (link : ProtoId) (ps : List (ℕ × Bytes)) : Steady L link ps := by
  obtain ⟨hkept, hcrowded⟩ := pushes_kept L link ps
  unfold Reassembler.crowded at hcrowded
  refine ⟨pushes_checked_eq L link ps, ?_, ?_, hkept.buffered_eq, hkept.tracks.sorted,
    hkept.tracks.held, ?_⟩
  · omega
  · omega
  · intro pos buf f _ r k g hg hqueued
    exact Reassembler.evict_own_entry (hkept.taken pos f (f.data buf)) hg hqueued

/-- **Every frame is accounted for once.** The pieces stand for the positions of the frames, each of
them named once: whole, incomplete, or among the fragments a datagram was assembled from. They are
sorted, whatever order the hash map drains in, and the state is steady after every push. -/
theorem defragment_accounts (L : Layers) (frames : List Bytes) (link : ProtoId) (keys : List Key)
    (hkeys : keys.Perm (pushes L link (numbered frames)).groups.keys) :
    (∃ fates : List Fate, defragment L frames link keys = fates.map Fate.piece ∧
        (∀ t ∈ fates, t.Sound L link (numbered frames)) ∧
        (fates.flatMap Fate.members).Perm ((numbered frames).map Prod.fst)) ∧
      (defragment L frames link keys).Pairwise Reassembler.by_at ∧
      (∀ keys' : List Key, keys'.Perm (pushes L link (numbered frames)).groups.keys →
        defragment L frames link keys' = defragment L frames link keys) ∧
      ∀ ps, ps <+: numbered frames → Steady L link ps := by
  -- The order is the sort's; what it sorts accounts for every frame whatever order the groups drain
  -- in.
  refine ⟨?_, List.pairwise_insertionSort _ _, ?_, fun ps _ => steady L link ps⟩
  · obtain ⟨fates, hpieces, hsound, hsum⟩ :=
      (pushes_accounted L link (numbered frames)).drained hkeys
    have hperm := (pushes L link (numbered frames)).finish_perm keys
    rw [hpieces] at hperm
    obtain ⟨fates', hfates, heq⟩ := exists_perm_of_perm_map hperm
    refine ⟨fates', heq, ?_, ?_⟩
    · intro t ht
      exact hsound t (hfates.subset ht)
    · rw [mentioned_eq] at hsum
      exact (hfates.flatMap_right _).trans (Multiset.coe_eq_coe.1 hsum)
  · intro keys' hkeys'
    exact Reassembler.finish_congr (hkeys'.trans hkeys.symm)

/-- A UDP fragment in a raw IPv4 capture: `word` holds its flags and its offset. -/
def fragment_frame (id word : ℕ) (data : Bytes) : Bytes :=
  [0x45, 0] ++ octets_of 2 (20 + data.length) ++ octets_of 2 id ++ octets_of 2 word ++
    [64, 17, 0, 0, 10, 0, 0, 1, 10, 0, 0, 2] ++ data

/-- The two fragments of one datagram with a whole frame between them, and the first of another. -/
def sample_frames : List Bytes :=
  [fragment_frame 7 1 [9, 9], fragment_frame 1 0 [5], fragment_frame 7 0x2000 [1, 2, 3, 4, 5, 6, 7, 8],
    fragment_frame 8 0x2000 [1, 2, 3, 4, 5, 6, 7, 8]]

/-- What is left when the sample has been pushed. -/
def sample_keys : List Key :=
  (pushes Layers.core .Ipv4 (numbered sample_frames)).groups.keys

theorem defragment_accounts_sample :
    ((defragment Layers.core sample_frames .Ipv4 sample_keys).map Piece.at_ = [0, 1, 3]) ∧
      (∃ fates : List Fate,
        defragment Layers.core sample_frames .Ipv4 sample_keys = fates.map Fate.piece ∧
          (fates.flatMap Fate.members).Perm [0, 1, 2, 3]) := by
  refine ⟨by decide +kernel, ?_⟩
  obtain ⟨⟨fates, hpieces, -, hperm⟩, -⟩ :=
    defragment_accounts Layers.core sample_frames .Ipv4 sample_keys (List.Perm.refl _)
  exact ⟨fates, hpieces, hperm⟩

end Wiry.Frag
