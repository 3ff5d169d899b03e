/-
What the reassembler's bookkeeping keeps true: `buffered` counts the octets of
the live groups, `order` holds the entry of each of them, and an eviction takes
the groups opened longest ago.

`Kept` is the invariant, and every step of the reassembler keeps it: opening a
group, putting it back grown, and one turn of the eviction. `evict_loop_spec`
says what a whole eviction does, which is the one fact the callers need.
-/
import Wiry.Frag.Absorb
import Wiry.Frag.Reassembler

set_option autoImplicit false

namespace Wiry.Frag

open Wiry.Packet Wiry.Recency SortedMap

/-! ## What one fragment does to its group -/

namespace Group

/-- The octets a group holds. -/
def held (g : Group) : ℕ := g.data.length

variable {g : Group}

@[simp] theorem seq_take (g : Group) (pos : ℕ) (f : Found) (data : Bytes) :
    (g.take pos f data).seq = g.seq := rfl

@[simp] theorem at_take (g : Group) (pos : ℕ) (f : Found) (data : Bytes) :
    (g.take pos f data).at_ = g.at_ ++ [pos] := rfl

@[simp] theorem head_take (g : Group) (pos : ℕ) (f : Found) (data : Bytes) :
    (g.take pos f data).head = g.head.or f.head := rfl

theorem got_take (g : Group) (pos : ℕ) (f : Found) (data : Bytes) :
    (g.take pos f data).got = (g.absorb f.at_ data).got := rfl

theorem data_take (g : Group) (pos : ℕ) (f : Found) (data : Bytes) :
    (g.take pos f data).data = (g.absorb f.at_ data).data := rfl

theorem separated_take (hg : g.got.Separated) (pos : ℕ) (f : Found) (data : Bytes) :
    (g.take pos f data).got.Separated := separated_absorb hg f.at_ data

theorem held_take (hg : g.got.Separated) (pos : ℕ) (f : Found) (data : Bytes) :
    g.held ≤ (g.take pos f data).held := by
  have hlen := length_absorb hg f.at_ data
  unfold held
  rw [data_take, hlen]
  exact Nat.le_max_left _ _

end Group

namespace Reassembler

variable {r r' : Reassembler}

/-! ## The invariant of the ledgers -/

/-- What `groups`, `order`, `seq` and `buffered` say of each other between two operations. -/
structure Kept (r : Reassembler) : Prop where
  tracks : Tracks Group.seq r.groups r.order r.seq
  buffered_eq : r.buffered = weight Group.held r.groups
  separated : ∀ k g, r.groups.lookup k = some g → g.got.Separated

theorem kept_init : Kept {} where
  tracks := Tracks.init
  buffered_eq := rfl
  separated k g h := by simp at h

theorem Kept.held_le (h : Kept r) {k : Key} {g : Group} (hg : r.groups.lookup k = some g) :
    g.held ≤ r.buffered := by
  rw [h.buffered_eq]
  exact weight_ge Group.held hg

/-- A refused fragment changes nothing but `out`, and so does a frame that carries none. -/
theorem Kept.with_out (h : Kept r) (out : List Piece) : Kept { r with out := out } :=
  ⟨h.tracks, h.buffered_eq, h.separated⟩

/-! ## Opening a group -/

theorem entry_of_some {key : Key} {g : Group} (h : r.groups.lookup key = some g) :
    r.entry key = (r, g) := by
  unfold entry
  rw [h]

theorem entry_of_none {key : Key} (h : r.groups.lookup key = none) :
    r.entry key =
      ({ r with
        order := r.order ++ [(r.seq, key)]
        seq := r.seq + 1
        groups := r.groups.insert key { seq := r.seq } }, { seq := r.seq }) := by
  unfold entry
  rw [h]

/-- After that the group is there. -/
theorem lookup_entry (r : Reassembler) (key : Key) :
    (r.entry key).1.groups.lookup key = some (r.entry key).2 := by
  cases h : r.groups.lookup key with
  | some g => rw [entry_of_some h, h]
  | none =>
    rw [entry_of_none h]
    exact AList.lookup_insert _

/-- Opening a group leaves those of the other keys. -/
theorem lookup_entry_of_ne {key k : Key} (hne : k ≠ key) :
    (r.entry key).1.groups.lookup k = r.groups.lookup k := by
  cases h : r.groups.lookup key with
  | some g => rw [entry_of_some h]
  | none =>
    rw [entry_of_none h]
    exact AList.lookup_insert_ne hne

@[simp] theorem out_entry (r : Reassembler) (key : Key) : (r.entry key).1.out = r.out := by
  unfold entry
  split <;> rfl

/-- Opening a group keeps the ledger. -/
theorem Kept.entry (h : Kept r) (key : Key) : Kept (r.entry key).1 := by
  cases hlook : r.groups.lookup key with
  | some g =>
    rw [entry_of_some hlook]
    exact h
  | none =>
    rw [entry_of_none hlook]
    refine ⟨h.tracks.touch rfl key, ?_, ?_⟩
    · show r.buffered = weight Group.held (r.groups.insert key { seq := r.seq })
      rw [weight_new Group.held hlook, h.buffered_eq]
      rfl
    · intro k g hg
      by_cases hk : k = key
      · subst hk
        rw [AList.lookup_insert] at hg
        rw [← Option.some.inj hg]
        exact separated_empty
      · rw [AList.lookup_insert_ne hk] at hg
        exact h.separated k g hg

/-! ## Feeding a group -/

/-- The state with a group's next value written over it. -/
def stored (r : Reassembler) (key : Key) (g g' : Group) : Reassembler :=
  { r with
    groups := r.groups.insert key g'
    buffered := r.buffered + (g'.data.length - g.data.length) }

theorem fed_of_complete {key : Key} {g g' : Group} (h : g'.complete = true) :
    r.fed key g g' =
      { r.stored key g g' with
        groups := (r.groups.insert key g').erase key
        buffered := (r.stored key g g').buffered - g'.data.length
        out := r.out ++ closed g' } := if_pos h

theorem fed_of_not_complete {key : Key} {g g' : Group} (h : ¬ g'.complete = true) :
    r.fed key g g' = r.stored key g g' := if_neg h

/-- The group `g` of `key` may become `g'`. -/
structure Grows (r : Reassembler) (key : Key) (g g' : Group) : Prop where
  lookup : r.groups.lookup key = some g
  seq_eq : g'.seq = g.seq
  held_le : g.held ≤ g'.held
  separated : g'.got.Separated

/-- So does putting the grown group back. -/
theorem Kept.stored (h : Kept r) {key : Key} {g g' : Group} (hg : Grows r key g g') :
    Kept (r.stored key g g') where
  tracks := h.tracks.replace hg.lookup hg.seq_eq
  buffered_eq := by
    have hnew := weight_replace Group.held hg.lookup g'
    have hold := h.buffered_eq
    have hle := hg.held_le
    show r.buffered + (g'.held - g.held) = weight Group.held (r.groups.insert key g')
    omega
  separated := by
    intro k u hu
    by_cases hk : k = key
    · subst hk
      have hlook : (r.groups.insert k g').lookup k = some u := hu
      rw [AList.lookup_insert] at hlook
      rw [← Option.some.inj hlook]
      exact hg.separated
    · have hlook : (r.groups.insert key g').lookup k = some u := hu
      rw [AList.lookup_insert_ne hk] at hlook
      exact h.separated k u hlook

/-- Taking a group out takes its octets out of `buffered`. -/
theorem Kept.erase (h : Kept r) {key : Key} {g : Group} (hg : r.groups.lookup key = some g)
    (out : List Piece) :
    Kept { r with
      groups := r.groups.erase key
      buffered := r.buffered - g.data.length
      out := out } where
  tracks := h.tracks.erase key
  buffered_eq := by
    have hold := h.buffered_eq
    rw [weight_erase Group.held hg] at hold
    show r.buffered - g.held = weight Group.held (r.groups.erase key)
    omega
  separated := by
    intro k u hu
    have hlook : (r.groups.erase key).lookup k = some u := hu
    by_cases hk : k = key
    · rw [hk, AList.lookup_erase] at hlook
      exact absurd hlook nofun
    · rw [AList.lookup_erase_ne hk] at hlook
      exact h.separated k u hlook

/-- Feeding a group keeps the ledger. -/
theorem Kept.fed (h : Kept r) {key : Key} {g g' : Group} (hg : Grows r key g g') :
    Kept (r.fed key g g') := by
  by_cases hc : g'.complete = true
  · rw [fed_of_complete hc]
    exact (h.stored hg).erase (AList.lookup_insert _) _
  · rw [fed_of_not_complete hc]
    exact h.stored hg

/-! ## Evicting -/

/-- What a run of the loop in `evict` does. -/
structure EvictedTo (r r' : Reassembler) (gone : List (Key × Group)) : Prop where
  kept : Kept r'
  evicts : Evicts Group.seq r.groups r.order r'.groups r'.order gone
  seq_eq : r'.seq = r.seq
  out_eq : r'.out = r.out ++ gone.flatMap fun g => spill g.2

/-- The ways a turn of the loop ends: a stale entry changes nothing but the queue, a current one
takes its group out. -/
theorem evict_turn_cases (r : Reassembler) (stamp : ℕ) (key : Key) (rest : List (ℕ × Key)) :
    ((∀ g, r.groups.lookup key = some g → g.seq ≠ stamp) ∧
        r.evict_turn stamp key rest = { r with order := rest }) ∨
      ∃ g, r.groups.lookup key = some g ∧ g.seq = stamp ∧
        r.evict_turn stamp key rest =
          { r with
            order := rest
            groups := r.groups.erase key
            buffered := r.buffered - g.data.length
            out := r.out ++ spill g } := by
  unfold evict_turn
  cases hlook : r.groups.lookup key with
  | none => exact .inl ⟨nofun, rfl⟩
  | some g =>
    by_cases hs : g.seq = stamp
    · exact .inr ⟨g, rfl, hs, if_pos hs⟩
    · refine .inl ⟨?_, if_neg hs⟩
      rintro g' ⟨⟩
      exact hs

/-- So does one turn of the eviction. -/
theorem Kept.evict_turn (h : Kept r) {stamp : ℕ} {key : Key} {rest : List (ℕ × Key)}
    (horder : r.order = (stamp, key) :: rest) : Kept (r.evict_turn stamp key rest) := by
  have htracks := h.tracks
  rw [horder] at htracks
  rcases evict_turn_cases r stamp key rest with ⟨hstale, hturn⟩ | ⟨g, hg, hs, hturn⟩
  · rw [hturn]
    exact ⟨htracks.pop_stale hstale, h.buffered_eq, h.separated⟩
  · rw [hturn]
    have hkept := h.erase hg (r.out ++ spill g)
    exact ⟨htracks.pop_erase, hkept.buffered_eq, hkept.separated⟩

@[simp] theorem order_evict_turn (r : Reassembler) (stamp : ℕ) (key : Key)
    (rest : List (ℕ × Key)) : (r.evict_turn stamp key rest).order = rest := by
  rcases evict_turn_cases r stamp key rest with ⟨-, hturn⟩ | ⟨g, -, -, hturn⟩
  · rw [hturn]
  · rw [hturn]

/-- The eviction ends under both limits, and what it took away are whole groups, the least recently
used first. -/
theorem evict_loop_spec (order : List (ℕ × Key)) (h : Kept r) (horder : r.order = order) :
    ¬ (r.evict_loop order).crowded ∧ ∃ gone, EvictedTo r (r.evict_loop order) gone := by
  induction order generalizing r with
  | nil =>
    -- out of entries, there is nothing left alive
    have htracks := h.tracks
    rw [horder] at htracks
    have hempty := htracks.empty_of_nil
    have hbuffered : r.buffered = 0 := by rw [h.buffered_eq, hempty, weight_empty]
    rw [evict_loop]
    refine ⟨?_, [], h, .stop _ _, rfl, (List.append_nil _).symm⟩
    unfold crowded
    rw [hempty, hbuffered]
    decide
  | cons e rest ih =>
    obtain ⟨stamp, key⟩ := e
    rw [evict_loop]
    by_cases hc : r.crowded
    · rw [if_pos hc]
      obtain ⟨hout, gone, hev⟩ := ih (h.evict_turn horder) (order_evict_turn r stamp key rest)
      have hevicts := hev.evicts
      have hseq := hev.seq_eq
      have houts := hev.out_eq
      rw [order_evict_turn] at hevicts
      rcases evict_turn_cases r stamp key rest with ⟨hstale, hturn⟩ | ⟨g, hg, hs, hturn⟩
      · refine ⟨hout, gone, hev.kept, ?_, ?_, ?_⟩
        · rw [horder]
          refine .stale hstale ?_
          rwa [hturn] at hevicts ⊢
        · rwa [hturn] at hseq ⊢
        · rwa [hturn] at houts ⊢
      · refine ⟨hout, (key, g) :: gone, hev.kept, ?_, ?_, ?_⟩
        · rw [horder]
          refine .take hg hs ?_
          rwa [hturn] at hevicts ⊢
        · rwa [hturn] at hseq ⊢
        · rw [hturn] at houts ⊢
          rw [houts, List.flatMap_cons]
          exact List.append_assoc _ _ _
    · rw [if_neg hc]
      exact ⟨hc, [], h, .stop _ _, rfl, (List.append_nil _).symm⟩

@[simp] theorem groups_sweep (r : Reassembler) : r.sweep.groups = r.groups := by
  unfold sweep
  split <;> rfl

@[simp] theorem buffered_sweep (r : Reassembler) : r.sweep.buffered = r.buffered := by
  unfold sweep
  split <;> rfl

@[simp] theorem out_sweep (r : Reassembler) : r.sweep.out = r.out := by
  unfold sweep
  split <;> rfl

/-- So does sweeping the order. -/
theorem Kept.sweep (h : Kept r) : Kept r.sweep := by
  unfold Reassembler.sweep
  split
  · exact ⟨h.tracks.sweep, h.buffered_eq, h.separated⟩
  · exact h

/-- **What `evict` takes is what was opened longest ago**, whatever stale entries the queue holds,
and it stops inside both bounds. -/
theorem evict_spec (h : Kept r) :
    Kept r.evict ∧ ¬ r.evict.crowded ∧
      ∃ gone, r.evict.out = r.out ++ gone.flatMap (fun g => spill g.2) ∧
        (∃ order', Evicts Group.seq r.groups r.order r.evict.groups order' gone) ∧
        ∀ g ∈ gone, ∀ k v, r.evict.groups.lookup k = some v → g.2.seq < v.seq := by
  obtain ⟨hcrowded, gone, hev⟩ := evict_loop_spec r.order h rfl
  refine ⟨hev.kept.sweep, ?_, gone, ?_, ⟨(r.evict_loop r.order).order, ?_⟩, ?_⟩
  · unfold evict crowded
    rw [groups_sweep, buffered_sweep]
    exact hcrowded
  · unfold evict
    rw [out_sweep]
    exact hev.out_eq
  · unfold evict
    rw [groups_sweep]
    exact hev.evicts
  · unfold evict
    rw [groups_sweep]
    exact hev.evicts.oldest h.tracks

/-- A group leaves by its own entry: one whose entry is still queued is still live, whatever entries
earlier groups of its key left behind. -/
theorem evict_own_entry (h : Kept r) {k : Key} {g : Group} (hg : r.groups.lookup k = some g)
    (hqueued : (g.seq, k) ∈ r.evict.order) : r.evict.groups.lookup k = some g := by
  obtain ⟨-, gone, hev⟩ := evict_loop_spec r.order h rfl
  have hloop : (g.seq, k) ∈ (r.evict_loop r.order).order := by
    unfold evict sweep at hqueued
    split at hqueued
    · exact List.mem_of_mem_filter hqueued
    · exact hqueued
  unfold evict
  rw [groups_sweep]
  rcases hev.evicts.lookup_or_gone hg with hleft | hgone
  · exact hleft
  · exact absurd hloop (hev.evicts.popped h.tracks _ hgone)

/-! ## One push -/

/-- `push` hands a fragment back at once. -/
def refuses (r : Reassembler) (f : Found) : Prop :=
  f.Teardrop ∨ (r.entry f.key).2.at_.length ≥ MAX_FRAGS

/-- The state in which `push` calls `evict`. -/
def taken (r : Reassembler) (pos : ℕ) (f : Found) (data : Bytes) : Reassembler :=
  (r.entry f.key).1.fed f.key (r.entry f.key).2 ((r.entry f.key).2.take pos f data)

/-- A fragment refused leaves no trace but its piece. -/
theorem push_fragment_of_refuses {f : Found} (h : r.refuses f) (pos : ℕ) (data : Bytes) :
    r.push_fragment pos f data = { r with out := r.out ++ [.Incomplete pos] } := by
  unfold push_fragment
  by_cases htear : f.Teardrop
  · exact if_pos htear
  · have hfull : (r.entry f.key).2.at_.length ≥ MAX_FRAGS := h.resolve_left htear
    rw [if_neg htear]
    dsimp only
    rw [if_pos hfull]
    -- a group just opened holds no fragment
    cases hlook : r.groups.lookup f.key with
    | some g => rw [entry_of_some hlook]
    | none =>
      rw [entry_of_none hlook] at hfull
      exact absurd hfull (show ¬ 0 ≥ MAX_FRAGS by decide)

theorem push_fragment_of_not_refuses {f : Found} (h : ¬ r.refuses f) (pos : ℕ) (data : Bytes) :
    r.push_fragment pos f data = (r.taken pos f data).evict := by
  unfold push_fragment
  rw [if_neg fun htear => h (.inl htear)]
  dsimp only
  rw [if_neg fun hfull => h (.inr hfull)]
  rfl

/-- The group a fragment is taken into may become what `take` makes of it. -/
theorem Kept.grows (h : Kept r) (pos : ℕ) (f : Found) (data : Bytes) :
    Grows (r.entry f.key).1 f.key (r.entry f.key).2 ((r.entry f.key).2.take pos f data) := by
  have hlook := lookup_entry r f.key
  have hsep := (h.entry f.key).separated _ _ hlook
  exact ⟨hlook, rfl, Group.held_take hsep pos f data, Group.separated_take hsep pos f data⟩

theorem Kept.taken (h : Kept r) (pos : ℕ) (f : Found) (data : Bytes) :
    Kept (r.taken pos f data) := (h.entry f.key).fed (h.grows pos f data)

/-- Every fragment keeps the ledger. -/
theorem Kept.push_fragment (h : Kept r) (pos : ℕ) (f : Found) (data : Bytes) :
    Kept (r.push_fragment pos f data) := by
  by_cases href : r.refuses f
  · rw [push_fragment_of_refuses href]
    exact h.with_out _
  · rw [push_fragment_of_not_refuses href]
    exact (evict_spec (h.taken pos f data)).1

/-- And so does every frame. -/
theorem Kept.push (h : Kept r) (L : Layers) (link : ProtoId) (pos : ℕ) (buf : Bytes) :
    Kept (r.push L link pos buf) := by
  unfold Reassembler.push
  split
  · exact h.with_out _
  · exact h.push_fragment _ _ _

theorem not_crowded_push (h : Kept r) (hr : ¬ r.crowded) (L : Layers) (link : ProtoId) (pos : ℕ)
    (buf : Bytes) : ¬ (r.push L link pos buf).crowded := by
  unfold Reassembler.push
  split
  · exact hr
  · rename_i f _
    by_cases href : r.refuses f
    · rw [push_fragment_of_refuses href]
      exact hr
    · rw [push_fragment_of_not_refuses href]
      exact (evict_spec (h.taken pos f _)).2.1

end Reassembler

/-! ## Runs -/

theorem pushes_append_singleton (L : Layers) (link : ProtoId) (ps : List (ℕ × Bytes))
    (p : ℕ × Bytes) :
    pushes L link (ps ++ [p]) = (pushes L link ps).push L link p.1 p.2 := by
  simp [pushes]

/-- What holds at the start and is kept by every push holds after every run. -/
theorem pushes_induction {L : Layers} {link : ProtoId} {P : List (ℕ × Bytes) → Reassembler → Prop}
    (start : P [] {})
    (step : ∀ ps p, P ps (pushes L link ps) →
      P (ps ++ [p]) ((pushes L link ps).push L link p.1 p.2))
    (ps : List (ℕ × Bytes)) : P ps (pushes L link ps) := by
  induction ps using List.reverseRecOn with
  | nil => exact start
  | append_singleton ps p ih =>
    rw [pushes_append_singleton]
    exact step ps p ih

/-- After every run the ledgers agree, inside both bounds. -/
theorem pushes_kept (L : Layers) (link : ProtoId) (ps : List (ℕ × Bytes)) :
    (pushes L link ps).Kept ∧ ¬ (pushes L link ps).crowded := by
  refine pushes_induction (P := fun _ r => r.Kept ∧ ¬ r.crowded) ?_ ?_ ps
  · exact ⟨Reassembler.kept_init, by decide⟩
  · rintro ps p ⟨hkept, hcrowded⟩
    exact ⟨hkept.push L link p.1 p.2, Reassembler.not_crowded_push hkept hcrowded L link p.1 p.2⟩

end Wiry.Frag
