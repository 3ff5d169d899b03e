/-
What the reassembler's bookkeeping keeps true: `held` counts what the live
connections hold, `order` holds the last touch of each of them, and a turn of
`evict` hands back the one touched longest ago.

The queue holds stale touches beside the current ones, so a turn of the loop
may hand out nothing at all. The general facts about such queues are
`Lib.Recency`; here are the connections they are used at, with what each of
them holds as the weight.
-/
import Wiry.Stream.Reassembler

set_option autoImplicit false
set_option linter.dupNamespace false

namespace Wiry.Stream

open Wiry.Packet Wiry.Recency

/-! ## What one segment does to a connection -/

namespace Live

/-- Feeding one direction changes what the connection holds by what that direction holds. -/
theorem held_bytes_fed (l : Live) (s : Segment) (data : Bytes) (pos : ℕ) :
    (l.fed s data pos).held_bytes + (l.build (l.dir s)).held_bytes =
      l.held_bytes + ((l.fed s data pos).build (l.dir s)).held_bytes := by
  unfold held_bytes fed
  dsimp only
  -- the direction fed is one of the two
  rcases Fin.exists_fin_two.1 ⟨l.dir s, rfl⟩ with hd | hd
  · rw [hd, Function.update_self, Function.update_of_ne (by decide)]
    omega
  · rw [hd, Function.update_self, Function.update_of_ne (by decide)]
    omega

theorem held_bytes_dir_le (l : Live) (s : Segment) :
    (l.build (l.dir s)).held_bytes ≤ l.held_bytes := by
  unfold held_bytes
  rcases Fin.exists_fin_two.1 ⟨l.dir s, rfl⟩ with hd | hd
  · rw [hd]
    omega
  · rw [hd]
    omega

theorem held_bytes_opened (pos stamp : ℕ) (s : Segment) : (opened pos stamp s).held_bytes = 0 := rfl

@[simp] theorem seq_fed (l : Live) (s : Segment) (data : Bytes) (pos : ℕ) :
    (l.fed s data pos).seq = l.seq := rfl

end Live

namespace Reassembler

variable {r r' : Reassembler}

/-! ## The invariant of the three ledgers -/

/-- What `live`, `order`, `seq` and `held` say of each other between two operations. -/
structure Kept (r : Reassembler) : Prop where
  tracks : Tracks Live.seq r.live r.order r.seq
  held_eq : r.held = weight Live.held_bytes r.live

theorem kept_init : Kept {} := ⟨Tracks.init, rfl⟩

/-- Nothing a live connection holds is missing from `held`: no subtraction of it underflows. -/
theorem Kept.le_held (h : Kept r) {k : Key} {l : Live} (hl : r.live.lookup k = some l) :
    l.held_bytes ≤ r.held := by
  rw [h.held_eq]
  exact weight_ge Live.held_bytes hl

/-- The connection a push feeds holds what it held before the push. -/
theorem Kept.entry_le (h : Kept r) (pos : ℕ) (s : Segment) : (r.entry pos s).held_bytes ≤ r.held := by
  unfold entry
  rcases hl : r.live.lookup s.key with - | l
  · exact Nat.zero_le _
  · have hle := h.le_held hl
    exact hle

/-- Touching a stream keeps the table. -/
theorem Kept.touch (h : Kept r) (pos : ℕ) (s : Segment) (data : Bytes) :
    Kept (r.touch pos s data) where
  tracks := h.tracks.touch rfl s.key
  held_eq := by
    have hdelta := (r.entry pos s).held_bytes_fed s data pos
    have hdir := (r.entry pos s).held_bytes_dir_le s
    have hle := h.entry_le pos s
    have heq := h.held_eq
    -- the new total: the connection's own part is exchanged, or added where it is new
    have hnew : weight Live.held_bytes (r.touch pos s data).live + (r.entry pos s).held_bytes =
        weight Live.held_bytes r.live + ((r.entry pos s).fed s data pos).held_bytes := by
      rcases hl : r.live.lookup s.key with - | l
      · have hzero : (r.entry pos s).held_bytes = 0 := by
          unfold entry
          rw [hl]
          exact Live.held_bytes_opened pos r.seq s
        rw [hzero, Nat.add_zero]
        exact weight_new Live.held_bytes hl _
      · have hsame : (r.entry pos s).held_bytes = l.held_bytes := by
          unfold entry
          rw [hl]
          rfl
        rw [hsame]
        exact weight_replace Live.held_bytes hl _
    change r.held + (((r.entry pos s).fed s data pos).build _).held_bytes - _ = _
    omega

/-- Taking a connection out takes what it holds out of `held`. -/
theorem Kept.take_out (h : Kept r) {k : Key} {l : Live} (hl : r.live.lookup k = some l) (e : Bool) :
    Kept (r.take_out k l e) where
  tracks := h.tracks.erase k
  held_eq := by
    have heq := h.held_eq
    rw [weight_erase Live.held_bytes hl] at heq
    change r.held - l.held_bytes = weight Live.held_bytes (r.live.erase k)
    omega

/-! ## The loop of `evict` -/

/-- One turn of the loop in `evict`. -/
def Turn (r r' : Reassembler) : Prop :=
  r.crowded ∧ ∃ stamp key rest, r.order = (stamp, key) :: rest ∧ r' = r.evict_turn stamp key rest

/-- The induction rule of the loop. -/
theorem evict_loop_induction {P : Reassembler → Reassembler → Prop}
    (stay : ∀ r, ¬ r.crowded ∨ r.order = [] → P r r)
    (step : ∀ r r', Turn r r' → P r' r'.evict_loop → P r r'.evict_loop) (r : Reassembler) :
    P r r.evict_loop := by
  rw [evict_loop]
  split
  · rename_i hc
    split
    · rename_i hnil
      exact stay r (Or.inr hnil)
    · rename_i stamp key rest hcons
      apply step r _ ⟨hc, stamp, key, rest, hcons, rfl⟩
      exact evict_loop_induction stay step (r.evict_turn stamp key rest)
  · rename_i hc
    exact stay r (Or.inl hc)
termination_by r.order.length
decreasing_by simp_all

/-- The ways a turn ends: a stale touch changes nothing but the queue, a current one takes its
connection out. -/
theorem turn_cases (h : Turn r r') :
    ∃ stamp key rest, r.order = (stamp, key) :: rest ∧
      ((∀ l, r.live.lookup key = some l → l.seq ≠ stamp) ∧ r' = { r with order := rest } ∨
        ∃ l, r.live.lookup key = some l ∧ l.seq = stamp ∧
          r' = ({ r with order := rest }).take_out key l true) := by
  obtain ⟨-, stamp, key, rest, horder, rfl⟩ := h
  refine ⟨stamp, key, rest, horder, ?_⟩
  unfold evict_turn
  dsimp only
  split
  · rename_i l hl
    split
    · rename_i hs
      exact Or.inr ⟨l, hl, hs, rfl⟩
    · rename_i hs
      refine Or.inl ⟨fun l' hl' => ?_, rfl⟩
      rw [← Option.some.inj (hl.symm.trans hl')]
      exact hs
  · rename_i hl
    refine Or.inl ⟨fun l' hl' => ?_, rfl⟩
    rw [hl] at hl'
    exact absurd hl' nofun

theorem Kept.turn (h : Kept r) (ht : Turn r r') : Kept r' := by
  obtain ⟨stamp, key, rest, horder, ⟨hstale, rfl⟩ | ⟨l, hl, hs, rfl⟩⟩ := turn_cases ht
  · have htracks := h.tracks
    rw [horder] at htracks
    exact ⟨htracks.pop_stale hstale, h.held_eq⟩
  · have htracks := h.tracks
    rw [horder] at htracks
    exact ⟨htracks.pop_erase, (h.take_out hl true).held_eq⟩

theorem Kept.evict_loop (h : Kept r) : Kept r.evict_loop :=
  evict_loop_induction (P := fun r r' => Kept r → Kept r') (fun _ _ hr => hr)
    (fun _ _ ht ih hr => ih (hr.turn ht)) r h

/-- So does sweeping the queue. -/
theorem Kept.sweep (h : Kept r) : Kept r.sweep := by
  unfold Reassembler.sweep
  split
  · exact ⟨h.tracks.sweep, h.held_eq⟩
  · exact h

theorem Kept.evict (h : Kept r) : Kept r.evict := h.evict_loop.sweep

/-- The loop only ends inside both bounds: out of touches, there is nothing left alive. -/
theorem evict_loop_not_crowded (h : Kept r) : ¬ r.evict_loop.crowded := by
  refine evict_loop_induction (P := fun r r' => Kept r → ¬ r'.crowded) ?_ ?_ r h
  · rintro r (hc | hnil) hr
    · exact hc
    · have htracks := hr.tracks
      rw [hnil] at htracks
      have hempty := htracks.empty_of_nil
      have hheld : r.held = 0 := by rw [hr.held_eq, hempty, weight_empty]
      unfold crowded
      rw [hempty, hheld]
      decide
  · intro r r' ht ih hr
    exact ih (hr.turn ht)

@[simp] theorem live_sweep (r : Reassembler) : r.sweep.live = r.live := by
  unfold sweep
  split <;> rfl

@[simp] theorem held_sweep (r : Reassembler) : r.sweep.held = r.held := by
  unfold sweep
  split <;> rfl

@[simp] theorem out_sweep (r : Reassembler) : r.sweep.out = r.out := by
  unfold sweep
  split <;> rfl

@[simp] theorem seq_sweep (r : Reassembler) : r.sweep.seq = r.seq := by
  unfold sweep
  split <;> rfl

/-- Swept, the queue is at most a fixed multiple of the live set, and a constant. -/
theorem length_order_sweep (h : Kept r) :
    r.sweep.order.length ≤ 4 * r.sweep.live.keys.length + 4 * ORIGIN_WINDOW := by
  rw [live_sweep]
  unfold sweep
  split
  · have hle := h.tracks.length_sweep_le
    dsimp only
    omega
  · omega

/-! ## Who is evicted -/

/-- What an eviction hands back, oldest touch first: connections that were live, each touched
before any that stay. -/
structure Evicts (r r' : Reassembler) (gone : List (Key × Live)) : Prop where
  out_eq : r'.out = r.out ++ gone.map fun g => g.2.stream true
  was_live : ∀ g ∈ gone, r.live.lookup g.1 = some g.2
  stays : ∀ k l, r'.live.lookup k = some l ↔ r.live.lookup k = some l ∧ (k, l) ∉ gone
  in_order : gone.Pairwise fun g g' => g.2.seq < g'.2.seq
  oldest : ∀ g ∈ gone, ∀ k l, r'.live.lookup k = some l → g.2.seq < l.seq

theorem Evicts.refl (r : Reassembler) : Evicts r r [] where
  out_eq := by simp
  was_live := by simp
  stays := by simp
  in_order := List.Pairwise.nil
  oldest := by simp

/-- A turn in front of an eviction makes it hand back at most one connection more. -/
theorem Evicts.turn {r'' : Reassembler} (hr : Kept r) (ht : Turn r r') {gone : List (Key × Live)}
    (h : Evicts r' r'' gone) : ∃ gone', Evicts r r'' gone' := by
  obtain ⟨stamp, key, rest, horder, ⟨-, rfl⟩ | ⟨l, hl, hs, rfl⟩⟩ := turn_cases ht
  · exact ⟨gone, h.out_eq, h.was_live, h.stays, h.in_order, h.oldest⟩
  · have htracks := hr.tracks
    rw [horder] at htracks
    -- a connection the turn leaves is not the one it takes, and was touched after it
    have hleft : ∀ k l', (r.live.erase key).lookup k = some l' →
        k ≠ key ∧ r.live.lookup k = some l' ∧ l.seq < l'.seq := by
      intro k l' hk
      by_cases hne : k = key
      · rw [hne, AList.lookup_erase] at hk
        exact absurd hk nofun
      · rw [AList.lookup_erase_ne hne] at hk
        refine ⟨hne, hk, ?_⟩
        rw [hs]
        exact htracks.front_oldest hne hk
    refine ⟨(key, l) :: gone, ?_, ?_, ?_, ?_, ?_⟩
    · rw [h.out_eq]
      simp [take_out, retire]
    · intro g hg
      rcases List.mem_cons.1 hg with rfl | hg
      · exact hl
      · exact (hleft g.1 g.2 (h.was_live g hg)).2.1
    · intro k l'
      rw [h.stays k l', List.mem_cons, not_or]
      constructor
      · rintro ⟨hk, hgone⟩
        obtain ⟨hne, hk', -⟩ := hleft k l' hk
        exact ⟨hk', fun heq => hne (Prod.ext_iff.1 heq).1, hgone⟩
      · rintro ⟨hk, hne, hgone⟩
        refine ⟨?_, hgone⟩
        have hkey : k ≠ key := by
          rintro rfl
          exact hne (by rw [Option.some.inj (hk.symm.trans hl)])
        change (r.live.erase key).lookup k = some l'
        rw [AList.lookup_erase_ne hkey]
        exact hk
    · refine List.pairwise_cons.2 ⟨fun g hg => ?_, h.in_order⟩
      exact (hleft g.1 g.2 (h.was_live g hg)).2.2
    · intro g hg k l' hk
      rcases List.mem_cons.1 hg with rfl | hg
      · exact (hleft k l' ((h.stays k l').1 hk).1).2.2
      · exact h.oldest g hg k l' hk

/-- **What `evict` hands back is what was touched longest ago**, whatever stale touches the queue
holds. -/
theorem evicts_evict (h : Kept r) : ∃ gone, Evicts r r.evict gone := by
  have hloop : ∃ gone, Evicts r r.evict_loop gone := by
    refine evict_loop_induction (P := fun r r' => Kept r → ∃ gone, Evicts r r' gone) ?_ ?_ r h
    · intro r _ _
      exact ⟨[], Evicts.refl r⟩
    · intro r r' ht ih hr
      obtain ⟨gone, hgone⟩ := ih (hr.turn ht)
      exact hgone.turn hr ht
  obtain ⟨gone, hgone⟩ := hloop
  refine ⟨gone, ?_, hgone.was_live, ?_, hgone.in_order, ?_⟩
  · unfold evict
    rw [out_sweep]
    exact hgone.out_eq
  · unfold evict
    rw [live_sweep]
    exact hgone.stays
  · unfold evict
    rw [live_sweep]
    exact hgone.oldest

end Reassembler

end Wiry.Stream
