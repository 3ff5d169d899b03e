/-
Which connection a packet belongs to: the reassembler feeds every frame to one direction of one
stream, so a packet named in two segments is named in one direction of one stream.

A stream is known by the position of its first packet.

`Owned` is kept by every push and by every eviction, and `owned_run` says it of
whole runs. A position that is pushed once can then be named in one half only,
which is what the provenance of a message and the numbering of a reframed part
rely on.
-/
import Wiry.Stream.Provenance

set_option autoImplicit false
set_option linter.dupNamespace false

namespace Wiry.Stream

open Wiry.Packet

/-! ## Fed to one direction -/

/-- The frames a direction was fed are all in `ps` and all the stream's that starts at `first`,
in direction `d`. -/
structure FedBy (owner : ℕ → ℕ × Fin 2) (ps : List Push) (first : ℕ) (d : Fin 2)
    (as : List (Arrival UInt8)) : Prop where
  pushed : ∀ a ∈ as, a.pkt ∈ ps.map Push.pos
  owned : ∀ a ∈ as, owner a.pkt = (first, d)

/-- Each packet has an owner, and whatever a connection was fed is its own. -/
structure Owned (ps : List Push) (r : Reassembler) (owner : ℕ → ℕ × Fin 2) : Prop where
  live : ∀ k l, r.live.lookup k = some l → ∀ d, ∃ as,
    l.build d = Build.run as ∧ FedBy owner ps l.first d as
  out : ∀ st ∈ r.out, ∀ d, ∃ as,
    st.halves d = Build.reassembled as ∧ FedBy owner ps st.first d as

theorem fedBy_nil (owner : ℕ → ℕ × Fin 2) (ps : List Push) (first : ℕ) (d : Fin 2) :
    FedBy owner ps first d [] := ⟨nofun, nofun⟩

/-- A new packet has its owner chosen, and no other changes hands. -/
theorem FedBy.push {owner : ℕ → ℕ × Fin 2} {ps : List Push} {first : ℕ} {d : Fin 2}
    {as : List (Arrival UInt8)} (h : FedBy owner ps first d as) {p : Push}
    (hp : p.pos ∉ ps.map Push.pos) (whose : ℕ × Fin 2) :
    FedBy (Function.update owner p.pos whose) (ps ++ [p]) first d as where
  pushed a ha := by
    rw [List.map_append]
    exact List.mem_append_left _ (h.pushed a ha)
  owned a ha := by
    have hne : a.pkt ≠ p.pos := fun heq => hp (heq ▸ h.pushed a ha)
    rw [Function.update_of_ne hne]
    exact h.owned a ha

/-- The new packet's own arrival. -/
theorem FedBy.feed {owner : ℕ → ℕ × Fin 2} {ps : List Push} {first : ℕ} {d : Fin 2}
    {as : List (Arrival UInt8)} (h : FedBy owner ps first d as) {p : Push}
    (hp : p.pos ∉ ps.map Push.pos) (s : Segment) :
    FedBy (Function.update owner p.pos (first, d)) (ps ++ [p]) first d (as ++ [p.arrival s]) where
  pushed a ha := by
    rcases List.mem_append.1 ha with ha | ha
    · exact (h.push hp (first, d)).pushed a ha
    · rw [List.mem_singleton.1 ha, List.map_append]
      exact List.mem_append_right _ (List.mem_singleton.2 rfl)
  owned a ha := by
    rcases List.mem_append.1 ha with ha | ha
    · exact (h.push hp (first, d)).owned a ha
    · rw [List.mem_singleton.1 ha]
      exact Function.update_self _ _ _

theorem owned_init (owner : ℕ → ℕ × Fin 2) : Owned [] {} owner where
  live k l hl := by simp at hl
  out st hst := absurd hst List.not_mem_nil

/-- A frame that carries no segment leaves the owners as they are. -/
theorem Owned.skip {ps : List Push} {r : Reassembler} {owner : ℕ → ℕ × Fin 2}
    (h : Owned ps r owner) {p : Push} (hp : p.pos ∉ ps.map Push.pos) :
    Owned (ps ++ [p]) r (Function.update owner p.pos (0, 0)) where
  live k l hl d := by
    obtain ⟨as, has, hfed⟩ := h.live k l hl d
    exact ⟨as, has, hfed.push hp (0, 0)⟩
  out st hst d := by
    obtain ⟨as, has, hfed⟩ := h.out st hst d
    exact ⟨as, has, hfed.push hp (0, 0)⟩

/-- A frame goes to the direction it is fed to. -/
theorem Owned.touch {ps : List Push} {r : Reassembler} {owner : ℕ → ℕ × Fin 2}
    (h : Owned ps r owner) {p : Push} (hp : p.pos ∉ ps.map Push.pos) (s : Segment) :
    Owned (ps ++ [p]) (r.touch p.pos s (p.data s)) (Function.update owner p.pos
      ((r.entry p.pos s).first, (r.entry p.pos s).dir s)) where
  live := by
    intro k l hl d
    change (r.live.insert s.key _).lookup k = some l at hl
    by_cases hk : k = s.key
    · -- the connection found, with what it was fed, or the one just opened, fed nothing
      have hentry : ∃ as, (r.entry p.pos s).build d = Build.run as ∧
          FedBy owner ps (r.entry p.pos s).first d as := by
        unfold Reassembler.entry
        rcases hfind : r.live.lookup s.key with - | l'
        · exact ⟨[], rfl, fedBy_nil owner ps _ d⟩
        · exact h.live s.key l' hfind d
      obtain ⟨as, has, hfed⟩ := hentry
      rw [hk, AList.lookup_insert] at hl
      rw [← Option.some.inj hl]
      by_cases hd : d = (r.entry p.pos s).dir s
      · refine ⟨as ++ [p.arrival s], ?_, ?_⟩
        · rw [Build.run_append_singleton, ← has, hd]
          exact Function.update_self _ _ _
        · rw [← hd]
          exact hfed.feed hp s
      · refine ⟨as, ?_, hfed.push hp _⟩
        rw [← has]
        exact Function.update_of_ne hd _ _
    · rw [AList.lookup_insert_ne hk] at hl
      obtain ⟨as, has, hfed⟩ := h.live k l hl d
      exact ⟨as, has, hfed.push hp _⟩
  out := by
    intro st hst d
    obtain ⟨as, has, hfed⟩ := h.out st hst d
    exact ⟨as, has, hfed.push hp _⟩

/-- A stream keeps its packets when it is handed back. -/
theorem Owned.evict {ps : List Push} {r : Reassembler} {owner : ℕ → ℕ × Fin 2}
    (h : Owned ps r owner) (hr : r.Kept) : Owned ps r.evict owner := by
  obtain ⟨gone, hgone⟩ := Reassembler.evicts_evict hr
  refine ⟨fun k l hl => h.live k l ((hgone.stays k l).1 hl).1, ?_⟩
  intro st hst d
  rw [hgone.out_eq] at hst
  rcases List.mem_append.1 hst with hst | hst
  · exact h.out st hst d
  · obtain ⟨g, hg, rfl⟩ := List.mem_map.1 hst
    obtain ⟨as, has, hfed⟩ := h.live g.1 g.2 (hgone.was_live g hg) d
    refine ⟨as, ?_, hfed⟩
    change (g.2.build d).finish = _
    rw [has]
    rfl

/-- Every stream of a run is owned by the position that opened it. -/
theorem owned_run (L : Layers) (ps : List Push) (hn : (ps.map Push.pos).Nodup) :
    ∃ owner, Owned ps (pushes L ps) owner := by
  have hfresh : ∀ {ps : List Push} {p : Push}, ((ps ++ [p]).map Push.pos).Nodup →
      (ps.map Push.pos).Nodup ∧ p.pos ∉ ps.map Push.pos := by
    intro ps p h
    rw [List.map_append, List.nodup_append] at h
    exact ⟨h.1, fun hmem => h.2.2 _ hmem _ (List.mem_singleton.2 rfl) rfl⟩
  refine pushes_induction (L := L)
    (P := fun ps r => (ps.map Push.pos).Nodup → ∃ owner, Owned ps r owner) ?_ ?_ ?_ ps hn
  · intro _
    exact ⟨fun _ => (0, 0), owned_init _⟩
  · intro ps p _ ih hn
    obtain ⟨hn, hp⟩ := hfresh hn
    obtain ⟨owner, howned⟩ := ih hn
    exact ⟨_, howned.skip hp⟩
  · intro ps p s _ ih hn
    obtain ⟨hn, hp⟩ := hfresh hn
    obtain ⟨owner, howned⟩ := ih hn
    exact ⟨_, (howned.touch hp s).evict ((ledger_run L ps).kept.touch p.pos s (p.data s))⟩

/-! ## One direction of one stream -/

/-- A segment handed back is of a packet its direction was fed. -/
theorem exists_arrival {as : List (Arrival UInt8)} {seg : Seg}
    (hseg : seg ∈ (Build.reassembled as).segs) : ∃ a ∈ as, a.pkt = seg.pkt := by
  obtain ⟨start, -, hacc, -⟩ := Build.accounted_of_mem hseg
  have hpos : 0 < seg.len := by
    obtain ⟨pre, post, hsegs⟩ := List.mem_iff_append.1 hseg
    have htiles := hacc.tiles
    change Half.Tiles 0 (Build.reassembled as).segs _ at htiles
    rw [hsegs] at htiles
    obtain ⟨m, -, -, hpos, -⟩ := htiles.of_append
    exact hpos
  obtain ⟨x, -, pre, a, post, has, hcarries⟩ := hacc.provenance seg hseg seg.at_ le_rfl (by omega)
  refine ⟨a, by rw [has]; simp, ?_⟩
  unfold Build.carries at hcarries
  rw [Build.carried_eq] at hcarries
  split at hcarries
  · obtain ⟨y, -, heq⟩ := Option.map_eq_some_iff.1 hcarries
    exact congrArg Prod.snd heq
  · exact absurd hcarries nofun

/-- What the streams handed back say of their packets. -/
theorem finish_owned {L : Layers} {ps : List Push} (hn : (ps.map Push.pos).Nodup)
    {keys : List Key} (hk : keys.Perm (pushes L ps).live.keys) :
    ∃ owner : ℕ → ℕ × Fin 2, ∀ st ∈ (pushes L ps).finish keys, ∀ d, ∃ as,
      st.halves d = Build.reassembled as ∧ FedBy owner ps st.first d as := by
  obtain ⟨owner, howned⟩ := owned_run L ps hn
  refine ⟨owner, fun st hst d => ?_⟩
  have hout := (List.perm_insertionSort Reassembler.by_first _).subset hst
  rw [Reassembler.finish_loop_out hk] at hout
  rcases List.mem_append.1 hout with hout | hout
  · exact howned.out st hout d
  · obtain ⟨k, -, hk'⟩ := List.mem_filterMap.1 hout
    obtain ⟨l, hl, rfl⟩ := Option.map_eq_some_iff.1 hk'
    obtain ⟨as, has, hfed⟩ := howned.live k l hl d
    refine ⟨as, ?_, hfed⟩
    change (l.build d).finish = _
    rw [has]
    rfl

/-- No two streams start at one packet. -/
theorem finish_firsts {L : Layers} {ps : List Push} (hn : (ps.map Push.pos).Nodup)
    {keys : List Key} (hk : keys.Perm (pushes L ps).live.keys) :
    (((pushes L ps).finish keys).map Stream.first).Nodup := by
  have hledger := ledger_run L ps
  have hidents := (Reassembler.idents_finish hledger.kept hk).trans hledger.everyone
  have hperm := (Multiset.coe_eq_coe.1 hidents).map Ident.first
  rw [List.map_map] at hperm
  exact hperm.nodup_iff.2 ((created_first L ps).nodup hn)

/-- **A packet is in one direction of one stream.** -/
theorem packet_in_one_direction {L : Layers} {ps : List Push} (hn : (ps.map Push.pos).Nodup)
    {keys : List Key} (hk : keys.Perm (pushes L ps).live.keys) {i j : ℕ} {st st' : Stream}
    (hi : ((pushes L ps).finish keys)[i]? = some st)
    (hj : ((pushes L ps).finish keys)[j]? = some st') {d d' : Fin 2} {seg seg' : Seg}
    (hseg : seg ∈ (st.halves d).segs) (hseg' : seg' ∈ (st'.halves d').segs)
    (hpkt : seg.pkt = seg'.pkt) : i = j ∧ d = d' := by
  -- A packet belongs to one direction of one connection, told by its number.
  obtain ⟨owner, howner⟩ := finish_owned hn hk
  have hof : ∀ {i : ℕ} {st : Stream} {d : Fin 2} {seg : Seg},
      ((pushes L ps).finish keys)[i]? = some st → seg ∈ (st.halves d).segs →
        owner seg.pkt = (st.first, d) := by
    intro i st d seg hi hseg
    obtain ⟨as, has, hfed⟩ := howner st (List.mem_of_getElem? hi) d
    rw [has] at hseg
    obtain ⟨a, ha, hpkt⟩ := exists_arrival hseg
    rw [← hpkt]
    exact hfed.owned a ha
  have howned := hof hi hseg
  rw [hpkt, hof hj hseg'] at howned
  obtain ⟨hfirst, hdir⟩ := Prod.mk.inj howned
  refine ⟨?_, hdir.symm⟩
  -- connections are told apart by their first packet
  have hget : ∀ {i : ℕ} {st : Stream}, ((pushes L ps).finish keys)[i]? = some st →
      (((pushes L ps).finish keys).map Stream.first)[i]? = some st.first := by
    intro i st h
    rw [List.getElem?_map, h, Option.map_some]
  have hlt := (List.getElem?_eq_some_iff.1 (hget hi)).1
  exact (List.getElem?_inj hlt (finish_firsts hn hk)).1 ((hget hi).trans (hfirst ▸ (hget hj).symm))

end Wiry.Stream
