/-
Where the octets of a reassembled stream come from: each direction of it is a run
of `Build` over the segments of frames that name that direction's endpoints.

`Sourced` says it of every live stream and of every retired one, and is kept by
each push. The life of a stream is the part of the run from the push that
opened it, so that what was fed to an earlier stream of the same key is no part
of it.
-/
import Wiry.Stream.Bookkeeping

set_option autoImplicit false
set_option linter.dupNamespace false

namespace Wiry.Stream

open Wiry.Packet

/-! ## Endpoints -/

/-- The two ends of one direction of a connection, from its sender's side. -/
structure Endpoints where
  src : Addr
  dst : Addr
  sport : UInt16
  dport : UInt16
  v6 : Bool
deriving DecidableEq, Repr

/-- The other direction. -/
def Endpoints.swap (e : Endpoints) : Endpoints := ⟨e.dst, e.src, e.dport, e.sport, e.v6⟩

/-- The key of the connection an end belongs to. -/
def Endpoints.key (e : Endpoints) : Key := key_of e.src e.sport e.dst e.dport e.v6

def Segment.endpoints (s : Segment) : Endpoints := ⟨s.src, s.dst, s.sport, s.dport, s.v6⟩

/-- The ends of a direction of a stream: `halves 0` runs `src:sport > dst:dport`. -/
def Stream.endpoints (s : Stream) (d : Fin 2) : Endpoints :=
  let e : Endpoints := ⟨s.src, s.dst, s.sport, s.dport, s.v6⟩
  if d = 0 then e else e.swap

def Live.endpoints (l : Live) (d : Fin 2) : Endpoints :=
  let e : Endpoints := ⟨l.key_src, l.key_dst, l.sport, l.dport, l.v6⟩
  if d = 0 then e else e.swap

@[simp] theorem Live.endpoints_stream (l : Live) (evicted : Bool) :
    (l.stream evicted).endpoints = l.endpoints := rfl

@[simp] theorem Live.endpoints_fed (l : Live) (s : Segment) (data : Bytes) (pos : ℕ) :
    (l.fed s data pos).endpoints = l.endpoints := rfl

/-- Two directions with one key are the same or opposite. -/
theorem Endpoints.eq_or_swap {e e' : Endpoints} (h : e.key = e'.key) : e = e' ∨ e = e'.swap := by
  obtain ⟨hv, ⟨h1, h2, h3, h4⟩ | ⟨h1, h2, h3, h4⟩⟩ := key_of_eq_iff h
  · exact Or.inl (by cases e; cases e'; simp_all)
  · exact Or.inr (by cases e; cases e'; simp_all [Endpoints.swap])

/-- A segment is keyed by its own endpoints. -/
theorem inspect_key {L : Layers} {buf : Bytes} {link : ProtoId} {s : Segment}
    (h : inspect L buf link = some s) : s.key = s.endpoints.key := by
  obtain ⟨tcp, ip, src, dst, -, -, -, rfl⟩ := inspect_spec h
  rfl

/-- A connection is kept under the key of its endpoints. -/
def Live.KeptUnder (l : Live) (k : Key) : Prop := k = (l.endpoints 0).key ∨ k = (l.endpoints 1).key

/-- **A segment is fed to the direction whose endpoints it names.** -/
theorem Live.endpoints_dir {l : Live} {s : Segment} (hl : l.KeptUnder s.key)
    (hs : s.key = s.endpoints.key) : l.endpoints (l.dir s) = s.endpoints := by
  have hends : s.endpoints = l.endpoints 0 ∨ s.endpoints = l.endpoints 1 := by
    have hswap : (l.endpoints 0).swap = l.endpoints 1 := rfl
    have hswap' : (l.endpoints 1).swap = l.endpoints 0 := rfl
    rcases hl with hk | hk
    · rw [← hswap]
      exact Endpoints.eq_or_swap (hs.symm.trans hk)
    · rw [← hswap']
      exact (Endpoints.eq_or_swap (hs.symm.trans hk)).symm
  unfold dir
  split
  · -- the source differs from the opener's, so the segment runs back
    rename_i hne
    rcases hends with he | he
    · have hsrc : s.src = l.key_src := congrArg Endpoints.src he
      have hport : s.sport = l.sport := congrArg Endpoints.sport he
      rcases hne with hne | hne
      · exact absurd hsrc.symm hne
      · exact absurd hport.symm hne
    · exact he.symm
  · -- the source is the opener's, so the destination is the other end
    rename_i heq
    obtain ⟨hsrc, hport⟩ : l.key_src = s.src ∧ l.sport = s.sport := by simpa using heq
    rcases hends with he | he
    · exact he.symm
    · have h1 : s.src = l.key_dst := congrArg Endpoints.src he
      have h2 : s.dst = l.key_src := congrArg Endpoints.dst he
      have h3 : s.sport = l.dport := congrArg Endpoints.sport he
      have h4 : s.dport = l.sport := congrArg Endpoints.dport he
      have h5 : s.v6 = l.v6 := congrArg Endpoints.v6 he
      have hdst : l.key_dst = s.dst := by rw [← h1, h2, hsrc]
      have hdport : l.dport = s.dport := by rw [← h3, h4, hport]
      change Endpoints.mk l.key_src l.key_dst l.sport l.dport l.v6 = _
      rw [hsrc, hdst, hport, hdport, ← h5]
      rfl

theorem Live.keptUnder_opened {s : Segment} (hs : s.key = s.endpoints.key) (pos stamp : ℕ) :
    (Live.opened pos stamp s).KeptUnder s.key := by
  rw [hs]
  unfold opened
  by_cases hc : s.flags &&& SYN ≠ 0 ∧ s.flags &&& ACK ≠ 0
  · refine Or.inr ?_
    simp only [if_pos hc]
    rfl
  · refine Or.inl ?_
    simp only [if_neg hc]
    rfl

/-! ## What a stream was fed -/

/-- A pushed frame's segment, as it is fed. -/
def Push.arrival (p : Push) (s : Segment) : Arrival UInt8 := ⟨s.seq, s.flags, p.data s, p.pos⟩

/-- What a frame brings to direction `d` of the connection kept under `k`, whose directions are
told apart by `dir`. -/
def Push.brings (L : Layers) (k : Key) (dir : Segment → Fin 2) (d : Fin 2) (p : Push) :
    Option (Arrival UInt8) :=
  match p.segment L with
  | some s => if s.key = k ∧ dir s = d then some (p.arrival s) else none
  | none => none

/-- What the frames `life` bring to a direction of a connection. -/
def arrivals (L : Layers) (life : List Push) (k : Key) (dir : Segment → Fin 2) (d : Fin 2) :
    List (Arrival UInt8) := life.filterMap (Push.brings L k dir d)

theorem arrivals_append_singleton (L : Layers) (life : List Push) (p : Push) (k : Key)
    (dir : Segment → Fin 2) (d : Fin 2) :
    arrivals L (life ++ [p]) k dir d = arrivals L life k dir d ++ (p.brings L k dir d).toList := by
  unfold arrivals
  rw [List.filterMap_append]
  rcases hb : p.brings L k dir d with - | a
  · simp [hb]
  · simp [hb]

/-- Every arrival is a frame's segment, kept under the key, in the direction. -/
theorem mem_arrivals {L : Layers} {life : List Push} {k : Key} {dir : Segment → Fin 2} {d : Fin 2}
    {a : Arrival UInt8} (ha : a ∈ arrivals L life k dir d) :
    ∃ p ∈ life, ∃ s, p.segment L = some s ∧ s.key = k ∧ dir s = d ∧ a = p.arrival s := by
  obtain ⟨p, hp, hb⟩ := List.mem_filterMap.1 ha
  unfold Push.brings at hb
  split at hb
  · rename_i s hs
    split at hb
    · rename_i hkd
      exact ⟨p, hp, s, hs, hkd.1, hkd.2, (Option.some.inj hb).symm⟩
    · exact absurd hb nofun
  · exact absurd hb nofun

/-- The arrivals of a direction name pushes in order. -/
theorem arrivals_pkts (L : Layers) (life : List Push) (k : Key) (dir : Segment → Fin 2)
    (d : Fin 2) : ((arrivals L life k dir d).map Arrival.pkt).Sublist (life.map Push.pos) := by
  induction life using List.reverseRecOn with
  | nil => exact List.Sublist.slnil
  | append_singleton life p ih =>
    rw [arrivals_append_singleton, List.map_append, List.map_append]
    apply ih.append
    unfold Push.brings
    rcases p.segment L with - | s
    · simp
    · dsimp only
      split
      · exact List.Sublist.refl _
      · simp

/-- The frames `life` made of a connection what it is. -/
def Traced (L : Layers) (life : List Push) (k : Key) (l : Live) : Prop :=
  ∀ d, l.build d = Build.run (arrivals L life k l.dir d)

/-- A frame that brings the connection nothing leaves the trace as it is. -/
theorem Traced.skip {L : Layers} {life : List Push} {k : Key} {l : Live} (h : Traced L life k l)
    {p : Push} (hp : ∀ s, p.segment L = some s → s.key ≠ k) : Traced L (life ++ [p]) k l := by
  intro d
  have hnone : p.brings L k l.dir d = none := by
    unfold Push.brings
    rcases hs : p.segment L with - | s
    · rfl
    · exact if_neg fun hkd => hp s hs hkd.1
  rw [arrivals_append_singleton, hnone, h d]
  simp

/-- A segment kept under the connection's key is fed to one direction of it. -/
theorem Traced.fed {L : Layers} {life : List Push} {l : Live} {p : Push} {s : Segment}
    (hs : p.segment L = some s) (h : Traced L life s.key l) :
    Traced L (life ++ [p]) s.key (l.fed s (p.data s) p.pos) := by
  intro d
  have hdir : (l.fed s (p.data s) p.pos).dir = l.dir := rfl
  rw [hdir, arrivals_append_singleton]
  by_cases hd : d = l.dir s
  · have hsome : p.brings L s.key l.dir d = some (p.arrival s) := by
      unfold Push.brings
      rw [hs]
      exact if_pos ⟨rfl, hd.symm⟩
    rw [hsome, Option.toList_some, Build.run_append_singleton, ← h d, hd]
    exact Function.update_self _ _ _
  · have hnone : p.brings L s.key l.dir d = none := by
      unfold Push.brings
      rw [hs]
      exact if_neg fun hkd => hd hkd.2.symm
    rw [hnone, Option.toList_none, List.append_nil, ← h d]
    exact Function.update_of_ne hd _ _

theorem traced_opened (L : Layers) (k : Key) (pos stamp : ℕ) (s : Segment) :
    Traced L [] k (Live.opened pos stamp s) := fun _ => rfl

/-- What a reassembler that was pushed `ps` holds and has handed back: each connection is what a
stretch of the frames made of it, for a live one a stretch that reaches to the last frame. -/
structure Sourced (L : Layers) (ps : List Push) (r : Reassembler) : Prop where
  live : ∀ k l, r.live.lookup k = some l → l.KeptUnder k ∧
    ∃ before life, ps = before ++ life ∧ Traced L life k l
  out : ∀ st ∈ r.out, ∃ k l e, st = Live.stream l e ∧ l.KeptUnder k ∧
    ∃ before life after, ps = before ++ life ++ after ∧ Traced L life k l

theorem sourced_init (L : Layers) : Sourced L [] {} where
  live k l hl := by simp at hl
  out st hst := absurd hst List.not_mem_nil

/-- A frame without a segment adds no source. -/
theorem Sourced.skip {L : Layers} {ps : List Push} {r : Reassembler} (h : Sourced L ps r)
    {p : Push} (hp : p.segment L = none) : Sourced L (ps ++ [p]) r where
  live := by
    intro k l hl
    obtain ⟨hk, before, life, rfl, ht⟩ := h.live k l hl
    refine ⟨hk, before, life ++ [p], by simp, ht.skip fun s hs => ?_⟩
    rw [hp] at hs
    exact absurd hs nofun
  out := by
    intro st hst
    obtain ⟨k, l, e, heq, hk, before, life, after, rfl, ht⟩ := h.out st hst
    exact ⟨k, l, e, heq, hk, before, life, after ++ [p], by simp, ht⟩

/-- A segment adds itself to the sources of its stream. -/
theorem Sourced.touch {L : Layers} {ps : List Push} {r : Reassembler} (h : Sourced L ps r)
    {p : Push} {s : Segment} (hs : p.segment L = some s) :
    Sourced L (ps ++ [p]) (r.touch p.pos s (p.data s)) where
  live := by
    intro k l hl
    change (r.live.insert s.key _).lookup k = some l at hl
    by_cases hk : k = s.key
    · rw [hk, AList.lookup_insert] at hl
      rw [← Option.some.inj hl, hk]
      -- the connection found, with the frames it had, or the one just opened, with none
      have hentry : (r.entry p.pos s).KeptUnder s.key ∧
          ∃ before life, ps = before ++ life ∧ Traced L life s.key (r.entry p.pos s) := by
        unfold Reassembler.entry
        rcases hfind : r.live.lookup s.key with - | l'
        · exact ⟨Live.keptUnder_opened (inspect_key hs) p.pos r.seq, ps, [], by simp,
            traced_opened L s.key p.pos r.seq s⟩
        · have hl' := h.live s.key l' hfind
          exact hl'
      obtain ⟨hkept, before, life, rfl, ht⟩ := hentry
      exact ⟨hkept, before, life ++ [p], by simp, ht.fed hs⟩
    · rw [AList.lookup_insert_ne hk] at hl
      obtain ⟨hkept, before, life, rfl, ht⟩ := h.live k l hl
      refine ⟨hkept, before, life ++ [p], by simp, ht.skip fun s' hs' => ?_⟩
      obtain rfl : s = s' := Option.some.inj (hs.symm.trans hs')
      exact fun heq => hk heq.symm
  out := by
    intro st hst
    obtain ⟨k, l, e, heq, hk, before, life, after, rfl, ht⟩ := h.out st hst
    exact ⟨k, l, e, heq, hk, before, life, after ++ [p], by simp, ht⟩

theorem Sourced.evict {L : Layers} {ps : List Push} {r : Reassembler} (h : Sourced L ps r)
    (hr : r.Kept) : Sourced L ps r.evict := by
  obtain ⟨gone, hgone⟩ := Reassembler.evicts_evict hr
  refine ⟨fun k l hl => h.live k l ((hgone.stays k l).1 hl).1, ?_⟩
  intro st hst
  rw [hgone.out_eq] at hst
  rcases List.mem_append.1 hst with hst | hst
  · exact h.out st hst
  · obtain ⟨g, hg, rfl⟩ := List.mem_map.1 hst
    obtain ⟨hk, before, life, hps, ht⟩ := h.live g.1 g.2 (hgone.was_live g hg)
    exact ⟨g.1, g.2, true, rfl, hk, before, life, [], by simpa using hps, ht⟩

/-- Every run is sourced. -/
theorem sourced_run (L : Layers) (ps : List Push) : Sourced L ps (pushes L ps) := by
  refine pushes_induction (P := Sourced L) (sourced_init L) ?_ ?_ ps
  · intro ps p hs h
    exact h.skip hs
  · intro ps p s hs h
    exact (h.touch hs).evict ((ledger_run L ps).kept.touch p.pos s (p.data s))

/-- The direction a segment runs in, in a stream handed back. -/
def Stream.dir (st : Stream) (s : Segment) : Fin 2 := if st.src ≠ s.src ∨ st.sport ≠ s.sport then 1 else 0

/-- What direction `d` of a stream was fed, of the frames `life` of its connection, kept under
`k`. -/
def Stream.fed (L : Layers) (life : List Push) (k : Key) (st : Stream) (d : Fin 2) :
    List (Arrival UInt8) := arrivals L life k st.dir d

/-- The stream is what the frames `life`, a stretch of those pushed, made of the connection kept
under `k`: each half is reassembled from the segments that name its endpoints. -/
structure MadeOf (L : Layers) (ps life : List Push) (k : Key) (st : Stream) : Prop where
  stretch : ∃ before after, ps = before ++ life ++ after
  halves : ∀ d, st.halves d = Build.reassembled (st.fed L life k d)
  named : ∀ s : Segment, s.key = k → s.key = s.endpoints.key → s.endpoints = st.endpoints (st.dir s)

/-- **Every stream handed back is made of a stretch of the frames.** -/
theorem finish_sourced (L : Layers) (ps : List Push) {keys : List Key}
    (hk : keys.Perm (pushes L ps).live.keys) :
    ∀ st ∈ (pushes L ps).finish keys, ∃ k life, MadeOf L ps life k st := by
  intro st hst
  have hsource := sourced_run L ps
  -- handed back on the way, or still live at the end
  have hlive : ∃ k l e, st = Live.stream l e ∧ l.KeptUnder k ∧
      ∃ before life after, ps = before ++ life ++ after ∧ Traced L life k l := by
    have hout := (List.perm_insertionSort Reassembler.by_first _).subset hst
    rw [Reassembler.finish_loop_out hk] at hout
    rcases List.mem_append.1 hout with hout | hout
    · exact hsource.out st hout
    · obtain ⟨k, -, hk'⟩ := List.mem_filterMap.1 hout
      obtain ⟨l, hl, rfl⟩ := Option.map_eq_some_iff.1 hk'
      obtain ⟨hkept, before, life, hps, ht⟩ := hsource.live k l hl
      exact ⟨k, l, false, rfl, hkept, before, life, [], by simpa using hps, ht⟩
  obtain ⟨k, l, e, rfl, hkept, before, life, after, hps, ht⟩ := hlive
  refine ⟨k, life, ⟨before, after, hps⟩, fun d => ?_, ?_⟩
  · change (l.build d).finish = _
    rw [ht d]
    rfl
  · rintro s rfl hs
    exact (Live.endpoints_dir hkept hs).symm

/-- An arrival of a direction is a pushed frame's segment between the direction's endpoints. -/
theorem MadeOf.mem_fed {L : Layers} {ps life : List Push} {k : Key} {st : Stream}
    (h : MadeOf L ps life k st) {d : Fin 2} {a : Arrival UInt8} (ha : a ∈ st.fed L life k d) :
    ∃ p ∈ ps, ∃ s, p.segment L = some s ∧ s.endpoints = st.endpoints d ∧ a = p.arrival s := by
  obtain ⟨p, hp, s, hs, hk, hd, rfl⟩ := mem_arrivals ha
  obtain ⟨before, after, rfl⟩ := h.stretch
  refine ⟨p, List.mem_append_left _ (List.mem_append_right _ hp), s, hs, ?_, rfl⟩
  rw [h.named s hk (inspect_key hs), hd]

/-- Frames pushed at distinct positions are distinct packets of a direction. -/
theorem MadeOf.nodup_pkts {L : Layers} {ps life : List Push} {k : Key} {st : Stream}
    (h : MadeOf L ps life k st) (hn : (ps.map Push.pos).Nodup) (d : Fin 2) :
    ((st.fed L life k d).map Arrival.pkt).Nodup := by
  obtain ⟨before, after, rfl⟩ := h.stretch
  apply List.Nodup.sublist (arrivals_pkts L life k st.dir d)
  rw [List.map_append, List.map_append] at hn
  exact (List.nodup_append.1 (List.nodup_append.1 hn).1).2.1

end Wiry.Stream
