/-
The reassembler over whole runs: every stream ever created is handed back once,
whichever order the hash map lists its keys in.

`Ledger` is what a run of pushes is known by: the identifiers given out, the
streams live and those retired, and the last touch of each key. Each push keeps
it, eviction included, and at the end `Ledger.handsBack` says that every
identifier comes back once.
-/
import Wiry.Stream.Eviction

set_option autoImplicit false
set_option linter.dupNamespace false

namespace Wiry.Stream

open Wiry.Packet Wiry.Recency

/-! ## What a stream is known by -/

/-- What tells a stream from the others: its endpoints and the position of its first packet. -/
structure Ident where
  src : Addr
  dst : Addr
  sport : UInt16
  dport : UInt16
  v6 : Bool
  first : ℕ
deriving DecidableEq

def Live.ident (l : Live) : Ident := ⟨l.key_src, l.key_dst, l.sport, l.dport, l.v6, l.first⟩

def Stream.ident (s : Stream) : Ident := ⟨s.src, s.dst, s.sport, s.dport, s.v6, s.first⟩

@[simp] theorem Live.ident_stream (l : Live) (evicted : Bool) : (l.stream evicted).ident = l.ident :=
  rfl

@[simp] theorem Live.ident_fed (l : Live) (s : Segment) (data : Bytes) (pos : ℕ) :
    (l.fed s data pos).ident = l.ident := rfl

/-- The stream a pushed frame creates, if it creates one. -/
def Reassembler.opens (L : Layers) (r : Reassembler) (p : Push) : Option Ident :=
  match p.segment L with
  | some s =>
    match r.live.lookup s.key with
    | some _ => none
    | none => some (Live.opened p.pos r.seq s).ident
  | none => none

/-- The streams a run creates from a state on, in order. -/
def created_from (L : Layers) : Reassembler → List Push → List Ident
  | _, [] => []
  | r, p :: ps => (r.opens L p).toList ++ created_from L (r.take L p) ps

/-- The streams a run ever creates, in order. -/
def created (L : Layers) (ps : List Push) : List Ident := created_from L {} ps

/-- The keys a run touches, in order. -/
def touches (L : Layers) (ps : List Push) : List Key :=
  ps.filterMap fun p => (p.segment L).map Segment.key

theorem created_append_singleton (L : Layers) (ps : List Push) (p : Push) :
    created L (ps ++ [p]) = created L ps ++ ((pushes L ps).opens L p).toList := by
  have hfrom : ∀ r : Reassembler, created_from L r (ps ++ [p]) =
      created_from L r ps ++ ((ps.foldl (Reassembler.take L) r).opens L p).toList := by
    induction ps with
    | nil => intro r; simp [created_from]
    | cons q ps ih => intro r; simp [created_from, ih]
  exact hfrom {}

/-- A stream's first packet is the frame that created it. -/
theorem created_first (L : Layers) (ps : List Push) :
    ((created L ps).map Ident.first).Sublist (ps.map Push.pos) := by
  induction ps using List.reverseRecOn with
  | nil => simp [created, created_from]
  | append_singleton ps p ih =>
    rw [created_append_singleton, List.map_append, List.map_append]
    apply ih.append
    unfold Reassembler.opens
    rcases p.segment L with - | s
    · simp
    · dsimp only
      rcases (pushes L ps).live.lookup s.key with - | l
      · exact List.Sublist.refl _
      · simp

namespace Reassembler

variable {r r' : Reassembler}

/-! ## Every stream is somewhere -/

/-- The streams handed back or still live. -/
def idents (r : Reassembler) : Multiset Ident :=
  (r.out.map Stream.ident : Multiset Ident) + weight (fun l => {l.ident}) r.live

/-- Taking a connection out moves its stream from the live ones to those handed back. -/
theorem idents_take_out {k : Key} {l : Live} (hl : r.live.lookup k = some l) (e : Bool) :
    (r.take_out k l e).idents = r.idents := by
  unfold idents
  rw [weight_erase (fun l : Live => ({l.ident} : Multiset Ident)) hl]
  change (((r.out ++ [l.stream e]).map Stream.ident : List Ident) : Multiset Ident) +
    weight (fun l => {l.ident}) (r.live.erase k) = _
  rw [List.map_append, ← Multiset.coe_add, add_assoc, add_comm (weight _ _)]
  rfl

/-- Eviction takes no identifier back. -/
theorem idents_evict (h : Kept r) : r.evict.idents = r.idents := by
  have hloop : r.evict_loop.idents = r.idents := by
    refine evict_loop_induction (P := fun r r' => Kept r → r'.idents = r.idents) ?_ ?_ r h
    · intro r _ _
      rfl
    · intro r r' ht ih hr
      rw [ih (hr.turn ht)]
      obtain ⟨stamp, key, rest, -, ⟨-, rfl⟩ | ⟨l, hl, -, rfl⟩⟩ := turn_cases ht
      · rfl
      · exact idents_take_out hl true
  unfold evict idents
  rw [out_sweep, live_sweep]
  exact hloop

/-- A touch adds the stream it opens to the live ones, and no other. -/
theorem idents_touch (L : Layers) (r : Reassembler) {p : Push} {s : Segment}
    (hs : p.segment L = some s) (data : Bytes) :
    (r.touch p.pos s data).idents = r.idents + ((r.opens L p).toList : Multiset Ident) := by
  have hident : ((r.entry p.pos s).fed s data p.pos).ident = (r.entry p.pos s).ident := rfl
  unfold idents opens
  rw [hs]
  change (r.out.map Stream.ident : Multiset Ident) + weight (fun l => {l.ident})
    (r.live.insert s.key ((r.entry p.pos s).fed s data p.pos)) = _
  rw [add_assoc]
  congr 1
  dsimp only
  rcases hl : r.live.lookup s.key with - | l
  · rw [weight_new (fun l : Live => ({l.ident} : Multiset Ident)) hl, hident]
    unfold entry
    rw [hl]
    rfl
  · -- the connection fed is the one found, under the same name
    have hsame : (r.entry p.pos s).ident = l.ident := by
      unfold entry
      rw [hl]
      rfl
    have hrep := weight_replace (fun l : Live => ({l.ident} : Multiset Ident)) hl
      ((r.entry p.pos s).fed s data p.pos)
    rw [hident, hsame] at hrep
    rw [add_right_cancel hrep]
    simp

/-! ## Finishing -/

theorem finish_loop_cons (r : Reassembler) (k : Key) (ks : List Key) :
    r.finish_loop (k :: ks) = (r.finish_turn k).finish_loop ks := rfl

theorem finish_turn_of_some {k : Key} {l : Live} (hl : r.live.lookup k = some l) :
    r.finish_turn k = r.take_out k l false := by
  unfold finish_turn
  rw [hl]

/-- Every key listed is found when its turn comes. -/
theorem lookup_of_perm {k : Key} {ks : List Key} (hk : (k :: ks).Perm r.live.keys) :
    ∃ l, r.live.lookup k = some l :=
  Option.isSome_iff_exists.1 (AList.lookup_isSome.2 (hk.subset List.mem_cons_self))

theorem perm_take_out {k : Key} {ks : List Key} (hk : (k :: ks).Perm r.live.keys) (l : Live)
    (e : Bool) : ks.Perm (r.take_out k l e).live.keys := by
  change ks.Perm (r.live.erase k).keys
  rw [AList.keys_erase]
  have herase := hk.erase k
  rwa [List.erase_cons_head] at herase

/-- The invariant holds between any two turns of the loop in `finish`, and the keys still to come
are the ones still live. -/
theorem Kept.finish_loop (h : Kept r) {before after : List Key}
    (hk : (before ++ after).Perm r.live.keys) :
    Kept (r.finish_loop before) ∧ after.Perm (r.finish_loop before).live.keys := by
  induction before generalizing r with
  | nil => exact ⟨h, hk⟩
  | cons k ks ih =>
    rw [List.cons_append] at hk
    obtain ⟨l, hl⟩ := lookup_of_perm hk
    rw [finish_loop_cons, finish_turn_of_some hl]
    exact ih (h.take_out hl false) (perm_take_out hk l false)

/-- What the loop hands back: each listed connection, as it was found. -/
theorem finish_loop_out {keys : List Key} (hk : keys.Perm r.live.keys) :
    (r.finish_loop keys).out =
      r.out ++ keys.filterMap fun k => (r.live.lookup k).map (Live.stream · false) := by
  induction keys generalizing r with
  | nil => simp [finish_loop]
  | cons k ks ih =>
    obtain ⟨l, hl⟩ := lookup_of_perm hk
    have hnodup : k ∉ ks := (List.nodup_cons.1 (hk.nodup_iff.2 r.live.keys_nodup)).1
    rw [finish_loop_cons, finish_turn_of_some hl, ih (perm_take_out hk l false)]
    have hrest : ks.filterMap (fun k' => ((r.take_out k l false).live.lookup k').map
          (Live.stream · false)) =
        ks.filterMap fun k' => (r.live.lookup k').map (Live.stream · false) := by
      apply List.filterMap_congr
      intro k' hk'
      have hne : k' ≠ k := fun heq => hnodup (heq ▸ hk')
      change ((r.live.erase k).lookup k').map _ = _
      rw [AList.lookup_erase_ne hne]
    rw [hrest]
    simp [take_out, retire, hl]

theorem idents_finish_loop {keys : List Key} (hk : keys.Perm r.live.keys) :
    (r.finish_loop keys).idents = r.idents := by
  induction keys generalizing r with
  | nil => rfl
  | cons k ks ih =>
    obtain ⟨l, hl⟩ := lookup_of_perm hk
    rw [finish_loop_cons, finish_turn_of_some hl, ih (perm_take_out hk l false)]
    exact idents_take_out hl false

/-- `finish` hands every stream back: those already out and the live ones. -/
theorem idents_finish (h : Kept r) {keys : List Key} (hk : keys.Perm r.live.keys) :
    ((r.finish keys).map Stream.ident : Multiset Ident) = r.idents := by
  have hempty : (r.finish_loop keys).live = ∅ := by
    have hall : (keys ++ []).Perm r.live.keys := by rwa [List.append_nil]
    obtain ⟨-, hrest⟩ := h.finish_loop hall
    apply eq_empty_of_lookup
    intro k
    rw [AList.lookup_eq_none]
    intro hmem
    exact absurd (hrest.symm.subset hmem) List.not_mem_nil
  rw [← idents_finish_loop hk]
  unfold idents finish
  rw [hempty, weight_empty, add_zero, Multiset.coe_eq_coe]
  exact (List.perm_insertionSort by_first _).map Stream.ident

theorem finish_sorted (r : Reassembler) (keys : List Key) : (r.finish keys).Pairwise by_first := by
  have : Std.Total by_first := ⟨fun s t => le_total s.first t.first⟩
  have : IsTrans Stream by_first := ⟨fun _ _ _ hst htu => le_trans hst htu⟩
  exact List.pairwise_insertionSort by_first _

/-- Two listings of the keys hand the same streams back, in some order. -/
theorem finish_perm {keys keys' : List Key} (hk : keys.Perm r.live.keys)
    (hk' : keys'.Perm r.live.keys) : (r.finish keys').Perm (r.finish keys) := by
  have hout : (r.finish_loop keys').out.Perm (r.finish_loop keys).out := by
    rw [finish_loop_out hk, finish_loop_out hk']
    exact ((hk'.trans hk.symm).filterMap _).append_left _
  exact (List.perm_insertionSort by_first _).trans
    (hout.trans (List.perm_insertionSort by_first _).symm)

end Reassembler

/-! ## The state after every push -/

/-- Touch `n` of a run is the last one of `k`. -/
structure LastTouch (ks : List Key) (k : Key) (n : ℕ) : Prop where
  touched : ks[n]? = some k
  last : ∀ i, n < i → ks[i]? ≠ some k

theorem lastTouch_new (ks : List Key) (k : Key) : LastTouch (ks ++ [k]) k ks.length where
  touched := by simp
  last i hi := by
    rw [List.getElem?_eq_none (by simp; omega)]
    exact nofun

/-- A push of another key leaves the last touch where it was. -/
theorem LastTouch.other {ks : List Key} {k k' : Key} {n : ℕ} (h : LastTouch ks k n) (hne : k ≠ k') :
    LastTouch (ks ++ [k']) k n where
  touched := by
    have hlt : n < ks.length := (List.getElem?_eq_some_iff.1 h.touched).1
    rw [List.getElem?_append_left hlt]
    exact h.touched
  last i hi := by
    by_cases hlt : i < ks.length
    · rw [List.getElem?_append_left hlt]
      exact h.last i hi
    · rw [List.getElem?_append_right (by omega), List.getElem?_singleton]
      split
      · exact fun heq => hne (Option.some.inj heq).symm
      · exact nofun

/-- What holds of the reassembler after the frames `ps`. -/
structure Bookkept (L : Layers) (ps : List Push) (r : Reassembler) : Prop where
  streams_le : r.live.keys.length ≤ MAX_STREAMS
  held_le : r.held ≤ MAX_HELD_TOTAL
  held_eq : r.held = (r.live.entries.map fun e => (e.2.build 0).held_bytes +
    (e.2.build 1).held_bytes).sum
  current : ∀ k l, r.live.lookup k = some l → (l.seq, k) ∈ r.order
  /-- A stamp is the time of the last touch. -/
  touched : ∀ k l, r.live.lookup k = some l → LastTouch (touches L ps) k l.seq
  order_le : r.order.length ≤ 4 * r.live.keys.length + 4 * ORIGIN_WINDOW

/-- The invariant `Bookkept` follows from, beside the two bounds. -/
structure Ledger (L : Layers) (ps : List Push) (r : Reassembler) : Prop where
  kept : r.Kept
  roomy : ¬ r.crowded
  order_le : r.order.length ≤ 4 * r.live.keys.length + 4 * ORIGIN_WINDOW
  clock : r.seq = (touches L ps).length
  touched : ∀ k l, r.live.lookup k = some l → LastTouch (touches L ps) k l.seq
  everyone : r.idents = (created L ps : Multiset Ident)

/-- A segment touches its own key. -/
theorem touches_append_singleton (L : Layers) (ps : List Push) (p : Push) :
    touches L (ps ++ [p]) = touches L ps ++ ((p.segment L).map Segment.key).toList := by
  unfold touches
  rw [List.filterMap_append]
  rcases hs : p.segment L with - | s
  · simp [hs]
  · simp [hs]

/-- Evicting hands out no stamp. -/
theorem seq_evict_loop (r : Reassembler) : r.evict_loop.seq = r.seq := by
  refine Reassembler.evict_loop_induction (P := fun r r' => r'.seq = r.seq) (fun _ _ => rfl) ?_ r
  intro r r' ht ih
  rw [ih]
  obtain ⟨stamp, key, rest, -, ⟨-, rfl⟩ | ⟨l, -, -, rfl⟩⟩ := Reassembler.turn_cases ht
  · rfl
  · rfl

/-- The invariant passes over a frame that carries a segment. -/
theorem Ledger.take {L : Layers} {ps : List Push} (h : Ledger L ps (pushes L ps)) {p : Push}
    {s : Segment} (hs : p.segment L = some s) :
    Ledger L (ps ++ [p]) ((pushes L ps).touch p.pos s (p.data s)).evict := by
  have hkept := h.kept.touch p.pos s (p.data s)
  have htouches : touches L (ps ++ [p]) = touches L ps ++ [s.key] := by
    rw [touches_append_singleton, hs]
    rfl
  refine ⟨hkept.evict, ?_, Reassembler.length_order_sweep hkept.evict_loop, ?_, ?_, ?_⟩
  · have hroom := Reassembler.evict_loop_not_crowded hkept
    unfold Reassembler.evict Reassembler.crowded
    rw [Reassembler.live_sweep, Reassembler.held_sweep]
    exact hroom
  · have hseq : ((pushes L ps).touch p.pos s (p.data s)).evict.seq = (pushes L ps).seq + 1 := by
      unfold Reassembler.evict
      rw [Reassembler.seq_sweep, seq_evict_loop]
      rfl
    rw [hseq, h.clock, htouches]
    simp
  · intro k l hl
    obtain ⟨gone, hgone⟩ := Reassembler.evicts_evict hkept
    have hlive := ((hgone.stays k l).1 hl).1
    change ((pushes L ps).live.insert s.key _).lookup k = some l at hlive
    rw [htouches]
    by_cases hk : k = s.key
    · -- the connection touched carries the stamp of this touch
      rw [hk, AList.lookup_insert] at hlive
      have hseq : l.seq = (touches L ps).length := by
        rw [← Option.some.inj hlive, ← h.clock]
        rfl
      rw [hk, hseq]
      exact lastTouch_new _ _
    · rw [AList.lookup_insert_ne hk] at hlive
      exact (h.touched k l hlive).other hk
  · rw [Reassembler.idents_evict hkept, Reassembler.idents_touch L _ hs, h.everyone,
      created_append_singleton, Multiset.coe_add]

/-- The ledger holds after every run. -/
theorem ledger_run (L : Layers) (ps : List Push) : Ledger L ps (pushes L ps) := by
  refine pushes_induction (P := Ledger L) ?_ ?_ ?_ ps
  · exact ⟨Reassembler.kept_init, by decide, Nat.zero_le _, rfl, fun k l hl => by simp at hl, rfl⟩
  · intro ps p hs h
    have htouches : touches L (ps ++ [p]) = touches L ps := by
      rw [touches_append_singleton, hs]
      simp
    have hcreated : created L (ps ++ [p]) = created L ps := by
      rw [created_append_singleton]
      unfold Reassembler.opens
      rw [hs]
      simp
    exact ⟨h.kept, h.roomy, h.order_le, by rw [htouches]; exact h.clock,
      by rw [htouches]; exact h.touched, by rw [hcreated]; exact h.everyone⟩
  · intro ps p s hs h
    exact h.take hs

/-- What the ledger says of a state. -/
theorem Ledger.bookkept {L : Layers} {ps : List Push} {r : Reassembler} (h : Ledger L ps r) :
    Bookkept L ps r where
  streams_le := Nat.not_lt.1 fun hlt => h.roomy (Or.inl hlt)
  held_le := Nat.not_lt.1 fun hlt => h.roomy (Or.inr hlt)
  held_eq := h.kept.held_eq
  current := h.kept.tracks.held
  touched := h.touched
  order_le := h.order_le

/-! ## The next push and the end -/

/-- What one turn of the loop in `evict` may do: take out the connection touched longest ago, where
the front of `order` is its current stamp, or nothing. -/
def TurnsOut (r r' : Reassembler) : Prop :=
  (∃ k l, r.order.head? = some (l.seq, k) ∧ r.live.lookup k = some l ∧ l.held_bytes ≤ r.held ∧
      (∀ k' l', k' ≠ k → r.live.lookup k' = some l' → l.seq < l'.seq) ∧
      r'.live = r.live.erase k ∧ r'.out = r.out ++ [l.stream true]) ∨
    r'.live = r.live ∧ r'.held = r.held ∧ r'.out = r.out

theorem turnsOut {r r' : Reassembler} (h : r.Kept) (ht : Reassembler.Turn r r') : TurnsOut r r' := by
  obtain ⟨stamp, key, rest, horder, ⟨-, rfl⟩ | ⟨l, hl, hs, rfl⟩⟩ := Reassembler.turn_cases ht
  · exact Or.inr ⟨rfl, rfl, rfl⟩
  · have htracks := h.tracks
    rw [horder] at htracks
    refine Or.inl ⟨key, l, ?_, hl, h.le_held hl, ?_, rfl, rfl⟩
    · rw [horder, hs]
      rfl
    · intro k' l' hne hl'
      rw [hs]
      exact htracks.front_oldest hne hl'

/-- What the next push that carries a segment does from a state: its subtraction does not
underflow, every turn of its loop evicts by last touch, and what it evicts is the connections
touched longest ago. -/
structure PushesSafely (r : Reassembler) (pos : ℕ) (s : Segment) (data : Bytes) : Prop where
  before_le : ((r.entry pos s).build ((r.entry pos s).dir s)).held_bytes ≤ r.held
  turns : ∀ mid mid', Relation.ReflTransGen Reassembler.Turn (r.touch pos s data) mid →
    Reassembler.Turn mid mid' → TurnsOut mid mid'
  evicts : ∃ gone, Reassembler.Evicts (r.touch pos s data) (r.touch pos s data).evict gone

theorem Reassembler.Kept.turns {r mid : Reassembler} (h : r.Kept)
    (hmid : Relation.ReflTransGen Reassembler.Turn r mid) : mid.Kept := by
  induction hmid with
  | refl => exact h
  | tail _ ht ih => exact ih.turn ht

theorem Reassembler.Kept.pushesSafely {r : Reassembler} (h : r.Kept) (pos : ℕ) (s : Segment)
    (data : Bytes) : PushesSafely r pos s data where
  before_le := ((r.entry pos s).held_bytes_dir_le s).trans (h.entry_le pos s)
  turns := by
    intro mid mid' hmid ht
    exact turnsOut ((h.touch pos s data).turns hmid) ht
  evicts := Reassembler.evicts_evict (h.touch pos s data)

/-- What `finish` hands back after the frames `ps`, the hash map listing its keys as `keys`. -/
structure HandsBack (L : Layers) (ps : List Push) (keys : List Key) : Prop where
  /-- Every key listed is found, and what it holds is part of `held`. -/
  found : ∀ before k after, keys = before ++ k :: after →
    ∃ l, ((pushes L ps).finish_loop before).live.lookup k = some l ∧
      l.held_bytes ≤ ((pushes L ps).finish_loop before).held
  once : (((pushes L ps).finish keys).map Stream.ident).Perm (created L ps)
  sorted : ((pushes L ps).finish keys).Pairwise fun s t => s.first ≤ t.first
  strict : (ps.map Push.pos).Nodup →
    ((pushes L ps).finish keys).Pairwise fun s t => s.first < t.first
  same : (ps.map Push.pos).Nodup → ∀ keys', keys'.Perm (pushes L ps).live.keys →
    (pushes L ps).finish keys' = (pushes L ps).finish keys

/-- Streams sorted by their first packets, no two of which are the same, are sorted strictly. -/
theorem pairwise_lt_of_nodup {ss : List Stream} (hs : ss.Pairwise fun s t => s.first ≤ t.first)
    (hn : (ss.map Stream.first).Nodup) : ss.Pairwise fun s t => s.first < t.first := by
  rw [List.Nodup, List.pairwise_map] at hn
  exact (hs.and hn).imp fun ⟨hle, hne⟩ => lt_of_le_of_ne hle hne

/-- At the end every stream is handed back once. -/
theorem Ledger.handsBack {L : Layers} {ps : List Push} (h : Ledger L ps (pushes L ps))
    {keys : List Key} (hk : keys.Perm (pushes L ps).live.keys) : HandsBack L ps keys := by
  have honce : ∀ keys', keys'.Perm (pushes L ps).live.keys →
      (((pushes L ps).finish keys').map Stream.ident).Perm (created L ps) := by
    intro keys' hk'
    rw [← Multiset.coe_eq_coe, Reassembler.idents_finish h.kept hk', h.everyone]
  -- distinct positions make the streams' first packets distinct
  have hstrict : (ps.map Push.pos).Nodup → ∀ keys', keys'.Perm (pushes L ps).live.keys →
      ((pushes L ps).finish keys').Pairwise fun s t => s.first < t.first := by
    intro hn keys' hk'
    apply pairwise_lt_of_nodup (Reassembler.finish_sorted _ keys')
    have hfirst : ((created L ps).map Ident.first).Nodup := hn.sublist (created_first L ps)
    have hmap := ((honce keys' hk').map Ident.first).nodup_iff.2 hfirst
    rw [List.map_map] at hmap
    exact hmap
  refine ⟨?_, honce keys hk, Reassembler.finish_sorted _ keys, fun hn => hstrict hn keys hk, ?_⟩
  · rintro before k after rfl
    obtain ⟨hkept, hrest⟩ := h.kept.finish_loop hk
    obtain ⟨l, hl⟩ := Reassembler.lookup_of_perm hrest
    exact ⟨l, hl, hkept.le_held hl⟩
  · intro hn keys' hk'
    apply (Reassembler.finish_perm hk hk').eq_of_pairwise _ (hstrict hn keys' hk') (hstrict hn keys hk)
    intro s t _ _ hlt hgt
    exact absurd hlt (not_lt.2 hgt.le)

/-- **The reassembler's bookkeeping.** After every push both bounds hold, `held` is what the live
connections hold, and the last touch of each is in `order`; the push after that evicts by last
touch and never subtracts more than there is; and `finish` hands back every stream ever created
once, ordered by its first packet, and, no two frames sharing a position, in one order only. -/
theorem reassembler_bookkeeping (L : Layers) (ps : List Push) :
    Bookkept L ps (pushes L ps) ∧
      (∀ (p : Push) (s : Segment), p.segment L = some s → PushesSafely (pushes L ps) p.pos s (p.data s)) ∧
      ∀ keys, keys.Perm (pushes L ps).live.keys → HandsBack L ps keys := by
  have h := ledger_run L ps
  refine ⟨h.bookkept, ?_, ?_⟩
  · intro p s _
    exact h.kept.pushesSafely p.pos s (p.data s)
  · intro keys hk
    exact h.handsBack hk

/-! ## Frames past the last position -/

theorem pushes_skip {L : Layers} {ps : List Push} (h : ∀ p ∈ ps, p.segment L = none)
    (rest : List Push) : pushes L (ps ++ rest) = pushes L rest := by
  have hskip : ps.foldl (Reassembler.take L) {} = ({} : Reassembler) := by
    induction ps with
    | nil => rfl
    | cons p ps ih =>
      rw [List.foldl_cons, Reassembler.take_of_none _ (h p List.mem_cons_self)]
      exact ih fun q hq => h q (List.mem_cons_of_mem _ hq)
  unfold pushes
  rw [List.foldl_append, hskip]

/-- A frame of one connection, and one of another. -/
def two_clients (port : ℕ) : Bytes :=
  tcp_frame [10, 0, 0, 1] [10, 0, 0, 2] port 50000 0 0x10 [0x78]

/-- Both frames pushed at the last position. -/
def last_two : List Push := [40000, 40001].map fun port => ⟨2 ^ 32 - 1, two_clients port, .Ether⟩

/-- One frame more than there are positions, all but the last two of them empty. -/
def past_the_last : List Bytes := List.replicate (2 ^ 32 - 1) [] ++ [two_clients 40000, two_clients 40001]

/-- The key of the connection from `port`. -/
def client_key (port : UInt16) : Key :=
  key_of (wide [10, 0, 0, 1]) port (wide [10, 0, 0, 2]) 50000 false

/-- The saturated positions of the example. -/
theorem numbered_past_the_last : pushes .core (numbered past_the_last .Ether) =
    pushes .core last_two := by
  have hsplit : numbered past_the_last .Ether =
      (List.replicate (2 ^ 32 - 1) ([] : Bytes)).zipIdx.map
        (fun f => ⟨min f.2 (2 ^ 32 - 1), f.1, .Ether⟩) ++ last_two := by
    unfold numbered past_the_last
    rw [List.zipIdx_append, List.map_append, List.length_replicate]
    rfl
  rw [hsplit]
  apply pushes_skip
  -- an empty frame carries nothing
  intro p hp
  obtain ⟨f, hf, rfl⟩ := List.mem_map.1 hp
  have hempty : f.1 = [] := by
    exact List.eq_of_mem_replicate (List.fst_mem_of_mem_zipIdx hf)
  change inspect .core f.1 .Ether = none
  rw [hempty]
  decide +kernel

/-- The two connections start at one position, so the hash map's order shows. -/
theorem finish_depends_on_listing :
    ∃ keys keys' : List Key,
      keys.Perm (pushes .core (numbered past_the_last .Ether)).live.keys ∧
      keys'.Perm (pushes .core (numbered past_the_last .Ether)).live.keys ∧
      reassemble .core past_the_last .Ether keys ≠ reassemble .core past_the_last .Ether keys' := by
  refine ⟨[client_key 40000, client_key 40001], [client_key 40001, client_key 40000], ?_, ?_, ?_⟩
  · rw [numbered_past_the_last]
    decide +kernel
  · rw [numbered_past_the_last]
    decide +kernel
  · unfold reassemble
    rw [numbered_past_the_last]
    intro heq
    have hports := congrArg (List.map Stream.sport) heq
    revert hports
    decide +kernel

end Wiry.Stream
