/-
Every frame is accounted for: the pieces handed back and the groups still live
mention each position once, whatever path it took out of its group.

A `Complete` piece does not name the fragments it consumed. `Fate` is a piece
with them: proof-only data beside the run, tied to it by what `Fate.Sound` says.
-/
import Mathlib.Algebra.BigOperators.Group.Multiset.Basic
import Mathlib.Tactic.Abel
import Wiry.Frag.Ledger

set_option autoImplicit false

namespace Wiry.Frag

open Wiry.Packet Wiry.Recency

variable {L : Layers} {link : ProtoId}

/-! ## What a group was fed -/

/-- The group that a run of numbered frames makes of an empty one. -/
def gather (L : Layers) (link : ProtoId) (g : Group) (run : List (ℕ × Bytes)) : Group :=
  run.foldl (fun g p =>
    match inspect L p.2 link with
    | some f => g.take p.1 f (f.data p.2)
    | none => g) g

@[simp] theorem gather_nil (g : Group) : gather L link g [] = g := rfl

theorem gather_append (g : Group) (run run' : List (ℕ × Bytes)) :
    gather L link g (run ++ run') = gather L link (gather L link g run) run' :=
  List.foldl_append

theorem gather_singleton {g : Group} {p : ℕ × Bytes} {f : Found}
    (h : inspect L p.2 link = some f) : gather L link g [p] = g.take p.1 f (f.data p.2) := by
  simp [gather, h]

/-- A frame carries a fragment of `k` that is not refused for its offset. -/
def Carries (L : Layers) (link : ProtoId) (k : Key) (buf : Bytes) : Prop :=
  ∃ f, inspect L buf link = some f ∧ f.key = k ∧ ¬ f.Teardrop

/-- `run`, of the frames `ps`, is what the group `g` of `k` was fed. -/
structure Gathered (L : Layers) (link : ProtoId) (ps : List (ℕ × Bytes)) (k : Key) (g : Group)
    (run : List (ℕ × Bytes)) : Prop where
  sublist : run.Sublist ps
  carries : ∀ p ∈ run, Carries L link k p.2
  eq : g = gather L link { seq := g.seq } run
  at_eq : g.at_ = run.map Prod.fst

namespace Gathered

variable {ps : List (ℕ × Bytes)} {k : Key} {g : Group} {run : List (ℕ × Bytes)}

theorem init (ps : List (ℕ × Bytes)) (k : Key) (seq : ℕ) :
    Gathered L link ps k { seq := seq } [] :=
  ⟨List.nil_sublist _, nofun, rfl, rfl⟩

theorem mono (h : Gathered L link ps k g run) (p : ℕ × Bytes) :
    Gathered L link (ps ++ [p]) k g run :=
  ⟨h.sublist.trans (List.sublist_append_left _ _), h.carries, h.eq, h.at_eq⟩

/-- Another fragment of the key. -/
theorem take (h : Gathered L link ps k g run) {p : ℕ × Bytes} {f : Found}
    (hf : inspect L p.2 link = some f) (hk : f.key = k) (htear : ¬ f.Teardrop) :
    Gathered L link (ps ++ [p]) k (g.take p.1 f (f.data p.2)) (run ++ [p]) where
  sublist := h.sublist.append (List.Sublist.refl _)
  carries := by
    intro q hq
    rcases List.mem_append.1 hq with hq | hq
    · exact h.carries q hq
    · rw [List.mem_singleton.1 hq]
      exact ⟨f, hf, hk, htear⟩
  eq := by
    rw [gather_append, Group.seq_take, ← h.eq, gather_singleton hf]
  at_eq := by
    rw [Group.at_take, h.at_eq, List.map_append]
    rfl

end Gathered

/-! ## Fates -/

/-- A piece, with the fragments it stands for. -/
inductive Fate where
  | whole (pos : ℕ)
  | incomplete (pos : ℕ)
  | complete (run : List (ℕ × Bytes)) (frame : Bytes)

namespace Fate

def piece : Fate → Piece
  | whole pos => .Whole pos
  | incomplete pos => .Incomplete pos
  | complete run frame => .Complete ((run.map Prod.fst).headD 0) frame

/-- The positions a piece accounts for. -/
def members : Fate → List ℕ
  | whole pos => [pos]
  | incomplete pos => [pos]
  | complete run _ => run.map Prod.fst

/-- A whole frame carries no fragment, an incomplete one does, and a complete piece is the datagram
assembled from a group that was fed the run it stands for. -/
def Sound (L : Layers) (link : ProtoId) (ps : List (ℕ × Bytes)) : Fate → Prop
  | whole pos => ∃ buf, (pos, buf) ∈ ps ∧ inspect L buf link = none
  | incomplete pos => ∃ buf f, (pos, buf) ∈ ps ∧ inspect L buf link = some f
  | complete run frame => run ≠ [] ∧ ∃ k g, Gathered L link ps k g run ∧ g.complete = true ∧
      g.assemble = some frame

theorem Sound.mono {ps : List (ℕ × Bytes)} {t : Fate} (h : t.Sound L link ps) (p : ℕ × Bytes) :
    t.Sound L link (ps ++ [p]) := by
  match t, h with
  | whole pos, ⟨buf, hmem, hnone⟩ => exact ⟨buf, List.mem_append_left _ hmem, hnone⟩
  | incomplete pos, ⟨buf, f, hmem, hf⟩ => exact ⟨buf, f, List.mem_append_left _ hmem, hf⟩
  | complete run frame, ⟨hne, k, g, hg, hc, ha⟩ => exact ⟨hne, k, g, hg.mono p, hc, ha⟩

end Fate

/-- The positions a list of fates mentions. -/
def mentioned (fates : List Fate) : Multiset ℕ :=
  (fates.map fun t => (t.members : Multiset ℕ)).sum

theorem mentioned_append (fates fates' : List Fate) :
    mentioned (fates ++ fates') = mentioned fates + mentioned fates' := by
  simp [mentioned]

theorem mentioned_eq (fates : List Fate) :
    mentioned fates = ((fates.flatMap Fate.members : List ℕ) : Multiset ℕ) := by
  induction fates with
  | nil => rfl
  | cons t fates ih =>
    rw [List.flatMap_cons, ← Multiset.coe_add, ← ih]
    simp [mentioned]

/-- The positions a group holds. -/
def Group.positions (g : Group) : Multiset ℕ := g.at_

theorem mentioned_spilled (g : Group) : mentioned (g.at_.map .incomplete) = g.positions := by
  have hflat : (g.at_.map Fate.incomplete).flatMap Fate.members = g.at_ := by
    rw [List.flatMap_map]
    exact List.flatMap_singleton' g.at_
  rw [mentioned_eq, hflat, Group.positions]

theorem spill_eq (g : Group) : spill g = (g.at_.map .incomplete).map Fate.piece := by
  rw [spill, List.map_map]
  rfl

/-- What a group is handed back as is sound, however it left. -/
theorem Gathered.spilled {ps : List (ℕ × Bytes)} {k : Key} {g : Group} {run : List (ℕ × Bytes)}
    (h : Gathered L link ps k g run) : ∀ t ∈ g.at_.map Fate.incomplete, t.Sound L link ps := by
  intro t ht
  obtain ⟨pos, hpos, rfl⟩ := List.mem_map.1 ht
  rw [h.at_eq] at hpos
  obtain ⟨p, hp, rfl⟩ := List.mem_map.1 hpos
  obtain ⟨f, hf, -, -⟩ := h.carries p hp
  exact ⟨p.2, f, h.sublist.subset hp, hf⟩

/-- A complete group is one piece, or each of its fragments where it does not assemble. -/
theorem Gathered.closed {ps : List (ℕ × Bytes)} {k : Key} {g : Group} {run : List (ℕ × Bytes)}
    (h : Gathered L link ps k g run) (hne : run ≠ []) (hc : g.complete = true) :
    ∃ fates : List Fate, Frag.closed g = fates.map Fate.piece ∧
      (∀ t ∈ fates, t.Sound L link ps) ∧ mentioned fates = g.positions := by
  unfold Frag.closed
  cases ha : g.assemble with
  | some frame =>
    refine ⟨[.complete run frame], ?_, ?_, ?_⟩
    · rw [h.at_eq]
      rfl
    · intro t ht
      rw [List.mem_singleton.1 ht]
      exact ⟨hne, k, g, h, hc, ha⟩
    · rw [mentioned_eq, Group.positions, h.at_eq]
      simp [Fate.members]
  | none => exact ⟨g.at_.map .incomplete, spill_eq g, h.spilled, mentioned_spilled g⟩

/-! ## The invariant -/

/-- The pieces handed back and the live groups account for the frames pushed. -/
structure Accounted (L : Layers) (link : ProtoId) (ps : List (ℕ × Bytes)) (r : Reassembler) :
    Prop where
  live : ∀ k g, r.groups.lookup k = some g → ∃ run, Gathered L link ps k g run
  out : ∃ fates : List Fate, r.out = fates.map Fate.piece ∧ (∀ t ∈ fates, t.Sound L link ps) ∧
    mentioned fates + weight Group.positions r.groups = (ps.map Prod.fst : List ℕ)

namespace Accounted

variable {ps : List (ℕ × Bytes)} {r : Reassembler}

theorem init : Accounted L link [] {} where
  live k g h := by simp at h
  out := ⟨[], rfl, nofun, rfl⟩

/-- Pieces are handed back for positions that were live, or for a frame just pushed. -/
theorem hand_back (h : Accounted L link ps r) {ps' : List (ℕ × Bytes)} (r' : Reassembler)
    (fates : List Fate) (hout : r'.out = r.out ++ fates.map Fate.piece)
    (hsound : ∀ t ∈ fates, t.Sound L link ps')
    (hmono : ∀ t : Fate, t.Sound L link ps → t.Sound L link ps')
    (hlive : ∀ k g, r'.groups.lookup k = some g → ∃ run, Gathered L link ps' k g run)
    (hweight : mentioned fates + weight Group.positions r'.groups + (ps.map Prod.fst : List ℕ) =
      weight Group.positions r.groups + (ps'.map Prod.fst : List ℕ)) :
    Accounted L link ps' r' where
  live := hlive
  out := by
    obtain ⟨old, hold, holdsound, hsum⟩ := h.out
    refine ⟨old ++ fates, ?_, ?_, ?_⟩
    · rw [hout, hold, List.map_append]
    · intro t ht
      rcases List.mem_append.1 ht with ht | ht
      · exact hmono t (holdsound t ht)
      · exact hsound t ht
    · apply add_right_cancel (b := ((ps.map Prod.fst : List ℕ) : Multiset ℕ))
      rw [mentioned_append, add_assoc (mentioned old), add_assoc, hweight, ← add_assoc, hsum,
        add_comm]

/-- A frame that is handed back at once. -/
theorem pass (h : Accounted L link ps r) {p : ℕ × Bytes} {t : Fate}
    (ht : t.Sound L link (ps ++ [p])) (hmem : t.members = [p.1]) :
    Accounted L link (ps ++ [p]) { r with out := r.out ++ [t.piece] } := by
  apply h.hand_back _ [t] rfl
  · intro u hu
    rw [List.mem_singleton.1 hu]
    exact ht
  · exact fun u hu => hu.mono p
  · intro k g hg
    obtain ⟨run, hrun⟩ := h.live k g hg
    exact ⟨run, hrun.mono p⟩
  · rw [mentioned_eq, List.map_append, ← Multiset.coe_add]
    simp only [List.flatMap_cons, List.flatMap_nil, List.append_nil, hmem, List.map_cons,
      List.map_nil]
    abel

/-- Looking up or opening a group leaves the account as it is. -/
theorem entry (h : Accounted L link ps r) (key : Key) : Accounted L link ps (r.entry key).1 := by
  cases hlook : r.groups.lookup key with
  | some g =>
    rw [Reassembler.entry_of_some hlook]
    exact h
  | none =>
    rw [Reassembler.entry_of_none hlook]
    refine h.hand_back _ [] ?_ nofun (fun _ ht => ht) ?_ ?_
    · exact (List.append_nil _).symm
    · intro k g hg
      have hg' : (r.groups.insert key { seq := r.seq }).lookup k = some g := hg
      by_cases hk : k = key
      · subst hk
        rw [AList.lookup_insert] at hg'
        exact ⟨[], Option.some.inj hg' ▸ .init ps k r.seq⟩
      · rw [AList.lookup_insert_ne hk] at hg'
        exact h.live k g hg'
    · show mentioned [] + weight Group.positions (r.groups.insert key { seq := r.seq }) + _ = _
      rw [weight_new Group.positions hlook]
      simp [mentioned, Group.positions]

/-- A fragment taken into its group. -/
theorem stored (h : Accounted L link ps r) {p : ℕ × Bytes} {f : Found} {g : Group}
    (hlook : r.groups.lookup f.key = some g) (hf : inspect L p.2 link = some f)
    (htear : ¬ f.Teardrop) :
    Accounted L link (ps ++ [p]) (r.stored f.key g (g.take p.1 f (f.data p.2))) := by
  refine h.hand_back _ [] ?_ nofun (fun _ ht => ht.mono p) ?_ ?_
  · exact (List.append_nil _).symm
  · intro k u hu
    have hu' : (r.groups.insert f.key (g.take p.1 f (f.data p.2))).lookup k = some u := hu
    -- The fragment's own group grows by it, the others are as they were.
    by_cases hk : k = f.key
    · subst hk
      rw [AList.lookup_insert] at hu'
      obtain ⟨run, hrun⟩ := h.live _ _ hlook
      exact ⟨run ++ [p], Option.some.inj hu' ▸ hrun.take hf rfl htear⟩
    · rw [AList.lookup_insert_ne hk] at hu'
      obtain ⟨run, hrun⟩ := h.live k u hu'
      exact ⟨run, hrun.mono p⟩
  · show mentioned [] + weight Group.positions (r.groups.insert f.key _) + _ = _
    -- one position more is stored than before, and none handed back
    have hreplace := weight_replace Group.positions hlook (g.take p.1 f (f.data p.2))
    have hpos : (g.take p.1 f (f.data p.2)).positions = g.positions + {p.1} := by
      rw [Group.positions, Group.at_take, ← Multiset.coe_add]
      rfl
    rw [hpos] at hreplace
    apply add_right_cancel (b := g.positions)
    rw [List.map_append, ← Multiset.coe_add]
    show 0 + weight Group.positions (r.groups.insert f.key _) + _ + _ =
      weight Group.positions r.groups + (_ + {p.1}) + g.positions
    rw [zero_add, add_right_comm, hreplace]
    abel

/-- A complete group handed back. -/
theorem closed (h : Accounted L link ps r) {key : Key} {g : Group}
    (hlook : r.groups.lookup key = some g) (hc : g.complete = true) (hne : g.at_ ≠ []) (n : ℕ) :
    Accounted L link ps
      { r with
        groups := r.groups.erase key
        buffered := n
        out := r.out ++ Frag.closed g } := by
  obtain ⟨run, hrun⟩ := h.live key g hlook
  have hrun_ne : run ≠ [] := by
    rintro rfl
    exact hne hrun.at_eq
  obtain ⟨fates, hfates, hsound, hmem⟩ := hrun.closed hrun_ne hc
  apply h.hand_back _ fates (congrArg (r.out ++ ·) hfates) hsound fun _ ht => ht
  -- The closed group is gone, the others stay.
  · intro k u hu
    have hu' : (r.groups.erase key).lookup k = some u := hu
    by_cases hk : k = key
    · rw [hk, AList.lookup_erase] at hu'
      exact absurd hu' nofun
    · rw [AList.lookup_erase_ne hk] at hu'
      exact h.live k u hu'
  · show mentioned fates + weight Group.positions (r.groups.erase key) + _ = _
    rw [weight_erase Group.positions hlook, hmem]
    abel

/-- Groups that leave by eviction. -/
theorem evicted (h : Accounted L link ps r) {r' : Reassembler} {order' : List (ℕ × Key)}
    {gone : List (Key × Group)}
    (hev : Evicts Group.seq r.groups r.order r'.groups order' gone)
    (hout : r'.out = r.out ++ gone.flatMap fun g => spill g.2) : Accounted L link ps r' := by
  apply h.hand_back r' (gone.flatMap fun g => g.2.at_.map .incomplete)
  · rw [hout, List.map_flatMap]
    simp only [spill_eq]
  · intro t ht
    obtain ⟨g, hg, ht⟩ := List.mem_flatMap.1 ht
    obtain ⟨run, hrun⟩ := h.live g.1 g.2 (hev.lookup_of_gone g hg)
    exact hrun.spilled t ht
  · exact fun _ ht => ht
  · intro k g hg
    exact h.live k g (hev.lookup_of_left hg).1
  · rw [hev.weight_eq Group.positions]
    -- What is handed back mentions just the positions the groups held.
    have hsum : mentioned (gone.flatMap fun g => g.2.at_.map .incomplete) =
        (gone.map fun g => g.2.positions).sum := by
      clear hev hout
      induction gone with
      | nil => rfl
      | cons g gone ih =>
        rw [List.flatMap_cons, mentioned_append, mentioned_spilled, ih, List.map_cons,
          List.sum_cons]
    rw [hsum]
    abel

/-- A fragment that is filed adds itself to its own group's entry of the account and moves no other.
-/
theorem push_fragment (h : Accounted L link ps r) (hr : r.Kept) {p : ℕ × Bytes} {f : Found}
    (hf : inspect L p.2 link = some f) :
    Accounted L link (ps ++ [p]) (r.push_fragment p.1 f (f.data p.2)) := by
  by_cases href : r.refuses f
  · rw [Reassembler.push_fragment_of_refuses href]
    exact h.pass (t := .incomplete p.1)
      ⟨p.2, f, List.mem_append_right _ (List.mem_singleton_self p), hf⟩ rfl
  · have hgrows := hr.grows p.1 f (f.data p.2)
    have htear : ¬ f.Teardrop := fun ht => href (.inl ht)
    obtain ⟨-, -, gone, hout, ⟨order', hev⟩, -⟩ :=
      Reassembler.evict_spec (hr.taken p.1 f (f.data p.2))
    have hstored := (h.entry f.key).stored hgrows.lookup hf htear
    rw [Reassembler.push_fragment_of_not_refuses href]
    apply evicted _ hev hout
    unfold Reassembler.taken
    by_cases hc : ((r.entry f.key).2.take p.1 f (f.data p.2)).complete = true
    · rw [Reassembler.fed_of_complete hc]
      exact hstored.closed (AList.lookup_insert _) hc (by simp) _
    · rw [Reassembler.fed_of_not_complete hc]
      exact hstored

theorem push (h : Accounted L link ps r) (hr : r.Kept) (p : ℕ × Bytes) :
    Accounted L link (ps ++ [p]) (r.push L link p.1 p.2) := by
  unfold Reassembler.push
  cases hf : inspect L p.2 link with
  | none =>
    exact h.pass (t := .whole p.1)
      ⟨p.2, List.mem_append_right _ (List.mem_singleton_self p), hf⟩ rfl
  | some f => exact h.push_fragment hr hf

end Accounted

/-- After every run each position is accounted for once. -/
theorem pushes_accounted (L : Layers) (link : ProtoId) (ps : List (ℕ × Bytes)) :
    Accounted L link ps (pushes L link ps) :=
  pushes_induction .init (fun ps p h => h.push (pushes_kept L link ps).1 p) ps

end Wiry.Frag
