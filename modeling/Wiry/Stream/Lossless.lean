/-
When `reassembled` neither loses nor repeats an octet: exactly where no frame it asks for is refused.

What is left of an eaten packet is framed in one part, so a packet longer than the length field of
its header can tell of, which dissects where that field is 0, loses the rest behind a message.
-/
import Wiry.Stream.Conserved

set_option autoImplicit false
set_option linter.dupNamespace false

namespace Wiry.Stream

open Wiry.Packet Wiry.Extents

/-! ## Rows -/

/-- The row frames the octet. -/
def Row.carries (i : ℕ) (d : Fin 2) (o : ℕ) (r : Row) : Bool :=
  r.part.any fun p => p.Carries i d o

/-- The row is packet `i` as itself. -/
def Row.itself (i : ℕ) (r : Row) : Bool := r.body = .Src i ∧ r.kind = 0

section Lossless

variable (L : Layers) (frames : List Bytes) (link : ProtoId) (streams : List Stream)

/-- The positions of the packets eaten. -/
def eaten : List ℕ := (framing L frames link streams).eaten

/-- **Nothing is lost or repeated**: every packet is in the list once as itself or is eaten, and
each octet of a direction that came from an eaten packet is in the payload of one framed row, the
octets of the others in none. -/
structure Lossless : Prop where
  whole : ∀ i < frames.length, (rows L frames link streams).countP (Row.itself i) =
    if i ∈ eaten L frames link streams then 0 else 1
  framed : ∀ i st d o seg, streams[i]? = some st → (st.halves d).seg_at o = some seg →
    seg.pkt ∈ eaten L frames link streams →
      (rows L frames link streams).countP (Row.carries i d o) = 1
  untouched : ∀ i st d o seg, streams[i]? = some st → (st.halves d).seg_at o = some seg →
    seg.pkt ∉ eaten L frames link streams →
      (rows L frames link streams).countP (Row.carries i d o) = 0
  payload : ∀ r ∈ rows L frames link streams, ∀ p, r.part = some p → r.kind = 1 ∧
    ∃ f s st, r.body = .Built f ∧ splice L (bytes_at frames r.at_) link = some s ∧
      streams[p.stream]? = some st ∧
      f.drop s.payload = slice (st.halves p.dir).data p.at_ (p.at_ + p.len)

/-- So many octets fit behind the headers of a packet: they are whole, and their length fields
can tell of that many. -/
def Fits (src : Bytes) (len : ℕ) : Prop := ∃ s, splice L src link = some s ∧
  s.tcp + 20 ≤ s.payload ∧ s.ip + (if s.v6 then 40 else 20) ≤ s.tcp ∧ len ≤ room s

variable {L frames link streams}

theorem splice_le {src : Bytes} {s : Splice} (h : splice L src link = some s) :
    s.payload ≤ src.length := by
  unfold splice at h
  dsimp only at h
  split at h
  · split at h
    · rename_i hle
      rw [← Option.some.inj h]
      exact hle
    · exact absurd h nofun
  · exact absurd h nofun

/-- What a row made of a frame is. -/
theorem row_eq_some {a : Asked} {r : Row} :
    a.row = some r ↔ ∃ f, a.frame = some f ∧ r = ⟨a.pkt, .Built f, 1, some a.part⟩ := by
  unfold Asked.row
  rw [Option.map_eq_some_iff]
  exact exists_congr fun f => and_congr_right fun _ => eq_comm

theorem perm_rows : (rows L frames link streams).Perm
    ((asked L frames link streams).filterMap Asked.row ++
      passed frames (eaten L frames link streams)) := List.perm_insertionSort by_place _

/-- A row is a frame that was built or a packet that passes through. -/
theorem mem_rows {r : Row} (hr : r ∈ rows L frames link streams) :
    (∃ a ∈ asked L frames link streams, ∃ f, a.frame = some f ∧
      r = ⟨a.pkt, .Built f, 1, some a.part⟩) ∨
    ∃ i, r = ⟨i, .Src i, 0, none⟩ := by
  rcases List.mem_append.1 (perm_rows.subset hr) with hr | hr
  · obtain ⟨a, ha, hrow⟩ := List.mem_filterMap.1 hr
    exact Or.inl ⟨a, ha, row_eq_some.1 hrow⟩
  · obtain ⟨i, -, rfl⟩ := List.mem_map.1 hr
    exact Or.inr ⟨i, rfl⟩

/-- A packet that is not eaten is a row, once. -/
theorem countP_itself {i : ℕ} (hi : i < frames.length) :
    (rows L frames link streams).countP (Row.itself i) =
      if i ∈ eaten L frames link streams then 0 else 1 := by
  -- The rows of framed messages are none of them the frame itself.
  have hframed : ((asked L frames link streams).filterMap Asked.row).countP (Row.itself i) = 0 := by
    rw [List.countP_eq_zero]
    intro r hr
    obtain ⟨a, -, hrow⟩ := List.mem_filterMap.1 hr
    obtain ⟨f, -, rfl⟩ := row_eq_some.1 hrow
    simp [Row.itself]
  rw [perm_rows.countP_eq, List.countP_append, hframed, Nat.zero_add]
  unfold passed
  rw [List.countP_map, List.countP_filter]
  have hcount : (List.range frames.length).countP
      (fun j => (Row.itself i ∘ fun j => ⟨j, .Src j, 0, none⟩) j &&
        decide (j ∉ eaten L frames link streams)) =
      (List.range frames.length).countP
        (fun j => decide (j = i ∧ i ∉ eaten L frames link streams)) := by
    apply List.countP_congr
    intro j _
    simp only [Row.itself, Function.comp_apply, RowBody.Src.injEq, and_true, Bool.and_eq_true,
      decide_eq_true_eq]
    exact ⟨fun ⟨hj, hmem⟩ => ⟨hj, hj ▸ hmem⟩, fun ⟨hj, hmem⟩ => ⟨hj, hj.symm ▸ hmem⟩⟩
  rw [hcount]
  -- What is left are the positions not eaten, each once.
  by_cases he : i ∈ eaten L frames link streams
  · rw [if_pos he, List.countP_eq_zero]
    intro j _
    simp [he]
  · rw [if_neg he]
    have hone := List.count_eq_one_of_mem (List.nodup_range (n := frames.length))
      (List.mem_range.2 hi)
    unfold List.count at hone
    rw [← hone]
    apply List.countP_congr
    intro j _
    simp [he]

/-- The rows frame what the frames that were built carry. -/
theorem countP_carries (i : ℕ) (d : Fin 2) (o : ℕ) :
    (rows L frames link streams).countP (Row.carries i d o) =
      (asked L frames link streams).countP fun a => a.frame.isSome && a.part.Carries i d o := by
  have hpassed : (passed frames (eaten L frames link streams)).countP (Row.carries i d o) = 0 := by
    rw [List.countP_eq_zero]
    intro r hr
    obtain ⟨j, -, rfl⟩ := List.mem_map.1 hr
    simp [Row.carries]
  rw [perm_rows.countP_eq, List.countP_append, hpassed, Nat.add_zero, List.countP_filterMap]
  apply List.countP_congr
  intro a _
  rcases hf : a.frame with - | f
  · simp [Asked.row, hf]
  · simp [Asked.row, hf, Row.carries]

end Lossless

/-! ## What is asked for -/

/-- The list's positions are distinct while they fit their 32 bits. -/
theorem positioned_nodup {frames : List Bytes} (hn : frames.length ≤ 2 ^ 32) (link : ProtoId) :
    ((positioned frames link).map Push.pos).Nodup := by
  have hpos : (positioned frames link).map Push.pos = List.range frames.length := by
    unfold positioned
    rw [List.map_map, List.range_eq_range', ← List.zipIdx_map_snd 0 frames]
    apply List.map_congr_left
    intro x hx
    have hlt := List.snd_lt_of_mem_zipIdx hx
    exact Nat.mod_eq_of_lt (by omega)
  rw [hpos]
  exact List.nodup_range

section Asked

variable {L : Layers} {frames : List Bytes} {link : ProtoId} {keys : List Key}

/-- The segments of a direction handed back tile its data. -/
theorem halves_tile (hk : keys.Perm (pushes L (positioned frames link)).live.keys) {st : Stream}
    (hst : st ∈ streams_of L frames link keys) (d : Fin 2) :
    Half.Tiles 0 (st.halves d).segs (st.halves d).data.length ∧
      (st.halves d).data.length ≤ MAX_STREAM := by
  obtain ⟨k, life, hmade⟩ := finish_sourced L (positioned frames link) hk st hst
  rw [hmade.halves]
  rcases (Build.run_accounted (st.fed L life k d)).2 with ⟨s, -, hacc⟩ | ⟨-, hdata, hsegs, -⟩
  · exact ⟨hacc.tiles, hacc.data_le⟩
  · rw [hdata, hsegs]
    exact ⟨rfl, Nat.zero_le _⟩

/-- A segment that holds an octet is the one found for it. -/
theorem seg_at_of_holds {h : Half UInt8} {n : ℕ} (ht : Half.Tiles 0 h.segs n) {seg : Seg}
    (hseg : seg ∈ h.segs) {o : ℕ} (ho : Holds (seg.at_, seg.len) o) :
    ∃ seg', h.seg_at o = some seg' ∧ seg'.pkt = seg.pkt := by
  have hpkt := Half.packet_at_of_mem ht hseg ho.1 ho.2
  unfold Half.packet_at at hpkt
  exact Option.map_eq_some_iff.1 hpkt

theorem extents_apart {taken : List Message} (h : taken.Pairwise Message.Clear) (i : ℕ)
    (d : Fin 2) : (extents_of taken i d).Pairwise Apart := by
  unfold extents_of
  rw [List.pairwise_map]
  refine (h.filter _).imp_of_mem fun {m n} hm hn hclear => ?_
  have hm := of_decide_eq_true (List.mem_filter.1 hm).2
  have hn := of_decide_eq_true (List.mem_filter.1 hn).2
  exact hclear (hm.1.trans hn.1.symm) (hm.2.trans hn.2.symm)

/-- The first loop, over the messages of the streams handed back. -/
structure FramedBy (L : Layers) (frames : List Bytes) (link : ProtoId) (streams : List Stream)
    (taken : List Message) : Prop where
  took : Took L frames link streams taken {} (framing L frames link streams)
  inside : ∀ m ∈ taken, ∃ st, streams[m.stream]? = some st ∧ 0 < m.len ∧
    m.at_ + m.len ≤ (st.halves m.dir).data.length
  clear : taken.Pairwise Message.Clear

/-- The messages that were framed. -/
theorem exists_taken (L : Layers) (frames : List Bytes) (link : ProtoId) (streams : List Stream) :
    ∃ taken, FramedBy L frames link streams taken := by
  obtain ⟨taken, hsub, htook⟩ : ∃ taken, taken.Sublist (app_messages L streams) ∧
      Took L frames link streams taken {} (framing L frames link streams) :=
    frame_messages_took _ _ _
  exact ⟨taken, htook, fun m hm => app_messages_inside (hsub.subset hm),
    (app_messages_clear L streams).sublist hsub⟩

namespace FramedBy

variable {streams : List Stream} {taken : List Message}

theorem claimed_eq (h : FramedBy L frames link streams taken) (i : ℕ) (d : Fin 2) :
    (framing L frames link streams).claimed i d = extents_of taken i d := h.took.claimed i d

theorem mem_eaten (h : FramedBy L frames link streams taken) {q : ℕ} :
    q ∈ eaten L frames link streams ↔ ∃ m ∈ taken, q ∈ eats streams m := by
  unfold eaten
  rw [h.took.eaten]
  exact List.mem_flatMap

end FramedBy

/-- The streams the list reassembles to, its messages framed. -/
structure Regrouped (L : Layers) (frames : List Bytes) (link : ProtoId) (streams : List Stream)
    (taken : List Message) : Prop extends FramedBy L frames link streams taken where
  tiles : ∀ st ∈ streams, ∀ d, Half.Tiles 0 (st.halves d).segs (st.halves d).data.length ∧
    (st.halves d).data.length ≤ MAX_STREAM
  /-- A packet is in one direction of one stream. -/
  lone : ∀ (i j : ℕ) (st st' : Stream) (d d' : Fin 2) (seg seg' : Seg),
    streams[i]? = some st → streams[j]? = some st' → seg ∈ (st.halves d).segs →
      seg' ∈ (st'.halves d').segs → seg.pkt = seg'.pkt → i = j ∧ d = d'

theorem exists_regrouped (hn : frames.length ≤ 2 ^ 32)
    (hk : keys.Perm (pushes L (positioned frames link)).live.keys) :
    ∃ taken, Regrouped L frames link (streams_of L frames link keys) taken := by
  obtain ⟨taken, htaken⟩ := exists_taken L frames link (streams_of L frames link keys)
  refine ⟨taken, htaken, fun st hst d => halves_tile hk hst d, ?_⟩
  intro i j st st' d d' seg seg' hi hj hseg hseg' hpkt
  exact packet_in_one_direction (positioned_nodup hn link) hk hi hj hseg hseg' hpkt

namespace Regrouped

variable {streams : List Stream} {taken : List Message} {st : Stream} {i o : ℕ} {d : Fin 2}
  {seg : Seg}

/-- What a message claims is of eaten packets. -/
theorem eaten_of_claimed (h : Regrouped L frames link streams taken) (hst : streams[i]? = some st)
    (hseg : seg ∈ (st.halves d).segs) (ho : Holds (seg.at_, seg.len) o) {e : ℕ × ℕ}
    (he : e ∈ extents_of taken i d) (hheld : Holds e o) : seg.pkt ∈ eaten L frames link streams := by
  obtain ⟨m, hm, rfl, rfl, rfl⟩ := mem_extents_of.1 he
  obtain ⟨st', hst', -, hle⟩ := h.inside m hm
  obtain rfl : st = st' := Option.some.inj (hst.symm.trans hst')
  obtain ⟨htiles, hmax⟩ := h.tiles st (List.mem_of_getElem? hst) m.dir
  rw [h.mem_eaten]
  refine ⟨m, hm, List.mem_map.2 ⟨seg, ?_, rfl⟩⟩
  rw [half_of_eq hst]
  exact mem_segs_in htiles (hmax.trans_lt (by decide)) hseg ho hheld hle

/-- A direction with an eaten packet has a message of its own. -/
theorem claimed_of_eaten (h : Regrouped L frames link streams taken) (hst : streams[i]? = some st)
    (hseg : seg ∈ (st.halves d).segs) (he : seg.pkt ∈ eaten L frames link streams) :
    extents_of taken i d ≠ [] := by
  obtain ⟨m, hm, heats⟩ := h.mem_eaten.1 he
  obtain ⟨st', hst', -, -⟩ := h.inside m hm
  obtain ⟨seg', hseg', hpkt⟩ := List.mem_map.1 heats
  rw [half_of_eq hst'] at hseg'
  obtain ⟨rfl, rfl⟩ := h.lone i m.stream st st' d m.dir seg seg' hst hst' hseg
    (mem_of_segs_in hseg') hpkt.symm
  exact List.ne_nil_of_mem (mem_extents_of.2 ⟨m, hm, rfl, rfl, rfl⟩)

/-! ## The frames asked for -/

/-- The messages' frames carry an octet once where a message holds it. -/
theorem carried_messages (h : Regrouped L frames link streams taken) (i : ℕ) (d : Fin 2) (o : ℕ) :
    carried (framing L frames link streams).asked i d o =
      if ∃ e ∈ extents_of taken i d, Holds e o then 1 else 0 := by
  rw [h.took.asked, ← times_of_apart (extents_apart h.clear i d) o]
  refine carried_taken (fun m hm => ?_) h.took.spliced i d o
  obtain ⟨st, hst, -, hle⟩ := h.inside m hm
  exact ⟨st, hst, hle⟩

/-- The rests of a direction carry an octet once where its packet is eaten and no message
holds it. -/
theorem carried_rests_of (h : Regrouped L frames link streams taken) (hst : streams[i]? = some st)
    (hseg : seg ∈ (st.halves d).segs) (ho : Holds (seg.at_, seg.len) o) :
    carried (rests_of L frames link (framing L frames link streams) i d (st.halves d)) i d o =
      if seg.pkt ∈ eaten L frames link streams ∧ ∀ e ∈ extents_of taken i d, ¬ Holds e o
        then 1 else 0 := by
  -- The extents are claimed in order of place, whatever order they were taken in.
  have hperm := List.perm_insertionSort by_extent (extents_of taken i d)
  have hsorted : ((extents_of taken i d).insertionSort by_extent).Pairwise
      fun e f => e.1 ≤ f.1 := by
    have : Std.Total by_extent := ⟨fun e f => by unfold by_extent; omega⟩
    have : IsTrans (ℕ × ℕ) by_extent := ⟨fun e f g hef hfg => by unfold by_extent at *; omega⟩
    refine (List.pairwise_insertionSort by_extent _).imp fun {e f} hef => ?_
    unfold by_extent at hef
    omega
  -- None taken of this half, or the rest between those that are.
  unfold rests_of
  dsimp only
  rw [h.claimed_eq]
  split
  · rename_i hnone
    have hnil : extents_of taken i d = [] := List.perm_nil.1 (hnone ▸ hperm).symm
    rw [if_neg (fun hc => h.claimed_of_eaten hst hseg hc.1 hnil)]
    rfl
  · rw [carried_half_rests (h.tiles st (List.mem_of_getElem? hst) d).1 hsorted hseg ho]
    refine if_congr (and_congr_right fun _ => ?_) rfl rfl
    exact forall_congr' fun e => imp_congr hperm.mem_iff Iff.rfl

end Regrouped

/-- The rests of a half are its own. -/
theorem mem_rests_of {fr : Framing} {i : ℕ} {d : Fin 2} {h : Half UInt8} {a : Asked}
    (ha : a ∈ rests_of L frames link fr i d h) : a.part.stream = i ∧ a.part.dir = d := by
  unfold rests_of at ha
  dsimp only at ha
  split at ha
  · exact absurd ha List.not_mem_nil
  · obtain ⟨hi, hd, -⟩ := mem_half_rests ha
    exact ⟨hi, hd⟩

/-- The rests that carry an octet of a direction are those of the direction. -/
theorem carried_rests {streams : List Stream} {fr : Framing} {st : Stream} {i : ℕ}
    (hst : streams[i]? = some st) (d : Fin 2) (o : ℕ) :
    carried (rests L frames link streams fr) i d o =
      carried (rests_of L frames link fr i d (st.halves d)) i d o := by
  have hzero : ∀ (j : ℕ) (e : Fin 2) (s : Stream), ¬ (j = i ∧ e = d) →
      carried (rests_of L frames link fr j e (s.halves e)) i d o = 0 :=
    fun j e s hne => carried_other (fun a ha => mem_rests_of ha) hne o
  have hone : carried (rests L frames link streams fr) i d o =
      carried (rests_of L frames link fr (0 + i) 0 (st.halves 0) ++
        rests_of L frames link fr (0 + i) 1 (st.halves 1)) i d o := by
    refine countP_zipIdx_flatMap hst fun s j hj => ?_
    change carried (_ ++ _) i d o = 0
    rw [carried_append, hzero j 0 s (fun h => hj (by omega)), hzero j 1 s (fun h => hj (by omega))]
  rw [hone, Nat.zero_add, carried_append]
  rcases Fin.exists_fin_two.1 ⟨d, rfl⟩ with rfl | rfl
  · rw [hzero i 1 st (fun h => absurd h.2 (by decide)), Nat.add_zero]
  · rw [hzero i 0 st (fun h => absurd h.2 (by decide)), Nat.zero_add]

/-- **The frames asked for carry each octet of an eaten packet once, and no other.** -/
theorem Regrouped.carried_asked {streams : List Stream} {taken : List Message} {st : Stream}
    {i o : ℕ} {d : Fin 2} {seg : Seg} (h : Regrouped L frames link streams taken)
    (hst : streams[i]? = some st) (hseg : (st.halves d).seg_at o = some seg) :
    carried (asked L frames link streams) i d o =
      if seg.pkt ∈ eaten L frames link streams then 1 else 0 := by
  obtain ⟨hmem, hlo, hhi⟩ :=
    Half.seg_at_spec (h.tiles st (List.mem_of_getElem? hst) d).1 hseg
  have ho : Holds (seg.at_, seg.len) o := ⟨hlo, hhi⟩
  unfold asked
  dsimp only
  rw [carried_append, h.carried_messages, carried_rests hst, h.carried_rests_of hst hmem ho]
  by_cases hheld : ∃ e ∈ extents_of taken i d, Holds e o
  · -- a message holds the octet, and so its packet is eaten
    obtain ⟨e, he, hin⟩ := hheld
    rw [if_pos ⟨e, he, hin⟩, if_neg (fun hc => hc.2 e he hin),
      if_pos (h.eaten_of_claimed hst hmem ho he hin)]
  · have hnone : ∀ e ∈ extents_of taken i d, ¬ Holds e o := fun e he hin => hheld ⟨e, he, hin⟩
    rw [if_neg hheld, Nat.zero_add]
    exact if_congr (and_iff_left hnone) rfl rfl

/-- What a frame asked for is: a packet's headers around octets of a direction, the first of them
an eaten packet's. -/
structure Made (L : Layers) (frames : List Bytes) (link : ProtoId) (streams : List Stream)
    (a : Asked) (st : Stream) : Prop where
  stream : streams[a.part.stream]? = some st
  starts : ∃ seg, (st.halves a.part.dir).seg_at a.part.at_ = some seg ∧
    seg.pkt ∈ eaten L frames link streams
  pos : 0 < a.part.len
  inside : a.part.at_ + a.part.len ≤ (st.halves a.part.dir).data.length
  frame : ∃ skip, a.frame = (splice L (bytes_at frames a.pkt) link).bind fun s =>
    reframe_with (bytes_at frames a.pkt) s skip
      (slice (st.halves a.part.dir).data a.part.at_ (a.part.at_ + a.part.len))

/-- A piece of a slice is a slice. -/
theorem piece_of_slice (f : Bytes) {a b k n : ℕ} (hb : b ≤ f.length) :
    ((slice f a b).drop k).take n =
      slice f (a + k) (a + k + (((slice f a b).drop k).take n).length) := by
  apply List.ext_getElem?
  intro j
  rw [slice_getElem?, List.length_take, List.length_drop, length_slice hb, List.getElem?_take,
    List.getElem?_drop, slice_getElem?]
  by_cases hj : j < min n (b - a - k)
  · rw [if_pos (by omega), if_pos (by omega), if_pos (by omega), Nat.add_assoc]
  · rw [if_neg (by omega : ¬ a + k + j < _)]
    split
    · exact if_neg (by omega)
    · rfl

section Made

variable {streams : List Stream} {taken : List Message} {a : Asked}

/-- The frames made for a message are made of its own octets. -/
theorem Regrouped.made_message (h : Regrouped L frames link streams taken) {m : Message}
    (hm : m ∈ taken) (ha : a ∈ frames_for L frames link streams m) :
    ∃ st, Made L frames link streams a st := by
  obtain ⟨st, hst, -, hle⟩ := h.inside m hm
  obtain ⟨s, hs⟩ := h.took.spliced m hm
  unfold frames_for at ha
  rw [hs] at ha
  obtain ⟨c, hc, rfl⟩ := List.mem_map.1 ha
  obtain ⟨-, hpart, hne⟩ := mem_chunks _ _ hc
  rw [Nat.sub_zero] at hpart
  have hbody := length_body_of hst hle
  have hlen := congrArg List.length hpart
  have hpos := List.length_pos_iff.2 hne
  rw [List.length_take, List.length_drop, hbody] at hlen
  generalize hat : c.2 * max (room s) 1 = at_ at hpart hlen ⊢
  -- the piece lies in the message, so the message eats its packet
  have hholds : Holds (m.at_, m.len) (m.at_ + at_) := by
    unfold Holds
    dsimp only
    omega
  obtain ⟨htiles, -⟩ := h.tiles st (List.mem_of_getElem? hst) m.dir
  obtain ⟨pre, seg, post, hsegs, hseg, hlo, hhi⟩ :=
    Half.seg_at_of_tiles htiles (o := m.at_ + at_) (by omega)
  have hmem : seg ∈ (st.halves m.dir).segs := by
    rw [hsegs]
    simp
  refine ⟨st, hst, ⟨seg, hseg, h.eaten_of_claimed hst hmem ⟨hlo, hhi⟩
    (mem_extents_of.2 ⟨m, hm, rfl, rfl, rfl⟩) hholds⟩, hpos, ?_,
    UInt32.ofNat (m.skip + at_), ?_⟩
  · dsimp only
    omega
  · have hslice : c.1 = slice (st.halves m.dir).data (m.at_ + at_) (m.at_ + at_ + c.1.length) := by
      conv_lhs => rw [hpart]
      unfold body_of
      rw [half_of_eq hst, piece_of_slice _ hle, ← half_of_eq hst]
      unfold body_of at hpart
      rw [← hpart]
    dsimp only
    rw [hs, Option.bind_some, ← hslice, ← hat]

/-- So are those made for the rests. -/
theorem Regrouped.made_rest (h : Regrouped L frames link streams taken)
    (ha : a ∈ rests L frames link streams (framing L frames link streams)) :
    ∃ st, Made L frames link streams a st := by
  obtain ⟨⟨st, i⟩, hst, ha⟩ := List.mem_flatMap.1 ha
  have hget : streams[i]? = some st := List.mem_zipIdx_iff_getElem?.1 hst
  -- The rests of either half are inside their segments, which the frames gave.
  have hhalf : ∀ d, a ∈ rests_of L frames link (framing L frames link streams) i d (st.halves d) →
      ∃ st, Made L frames link streams a st := by
    intro d ha
    obtain ⟨htiles, -⟩ := h.tiles st (List.mem_of_getElem? hget) d
    unfold rests_of at ha
    dsimp only at ha
    split at ha
    · exact absurd ha List.not_mem_nil
    · obtain ⟨hi, hd, seg, hseg, -, heaten, hlo, hpos, hhi⟩ := mem_half_rests ha
      have hle := htiles.mem_le hseg
      obtain ⟨seg', hat, hpkt⟩ := seg_at_of_holds htiles hseg
        (o := a.part.at_) ⟨hlo, by dsimp only; omega⟩
      refine ⟨st, ?_, ⟨seg', ?_, ?_⟩, hpos, ?_, ?_⟩
      · rw [hi]
        exact hget
      · rw [hd]
        exact hat
      · rw [hpkt]
        exact heaten
      · rw [hd]
        omega
      · rw [hd]
        exact frame_half_rests ha
  rcases List.mem_append.1 ha with ha | ha
  · exact hhalf 0 ha
  · exact hhalf 1 ha

theorem Regrouped.made (h : Regrouped L frames link streams taken)
    (ha : a ∈ asked L frames link streams) : ∃ st, Made L frames link streams a st := by
  unfold asked at ha
  dsimp only at ha
  rcases List.mem_append.1 ha with ha | ha
  · rw [h.took.asked] at ha
    obtain ⟨m, hm, ha⟩ := List.mem_flatMap.1 ha
    exact h.made_message hm ha
  · exact h.made_rest ha

/-- A frame is built exactly where its octets fit behind the headers. -/
theorem Made.isSome_iff {st : Stream} (h : Made L frames link streams a st) :
    a.frame.isSome ↔ Fits L link (bytes_at frames a.pkt) a.part.len := by
  obtain ⟨skip, hframe⟩ := h.frame
  have hlen : (slice (st.halves a.part.dir).data a.part.at_ (a.part.at_ + a.part.len)).length =
      a.part.len := by
    rw [length_slice h.inside]
    omega
  rw [hframe]
  unfold Fits
  rcases hs : splice L (bytes_at frames a.pkt) link with - | s
  · simp
  · rw [Option.bind_some, reframe_with_isSome, hlen]
    simp

/-- A frame that was built carries its octets behind its headers. -/
theorem Made.payload {st : Stream} (h : Made L frames link streams a st) {f : Bytes}
    (hf : a.frame = some f) : ∃ s, splice L (bytes_at frames a.pkt) link = some s ∧
      f.drop s.payload = slice (st.halves a.part.dir).data a.part.at_ (a.part.at_ + a.part.len) := by
  obtain ⟨skip, hframe⟩ := h.frame
  obtain ⟨s, hs, hbuilt⟩ := Option.bind_eq_some_iff.1 (hframe.symm.trans hf)
  exact ⟨s, hs, reframe_with_payload (splice_le hs) hbuilt⟩

/-! ## When nothing is lost -/

/-- A refused frame takes its first octet out of the list. -/
theorem Regrouped.lost (h : Regrouped L frames link streams taken)
    (ha : a ∈ asked L frames link streams) (hnone : a.frame = none) :
    ¬ Lossless L frames link streams := by
  intro hl
  obtain ⟨st, hmade⟩ := h.made ha
  obtain ⟨seg, hseg, heaten⟩ := hmade.starts
  have hone := h.carried_asked hmade.stream hseg
  rw [if_pos heaten] at hone
  have hrows := hl.framed _ st _ _ seg hmade.stream hseg heaten
  rw [countP_carries] at hrows
  -- the one frame asked for that octet is the refused one
  have hsplit := List.countP_eq_countP_filter_add (asked L frames link streams)
    (fun b => decide (b.part.Carries a.part.stream a.part.dir a.part.at_))
    fun b => b.frame.isSome
  have hbuilt : ((asked L frames link streams).filter fun b => b.frame.isSome).countP
      (fun b => decide (b.part.Carries a.part.stream a.part.dir a.part.at_)) = 1 := by
    rw [List.countP_filter, ← hrows]
    exact List.countP_congr fun b _ => by rw [Bool.and_comm]
  have hrefused : 0 < ((asked L frames link streams).filter fun b => !b.frame.isSome).countP
      (fun b => decide (b.part.Carries a.part.stream a.part.dir a.part.at_)) := by
    have hpos := hmade.pos
    refine List.countP_pos_iff.2 ⟨a, List.mem_filter.2 ⟨ha, by rw [hnone]; rfl⟩, ?_⟩
    exact decide_eq_true ⟨rfl, rfl, Nat.le_refl _, by dsimp only; omega⟩
  unfold carried at hone
  omega

/-- Where every frame is built, the rows carry what is asked for. -/
theorem Regrouped.lossless (h : Regrouped L frames link streams taken)
    (hall : ∀ a ∈ asked L frames link streams, a.frame.isSome) :
    Lossless L frames link streams := by
  -- with every frame made, what is asked for is what is written
  have hrows : ∀ i d o, (rows L frames link streams).countP (Row.carries i d o) =
      carried (asked L frames link streams) i d o := by
    intro i d o
    rw [countP_carries]
    apply List.countP_congr
    intro a ha
    rw [hall a ha, Bool.true_and]
  refine ⟨fun i hi => countP_itself hi, ?_, ?_, ?_⟩
  · intro i st d o seg hst hseg heaten
    rw [hrows, h.carried_asked hst hseg, if_pos heaten]
  · intro i st d o seg hst hseg heaten
    rw [hrows, h.carried_asked hst hseg, if_neg heaten]
  · intro r hr p hp
    rcases mem_rows hr with ⟨a, ha, f, hf, rfl⟩ | ⟨i, rfl⟩
    · obtain ⟨st, hmade⟩ := h.made ha
      obtain rfl : a.part = p := Option.some.inj hp
      obtain ⟨s, hs, hpayload⟩ := hmade.payload hf
      exact ⟨rfl, f, s, st, rfl, hs, hmade.stream, hpayload⟩
    · exact absurd hp nofun

end Made

/-- **When `reassembled` loses and repeats nothing**: exactly where each part it frames fits behind
the headers of the packet it is framed with. -/
theorem reassembled_lossless_iff (L : Layers) (frames : List Bytes) (link : ProtoId)
    (hn : frames.length ≤ 2 ^ 32) (keys : List Key)
    (hk : keys.Perm (pushes L (positioned frames link)).live.keys) :
    Lossless L frames link (streams_of L frames link keys) ↔
      ∀ a ∈ asked L frames link (streams_of L frames link keys),
        Fits L link (bytes_at frames a.pkt) a.part.len := by
  obtain ⟨taken, h⟩ := exists_regrouped hn hk
  constructor
  · intro hl a ha
    obtain ⟨st, hmade⟩ := h.made ha
    rw [← hmade.isSome_iff, Option.isSome_iff_ne_none]
    exact fun hnone => h.lost ha hnone hl
  · intro hall
    refine h.lossless fun a ha => ?_
    obtain ⟨st, hmade⟩ := h.made ha
    exact hmade.isSome_iff.2 (hall a ha)

end Asked

/-- The frames of two records, the second sent with the end of the first again. -/
def sent_again_frames : List Bytes := sent_again.map Push.buf

theorem sent_again_frames_perm : sent_again_keys.Perm
    (pushes tls_layers (positioned sent_again_frames .Ether)).live.keys := sent_again_keys_perm

/-- Both records are framed again, and nothing is lost. -/
theorem reassembled_lossless_sent_again :
    Lossless tls_layers sent_again_frames .Ether
      (streams_of tls_layers sent_again_frames .Ether sent_again_keys) := by
  have hbuilt : ∀ a ∈ asked tls_layers sent_again_frames .Ether
      (streams_of tls_layers sent_again_frames .Ether sent_again_keys), a.frame.isSome := by
    decide +kernel
  have hn : sent_again_frames.length ≤ 2 ^ 32 := by decide
  refine (reassembled_lossless_iff tls_layers sent_again_frames .Ether hn sent_again_keys
    sent_again_frames_perm).2 fun a ha => ?_
  obtain ⟨taken, h⟩ := exists_regrouped hn sent_again_frames_perm
  obtain ⟨st, hmade⟩ := h.made ha
  exact hmade.isSome_iff.1 (hbuilt a ha)

/-! ## A sufficient condition -/

/-- A segment handed back is no longer than what its packet carried. -/
theorem Build.seg_len_le {α : Type} {as pre post : List (Arrival α)} {f : Arrival α} {seg : Seg}
    (hn : (as.map Arrival.pkt).Nodup) (has : as = pre ++ f :: post)
    (hseg : seg ∈ (reassembled as).segs) (hpkt : seg.pkt = f.pkt) : seg.len ≤ f.data.length := by
  rcases Nat.eq_zero_or_pos seg.len with hzero | hpos
  · omega
  obtain ⟨s, -, -, hplace⟩ := accounted_of_mem hseg
  -- the first octet and the last stand as far apart as they are handed back
  obtain ⟨q, hq, hle, -, -⟩ := octet_stands hn has hseg le_rfl (by omega) hpkt
  obtain ⟨q', hq', -, hlt, -⟩ :=
    octet_stands hn has hseg (o := seg.at_ + seg.len - 1) (by omega) (by omega) hpkt
  have hinside : (reassembled as).missing (seg.at_ + seg.len - 1) = (reassembled as).missing seg.at_ :=
    Half.missing_in_seg (unbroken_finished as hn).whole hseg (by omega) (by omega)
  rw [hplace] at hq hq'
  have hfirst := Option.some.inj hq
  have hlast := Option.some.inj hq'
  omega

/-- A segment with data has its headers inside the frame, and the data behind them. -/
theorem splice_of_segment {L : Layers} {src : Bytes} {link : ProtoId} {g : Segment}
    (hg : inspect L src link = some g) (hne : 0 < (slice src g.at_ g.end_).length) :
    ∃ s, splice L src link = some s ∧ s.payload + (slice src g.at_ g.end_).length ≤ src.length := by
  obtain ⟨tcp, ip, a, b, htcp, hip, -, rfl⟩ := inspect_spec hg
  have hlen : (slice src (segment_at src tcp a b (ip.proto = .Ipv6)).at_
      (segment_at src tcp a b (ip.proto = .Ipv6)).end_).length =
      min (max (min (tcp.off + tcp.total) src.length) (min (tcp.off + tcp.hlen) src.length)) src.length -
        min (tcp.off + tcp.hlen) src.length := by
    rw [slice, List.length_drop, List.length_take]
    rfl
  rw [hlen] at hne ⊢
  have hin : tcp.off + tcp.hlen ≤ src.length := by omega
  refine ⟨⟨ip.off, tcp.off, tcp.off + tcp.hlen, ip.proto = .Ipv6⟩, ?_, ?_⟩
  · unfold splice
    dsimp only
    rw [htcp, hip]
    exact if_pos hin
  · dsimp only
    omega

section Roomy

variable {L : Layers} {frames : List Bytes} {link : ProtoId} {keys : List Key}

/-- The headers of a frame are whole, and its length fields can tell of all the octets behind
them. -/
def Roomy (L : Layers) (link : ProtoId) (src : Bytes) : Prop := ∀ s, splice L src link = some s →
  s.tcp + 20 ≤ s.payload ∧ s.ip + (if s.v6 then 40 else 20) ≤ s.tcp ∧ 0 < room s ∧
    src.length ≤ s.payload + room s

/-- The packet of a segment is a frame of the list, and carried the segment's octets. -/
theorem frame_of_seg (hn : frames.length ≤ 2 ^ 32)
    (hk : keys.Perm (pushes L (positioned frames link)).live.keys) {st : Stream}
    (hst : st ∈ streams_of L frames link keys) {d : Fin 2} {seg : Seg}
    (hseg : seg ∈ (st.halves d).segs) :
    bytes_at frames seg.pkt ∈ frames ∧ ∃ g, inspect L (bytes_at frames seg.pkt) link = some g ∧
      seg.len ≤ (slice (bytes_at frames seg.pkt) g.at_ g.end_).length := by
  obtain ⟨k, life, hmade⟩ := finish_sourced L (positioned frames link) hk st hst
  rw [hmade.halves] at hseg
  obtain ⟨f, hf, hpkt⟩ := exists_arrival hseg
  obtain ⟨pre, post, has⟩ := List.append_of_mem hf
  have hlen := Build.seg_len_le (hmade.nodup_pkts (positioned_nodup hn link) d) has hseg hpkt.symm
  obtain ⟨p, hp, g, hg, -, rfl⟩ := hmade.mem_fed hf
  obtain ⟨x, hx, rfl⟩ := List.mem_map.1 hp
  have hget : frames[x.2]? = some x.1 := List.mem_zipIdx_iff_getElem?.1 hx
  have hpos : seg.pkt = x.2 := by
    have hlt := List.snd_lt_of_mem_zipIdx hx
    rw [← hpkt]
    exact Nat.mod_eq_of_lt (by omega)
  have hbytes : bytes_at frames seg.pkt = x.1 := by
    rw [hpos, bytes_at, List.getD_eq_getElem?_getD, hget, Option.getD_some]
  rw [hbytes]
  exact ⟨List.mem_of_getElem? hget, g, hg, hlen⟩

/-- Frames with room for what they carried have room for what is framed behind their headers. -/
theorem asked_fits (hn : frames.length ≤ 2 ^ 32) (hroomy : ∀ src ∈ frames, Roomy L link src)
    (hk : keys.Perm (pushes L (positioned frames link)).live.keys) {a : Asked}
    (ha : a ∈ asked L frames link (streams_of L frames link keys)) :
    Fits L link (bytes_at frames a.pkt) a.part.len := by
  rcases List.mem_append.1 ha with ha | ha
  -- a piece of a message is cut to the room of the packet the message starts in
  · obtain ⟨taken, hsub, htook⟩ : ∃ taken, taken.Sublist (app_messages L (streams_of L frames link keys)) ∧
        Took L frames link (streams_of L frames link keys) taken {} (framing L frames link
          (streams_of L frames link keys)) := frame_messages_took _ _ _
    rw [htook.asked] at ha
    obtain ⟨m, hm, ha⟩ := List.mem_flatMap.1 ha
    obtain ⟨s, hs⟩ := htook.spliced m hm
    unfold frames_for at ha
    rw [hs] at ha
    obtain ⟨c, hc, rfl⟩ := List.mem_map.1 ha
    obtain ⟨-, hpart, -⟩ := mem_chunks _ _ hc
    obtain ⟨st, hst, seg, hseg, hpkt, -⟩ := mem_app_messages (hsub.subset hm)
    obtain ⟨hmem, -⟩ := frame_of_seg hn hk (List.mem_of_getElem? hst) (Half.seg_at_mem hseg).1
    rw [← hpkt] at hmem
    obtain ⟨htcp, hip, hroom, -⟩ := hroomy _ hmem s hs
    refine ⟨s, hs, htcp, hip, ?_⟩
    have hlen := congrArg List.length hpart
    rw [List.length_take] at hlen
    dsimp only
    omega
  -- a rest is part of a segment, which its packet carried
  · obtain ⟨⟨st, i⟩, hst, ha⟩ := List.mem_flatMap.1 ha
    have hget := List.mem_zipIdx_iff_getElem?.1 hst
    have hhalf : ∀ d, a ∈ rests_of L frames link (framing L frames link (streams_of L frames link keys)) i d
        (st.halves d) → Fits L link (bytes_at frames a.pkt) a.part.len := by
      intro d ha
      unfold rests_of at ha
      dsimp only at ha
      split at ha
      · exact absurd ha List.not_mem_nil
      · obtain ⟨-, -, seg, hseg, hpkt, -, hlo, hpos, hhi⟩ := mem_half_rests ha
        obtain ⟨hmem, g, hg, hlen⟩ := frame_of_seg hn hk (List.mem_of_getElem? hget) hseg
        obtain ⟨s, hs, hin⟩ := splice_of_segment hg (by omega)
        obtain ⟨htcp, hip, -, hoctets⟩ := hroomy _ hmem s hs
        rw [hpkt]
        exact ⟨s, hs, htcp, hip, by omega⟩
    rcases List.mem_append.1 ha with ha | ha
    · exact hhalf 0 ha
    · exact hhalf 1 ha

/-- **A list of frames with room loses nothing.** -/
theorem lossless_of_roomy (hn : frames.length ≤ 2 ^ 32) (hroomy : ∀ src ∈ frames, Roomy L link src)
    (hk : keys.Perm (pushes L (positioned frames link)).live.keys) :
    Lossless L frames link (streams_of L frames link keys) := by
  obtain ⟨taken, h⟩ := exists_regrouped hn hk
  refine h.lossless fun a ha => ?_
  obtain ⟨st, hmade⟩ := h.made ha
  exact hmade.isSome_iff.2 (asked_fits hn hroomy hk ha)

end Roomy

/-- The records of the new list: a packet that passes through with its own octets and times, or a
frame with the times of the packet whose headers it has, as long as it says. -/
theorem mem_reassembled {L : Layers} {list : List Record} {link : ProtoId} {keys : List Key}
    {rec : Record} {kind : ℕ} (h : (rec, kind) ∈ reassembled L list link keys) :
    ∃ i, rec.sec = (list.getD i ⟨[], 0, 0, 0⟩).sec ∧ rec.frac = (list.getD i ⟨[], 0, 0, 0⟩).frac ∧
      (kind = 0 ∧ rec.data = (list.map Record.data).getD i [] ∨
        kind = 1 ∧ rec.wirelen = rec.data.length % 2 ^ 32) := by
  obtain ⟨r, hr, hrec⟩ := List.mem_map.1 h
  obtain ⟨rfl, rfl⟩ := Prod.mk.inj hrec
  rcases mem_rows hr with ⟨a, -, f, -, rfl⟩ | ⟨i, rfl⟩
  · exact ⟨a.pkt, rfl, rfl, Or.inr ⟨rfl, rfl⟩⟩
  · exact ⟨i, rfl, rfl, Or.inl ⟨rfl, rfl⟩⟩

example : (reassembled tls_layers (sent_again_frames.map fun f => ⟨f, 1, 0, 60⟩) .Ether
    sent_again_keys).map (fun r => (r.1.data.length, r.2)) = [(60, 1), (60, 1)] := by
  decide +kernel

/-! ## A packet longer than a frame can tell -/

/-- An IPv4 header whose total length is 0, as segments handed to the card have it, between an
Ethernet header and the TCP header of a SYN. -/
def long_head : Bytes :=
  ether_header ++ [0x45, 0, 0, 0, 0, 1, 0, 0, 64, 6, 0, 0, 10, 0, 0, 1, 10, 0, 0, 2] ++
    tcp_header 40000 443 1000 0x02

theorem length_long_head : long_head.length = 54 := by decide

/-- A layer that is whole. -/
theorem walk_layer (T : Table) (buf : Bytes) (n off end_ hlen : ℕ) (p : ProtoId)
    (parent : Option ProtoId) {hdr : Bytes} (hclass : ∀ b, T.resolve p b = p)
    (hpre : parent.elim 0 (fun r => T.framing r p) = 0) (hhdr : slice buf off end_ = hdr)
    (hmin : (T.desc p).min_len ≤ end_ - off)
    (hlen_eq : min (max ((T.desc p).header_len hdr) (T.desc p).min_len) (end_ - off) = hlen) :
    ∃ rest, (walk T buf true (n + 1) off end_ p parent).1 = ⟨p, off, hlen, end_ - off⟩ :: rest ∧
      ∀ q, tightened true (T.desc p) hdr 0 off hlen end_ = end_ → off + hlen < end_ →
        next_of T p hdr = .Proto q → rest = (walk T buf true n (off + hlen) end_ q (some p)).1 := by
  have hof : class_of T true p (slice buf (min off end_) end_) = p := hclass _
  rw [walk, hof]
  dsimp only
  rw [hpre, Nat.add_zero, if_neg (by omega), Nat.add_zero, hhdr, Nat.zero_add, hlen_eq]
  refine ⟨_, rfl, fun q hstop hmore hnext => ?_⟩
  rw [hstop, if_pos hmore, hnext]

/-- A layer's own answer stands where no binding is declared. -/
theorem next_of_own {T : Table} {p q : ProtoId} {hdr : Bytes} (hbound : T.bound_next p hdr = none)
    (hnext : (T.desc p).next hdr = .Proto q) : next_of T p hdr = .Proto q := by
  unfold next_of
  rw [hbound]
  dsimp only
  rw [hnext]

section Head

variable (data : Bytes)

theorem length_behind (a : ℕ) :
    (long_head.drop a ++ data).length = 54 - a + data.length := by
  rw [List.length_append, List.length_drop, length_long_head]

theorem ether_of_long : (ether_desc tls_layers).next (long_head.drop 0 ++ data) =
    .Proto .Ipv4 := by
  have htype : be16 (long_head.drop 0 ++ data) 12 = 0x0800 := by
    rw [be16_append_left data (by decide)]
    decide
  unfold ether_desc
  dsimp only
  rw [if_neg (by rw [length_behind]; omega), htype, if_neg (by decide)]
  rfl

/-- The header of the long frame, whatever its payload. -/
theorem ipv4_of_long : (ipv4_desc tls_layers).header_len (long_head.drop 14 ++ data) = 20 ∧
    (∀ end_, tightened true (ipv4_desc tls_layers) (long_head.drop 14 ++ data) 0 14 20 end_ = end_) ∧
    (ipv4_desc tls_layers).next (long_head.drop 14 ++ data) = .Proto .Tcp := by
  have hlen := length_behind data 14
  refine ⟨?_, fun end_ => ?_, ?_⟩
  -- A header of five words.
  · have hfirst : (long_head.drop 14 ++ data).getD 0 0 = 0x45 := by
      rw [getD_append_left data (by decide)]
      decide
    have hempty : ¬ (long_head.drop 14 ++ data).isEmpty = true := by
      rw [List.isEmpty_iff]
      intro hnil
      have hzero := congrArg List.length hnil
      rw [hlen] at hzero
      exact absurd hzero (by simp)
    unfold ipv4_desc
    dsimp only
    rw [if_neg hempty, hfirst]
    decide
  -- A total length of zero claims no end.
  · have htotal : be16 (long_head.drop 14 ++ data) 2 = 0 := by
      rw [be16_append_left data (by decide)]
      decide
    have hclaim : (if (long_head.drop 14 ++ data).length < 4 then 0
        else (be16 (long_head.drop 14 ++ data) 2).toNat) = 0 := by
      rw [if_neg (by omega), htotal]
      rfl
    unfold tightened ipv4_desc
    dsimp only
    refine if_neg ?_
    rintro ⟨-, hge, -⟩
    rw [hclaim] at hge
    exact absurd hge (by decide)
  -- No fragment, and TCP behind it.
  · have hfrag : be16 (long_head.drop 14 ++ data) 6 = 0 := by
      rw [be16_append_left data (by decide)]
      decide
    have hproto : (long_head.drop 14 ++ data).getD 9 0 = 6 := by
      rw [getD_append_left data (by decide)]
      decide
    unfold ipv4_desc
    dsimp only
    rw [if_neg (by omega : ¬ (long_head.drop 14 ++ data).length < 20), hfrag, hproto,
      if_neg (by decide)]
    rfl

/-- The TCP header has no options. -/
theorem tcp_of_long : tcp_header_len (long_head.drop 34 ++ data) = 20 := by
  have hofs : (long_head.drop 34 ++ data).getD 12 0 = 0x50 := by
    rw [getD_append_left data (by decide)]
    decide
  unfold tcp_header_len
  rw [if_neg (by rw [length_behind]; omega), hofs]
  decide

/-- The spans of a frame with the head and any octets behind it. -/
theorem spans_long (hdata : data ≠ []) :
    ∃ rest, dissect_spans tls_layers (long_head ++ data) .Ether =
      ⟨.Ether, 0, 14, 54 + data.length⟩ :: ⟨.Ipv4, 14, 20, 40 + data.length⟩ ::
        ⟨.Tcp, 34, 20, 20 + data.length⟩ :: rest := by
  -- Layer by layer: Ethernet, IPv4, TCP, and whatever its payload is taken for.
  have hpos := List.length_pos_iff.2 hdata
  have hlen : (long_head ++ data).length = 54 + data.length := length_behind data 0
  have hslice : ∀ a, a ≤ 54 → slice (long_head ++ data) a (54 + data.length) =
      long_head.drop a ++ data := by
    intro a ha
    rw [slice, ← hlen, List.take_length,
      List.drop_append_of_le_length (by rw [length_long_head]; exact ha)]
  obtain ⟨hihl, htight, hipv4⟩ := ipv4_of_long data
  obtain ⟨ip, hether, hip⟩ := walk_layer tls_layers.table (long_head ++ data) 31 0
    (54 + data.length) 14 .Ether none (fun _ => rfl) rfl (hslice 0 (by omega)) (by change 14 ≤ _; omega)
    (by change min (max 14 14) _ = 14; omega)
  have hip := hip .Ipv4 rfl (by omega) (next_of_own rfl (ether_of_long data))
  obtain ⟨tcp, hspan, htcp⟩ := walk_layer tls_layers.table (long_head ++ data) 30 14
    (54 + data.length) 20 .Ipv4 (some .Ether) (fun _ => rfl) rfl (hslice 14 (by omega)) (by change 20 ≤ _; omega)
    (by
      change min (max ((ipv4_desc tls_layers).header_len _) 20) _ = 20
      rw [hihl]
      omega)
  have htcp := htcp .Tcp (htight _) (by omega) (next_of_own rfl hipv4)
  obtain ⟨rest, hlast, -⟩ := walk_layer tls_layers.table (long_head ++ data) 29 34
    (54 + data.length) 20 .Tcp (some .Ipv4) (fun _ => rfl) rfl (hslice 34 (by omega)) (by change 20 ≤ _; omega)
    (by
      have hofs : (tls_layers.table.desc .Tcp).header_len (long_head.drop 34 ++ data) = 20 :=
        tcp_of_long data
      rw [hofs]
      change min (max 20 20) _ = 20
      omega)
  have hspans : (walk tls_layers.table (long_head ++ data) true MAX_LAYERS 0
      (long_head ++ data).length (outermost (long_head ++ data) .Ether) none).1 =
      ⟨.Ether, 0, 14, 54 + data.length⟩ :: ⟨.Ipv4, 14, 20, 40 + data.length⟩ ::
        ⟨.Tcp, 34, 20, 20 + data.length⟩ :: rest := by
    have hout : outermost (long_head ++ data) .Ether = .Ether := rfl
    rw [hlen, hout]
    refine hether.trans ?_
    rw [hip, Nat.zero_add, hspan, htcp, hlast]
    simp only [List.cons.injEq, LayerSpan.mk.injEq, true_and, and_true]
    omega
  unfold dissect_spans spans_of
  dsimp only
  rw [hspans]
  split
  · exact ⟨_, rfl⟩
  · exact ⟨_, rfl⟩

/-- Where its payload starts. -/
theorem splice_long (hdata : data ≠ []) :
    splice tls_layers (long_head ++ data) .Ether = some ⟨14, 34, 54, false⟩ := by
  obtain ⟨rest, hspans⟩ := spans_long data hdata
  have htcp : first_tcp (dissect_spans tls_layers (long_head ++ data) .Ether) =
      some ⟨.Tcp, 34, 20, 20 + data.length⟩ := by
    rw [hspans]
    rfl
  have hip : first_ip (dissect_spans tls_layers (long_head ++ data) .Ether) =
      some ⟨.Ipv4, 14, 20, 40 + data.length⟩ := by
    rw [hspans]
    rfl
  unfold splice
  dsimp only
  rw [htcp, hip]
  refine if_pos ?_
  rw [List.length_append, length_long_head]
  exact Nat.le_add_right 54 _

/-- The segment of the frame. -/
theorem inspect_long (hdata : data ≠ []) :
    ∃ s, inspect tls_layers (long_head ++ data) .Ether = some s ∧ s.seq = 1000 ∧ s.flags = 0x02 ∧
      s.sport = 40000 ∧ s.dport = 443 ∧ slice (long_head ++ data) s.at_ s.end_ = data := by
  -- The words of the segment are those of the fixed head, at their own offsets.
  obtain ⟨rest, hspans⟩ := spans_long data hdata
  have hlen : (long_head ++ data).length = 54 + data.length := length_behind data 0
  have hdrop : (long_head ++ data).drop 34 = long_head.drop 34 ++ data :=
    List.drop_append_of_le_length (by rw [length_long_head]; omega)
  have htcp : first_tcp (dissect_spans tls_layers (long_head ++ data) .Ether) =
      some ⟨.Tcp, 34, 20, 20 + data.length⟩ := by
    rw [hspans]
    rfl
  have hip : first_ip (dissect_spans tls_layers (long_head ++ data) .Ether) =
      some ⟨.Ipv4, 14, 20, 40 + data.length⟩ := by
    rw [hspans]
    rfl
  have hrange : ∀ a b, a ≤ b → b ≤ 54 → get_range (long_head ++ data) a b =
      some (slice long_head a b) := by
    intro a b hab hb
    unfold get_range
    rw [if_pos ⟨hab, by omega⟩, slice_append_left data (by rw [length_long_head]; exact hb)]
  have haddr : addr_pair (long_head ++ data) ⟨.Ipv4, 14, 20, 40 + data.length⟩ =
      some (wide (slice long_head 26 30), wide (slice long_head 30 34)) := by
    unfold addr_pair
    dsimp only
    rw [if_neg (by decide), hrange _ _ (by omega) (by omega), hrange _ _ (by omega) (by omega)]
    rfl
  refine ⟨segment_at (long_head ++ data) ⟨.Tcp, 34, 20, 20 + data.length⟩
    (wide (slice long_head 26 30)) (wide (slice long_head 30 34)) false, ?_, ?_, ?_, ?_, ?_, ?_⟩
  · unfold inspect
    dsimp only
    rw [htcp, hip]
    dsimp only
    rw [haddr]
    exact if_pos ⟨by omega, by rw [hdrop, length_behind]; omega⟩
  · change be32 ((long_head ++ data).drop 34) 4 = 1000
    unfold be32
    rw [hdrop, be16_append_left data (by decide), be16_append_left data (by decide)]
    decide
  · change ((long_head ++ data).drop 34).getD 13 0 = 0x02
    rw [hdrop, getD_append_left data (by decide)]
    decide
  · change be16 ((long_head ++ data).drop 34) 0 = 40000
    rw [hdrop, be16_append_left data (by decide)]
    decide
  · change be16 ((long_head ++ data).drop 34) 2 = 443
    rw [hdrop, be16_append_left data (by decide)]
    decide
  · change slice (long_head ++ data) (min 54 (long_head ++ data).length)
      (max (min (34 + (20 + data.length)) (long_head ++ data).length)
        (min 54 (long_head ++ data).length)) = data
    have hat : min 54 (long_head ++ data).length = long_head.length := by
      rw [hlen, length_long_head]
      omega
    have hend : max (min (34 + (20 + data.length)) (long_head ++ data).length) long_head.length =
        long_head.length + data.length := by
      rw [hlen, length_long_head]
      omega
    rw [hat, hend, slice_append_right long_head rfl, List.take_length]

end Head

/-- What a SYN with a payload is handed back as, alone. -/
theorem reassembled_syn {data : Bytes} (hdata : data ≠ []) (hle : data.length ≤ MAX_STREAM)
    (pkt : ℕ) : (Build.reassembled [⟨1000, 0x02, data, pkt⟩]).data = data ∧
      (Build.reassembled [⟨1000, 0x02, data, pkt⟩]).segs = [⟨0, data.length, pkt⟩] := by
  have hpos := List.length_pos_iff.2 hdata
  have hempty : data.isEmpty = false := by
    rw [List.isEmpty_eq_false_iff]
    exact hdata
  -- the SYN opens the direction, and its payload is next
  let b : Build UInt8 := (({} : Build UInt8).anchor 1000).see_control (1000 + 2 ^ 32) 0x02
  have hfeed : Build.run [⟨1000, 0x02, data, pkt⟩] = b.feed_open (1000 + 2 ^ 32 + 1) data pkt := by
    have habsolute : (({} : Build UInt8).anchor 1000).absolute 1000 = 1000 + 2 ^ 32 := by decide
    have hpayload : Build.payload_at (1000 + 2 ^ 32) 0x02 = 1000 + 2 ^ 32 + 1 := by
      unfold Build.payload_at
      exact if_pos (by decide)
    have hopen : b.open_ = true := by decide
    change ({} : Build UInt8).feed 1000 0x02 data pkt = _
    unfold Build.feed
    dsimp only
    rw [if_neg (by rw [hempty]; exact Bool.false_ne_true), habsolute, hpayload]
    exact if_pos hopen
  have happend : b.feed_open (1000 + 2 ^ 32 + 1) data pkt = (b.append data pkt).drain := by
    unfold Build.feed_open
    dsimp only
    have horigin : ¬ (1000 + 2 ^ 32 + 1 < b.origin) := by decide
    have hnext : b.next = 1000 + 2 ^ 32 + 1 := by decide
    rw [if_neg horigin, if_neg (by rw [hnext]; omega), if_neg (by rw [hnext]; omega)]
    unfold Build.feed_ahead
    rw [if_neg (by rw [hnext]; omega)]
  have hheld : (b.append data pkt).held.first = none := by
    rw [Build.held_append]
    rfl
  have hhalf : (b.append data pkt).half.data = data ∧
      (b.append data pkt).half.segs = [⟨0, data.length, pkt⟩] := by
    have hnone : b.half.data = [] := rfl
    have hroom : ¬ MAX_STREAM = 0 := by
      unfold MAX_STREAM
      decide
    unfold Build.append
    dsimp only
    rw [hnone, List.length_nil, Nat.sub_zero, if_neg hroom, Nat.min_eq_left hle,
      if_neg (Nat.lt_irrefl _)]
    refine ⟨?_, rfl⟩
    rw [List.take_length]
    rfl
  have hdrain : (b.append data pkt).drain = b.append data pkt := by
    rw [Build.drain]
    split
    · rename_i hfirst
      rw [hheld] at hfirst
      exact absurd hfirst nofun
    · rfl
  have hfinish : Build.reassembled [⟨1000, 0x02, data, pkt⟩] = (b.append data pkt).half := by
    have hopen : (b.append data pkt).open_ = true := by
      unfold Build.append
      dsimp only
      split
      · rfl
      · rfl
    have hgive : (b.append data pkt).give_up_on_front = none := by
      unfold Build.give_up_on_front
      rw [hheld]
    unfold Build.reassembled Build.finish Build.finished
    rw [hfeed, happend, hdrain, if_pos hopen, Build.flush_of_none hgive]
  rw [hfinish]
  exact hhalf

/-- A frame pushed alone is handed back in one stream. -/
theorem lone_stream {L : Layers} {p : Push} {s : Segment} (hs : p.segment L = some s)
    {keys : List Key} (hk : keys.Perm (pushes L [p]).live.keys) :
    ∃ e, (pushes L [p]).finish keys =
      [((({} : Reassembler).entry p.pos s).fed s (p.data s) p.pos).stream e] := by
  -- One push makes at most one connection, and that one is handed back.
  have hledger := ledger_run L [p]
  have hcount := congrArg Multiset.card
    ((Reassembler.idents_finish hledger.kept hk).trans hledger.everyone)
  have hone : (created L [p]).length ≤ 1 := by
    have hle := (created_first L [p]).length_le
    rwa [List.length_map, List.length_map] at hle
  rw [Multiset.coe_card, Multiset.coe_card, List.length_map] at hcount
  have hpush : pushes L [p] = (({} : Reassembler).touch p.pos s (p.data s)).evict :=
    Reassembler.take_of_some {} hs
  have hlook : (({} : Reassembler).touch p.pos s (p.data s)).live.lookup s.key =
      some ((({} : Reassembler).entry p.pos s).fed s (p.data s) p.pos) := AList.lookup_insert _
  obtain ⟨e, he⟩ := (Reassembler.kept_init.touch p.pos s (p.data s)).handed_back hlook
    (hpush ▸ hk)
  rw [← hpush] at he
  refine ⟨e, ?_⟩
  obtain ⟨st, hst⟩ := List.length_eq_one_iff.1
    (Nat.le_antisymm (hcount.le.trans hone) (List.length_pos_of_mem he))
  rw [hst] at he ⊢
  rw [List.mem_singleton.1 he]

/-- A TLS record, and more octets than a frame can carry behind it. -/
def long_data (n : ℕ) : Bytes := tls_record 0x61 ++ List.replicate n 0

theorem length_long_data (n : ℕ) : (long_data n).length = 6 + n := by
  rw [long_data, List.length_append, List.length_replicate]
  rfl

theorem long_data_ne_nil (n : ℕ) : long_data n ≠ [] := List.append_ne_nil_of_left_ne_nil (by decide) _

/-- The record is the one message. -/
theorem messages_long (n : ℕ) : messages .Tls (long_data n) = [(0, 6)] := by
  have hfirst : message_len .Tls ((long_data n).drop 0) = some 6 := by
    change tls_len (tls_record 0x61 ++ List.replicate n 0) = some 6
    exact (tls_len_append (d := tls_record 0x61) (by decide) _).1
  have hrest : message_len .Tls ((long_data n).drop (0 + 6)) = none := by
    have hdrop : (long_data n).drop (0 + 6) = List.replicate n 0 := rfl
    rw [hdrop]
    rcases n with - | n
    · rfl
    · rfl
  unfold messages
  rw [Framing.cut_of_some (by rw [length_long_data]; omega) hfirst (by omega), Framing.cut, hrest]
  split
  · rfl
  · rfl

/-- The frame. -/
def long_frame (n : ℕ) : Bytes := long_head ++ long_data n

/-- The one stream of the frame. -/
theorem streams_long (n : ℕ) (hn : 6 + n ≤ MAX_STREAM) {keys : List Key}
    (hk : keys.Perm (pushes tls_layers (positioned [long_frame n] .Ether)).live.keys) :
    ∃ st, streams_of tls_layers [long_frame n] .Ether keys = [st] ∧ st.sport = 40000 ∧
      st.dport = 443 ∧ (st.halves 0).data = long_data n ∧
      (st.halves 0).segs = [⟨0, 6 + n, 0⟩] ∧ (st.halves 1).data = [] := by
  -- The one frame is one stream of its own, opened by it.
  obtain ⟨s, hs, hseq, hflags, hsport, hdport, hdata⟩ :=
    inspect_long (long_data n) (long_data_ne_nil n)
  let p : Push := ⟨0, long_frame n, .Ether⟩
  have hseg : p.segment tls_layers = some s := hs
  obtain ⟨e, he⟩ := lone_stream hseg hk
  have hentry : (({} : Reassembler).entry p.pos s) =
      { Live.opened p.pos 0 s with seq := 0 } := rfl
  have hclient : ¬ (s.flags &&& SYN ≠ 0 ∧ s.flags &&& ACK ≠ 0) := by
    rw [hflags]
    decide
  have hsrc : (({} : Reassembler).entry p.pos s).key_src = s.src ∧
      (({} : Reassembler).entry p.pos s).sport = s.sport ∧
      (({} : Reassembler).entry p.pos s).dport = s.dport := by
    rw [hentry]
    unfold Live.opened
    dsimp only
    rw [if_neg hclient, if_neg hclient, if_neg hclient]
    exact ⟨rfl, rfl, rfl⟩
  have hdir : (({} : Reassembler).entry p.pos s).dir s = 0 := by
    unfold Live.dir
    rw [hsrc.1, hsrc.2.1]
    exact if_neg (by simp)
  -- The half of the client is the run of that one segment, the other half is empty.
  have hhalf : ((({} : Reassembler).entry p.pos s).fed s (p.data s) p.pos).build 0 =
      Build.run [⟨1000, 0x02, long_data n, 0⟩] := by
    unfold Live.fed
    dsimp only
    rw [hdir, Function.update_self, hseq, hflags]
    change ({} : Build UInt8).feed 1000 0x02 (slice (long_frame n) s.at_ s.end_) 0 = _
    unfold long_frame
    rw [hdata]
    simp only [Build.run, Build.take, List.foldl_cons, List.foldl_nil]
  have hother : ((({} : Reassembler).entry p.pos s).fed s (p.data s) p.pos).build 1 = {} := by
    unfold Live.fed
    dsimp only
    rw [hdir, Function.update_of_ne (by decide)]
    rfl
  obtain ⟨hd, hsegs⟩ := reassembled_syn (long_data_ne_nil n)
    (by rw [length_long_data]; exact hn) 0
  rw [length_long_data] at hsegs
  refine ⟨_, he, ?_, ?_, ?_, ?_, ?_⟩
  · exact hsrc.2.1.trans hsport
  · exact hsrc.2.2.trans hdport
  · change (Build.finish _).data = _
    rw [hhalf]
    exact hd
  · change (Build.finish _).segs = _
    rw [hhalf]
    exact hsegs
  · change (Build.finish _).data = _
    rw [hother]
    decide +kernel

/-- What the frame asks for includes everything behind the record, in one part. -/
theorem asked_long (n : ℕ) (hn : 6 + n ≤ MAX_STREAM) {st : Stream} (hpos : 0 < n)
    (hsport : st.sport = 40000) (hdport : st.dport = 443)
    (hdata : (st.halves 0).data = long_data n)
    (hsegs : (st.halves 0).segs = [⟨0, 6 + n, 0⟩]) (hback : (st.halves 1).data = []) :
    ∃ a ∈ asked tls_layers [long_frame n] .Ether [st],
      a.frame = reframe_with (long_frame n) ⟨14, 34, 54, false⟩ (UInt32.ofNat 6)
        (slice (long_data n) 6 (6 + n)) := by
  have hsplice : splice tls_layers (bytes_at [long_frame n] 0) .Ether =
      some ⟨14, 34, 54, false⟩ := splice_long (long_data n) (long_data_ne_nil n)
  have hseg : (st.halves 0).seg_at 0 = some ⟨0, 6 + n, 0⟩ := by
    unfold Half.seg_at Half.partition_point
    rw [hsegs, List.takeWhile_cons_of_pos (by simp)]
    simp
  let m : Message := ⟨0, 0, .Tls, 0, 6, 0, 0⟩
  have hfront : half_messages tls_layers 0 st 0 = [m] := by
    have happ : app_of tls_layers (st.ports 0).1 (st.ports 0).2 (long_data n) = some .Tls := by
      have hlook : tls_looks_like (long_data n) = true := rfl
      unfold app_of Stream.ports
      rw [if_pos rfl, hsport, hdport]
      change (if ((443 : UInt16) = 443 ∨ (40000 : UInt16) = 443) ∧
        tls_looks_like (long_data n) = true then some ProtoId.Tls else none) = _
      exact if_pos ⟨Or.inl rfl, hlook⟩
    unfold half_messages
    dsimp only
    rw [hdata, happ]
    dsimp only
    rw [messages_long, List.filterMap_cons]
    unfold message_at
    rw [hseg]
    rfl
  have hnone : half_messages tls_layers 0 st 1 = [] := by
    have happ : app_of tls_layers (st.ports 1).1 (st.ports 1).2 [] = none := by
      unfold app_of
      exact if_neg (fun h => absurd h.2 (by decide))
    unfold half_messages
    dsimp only
    rw [hback, happ]
  have hmessages : app_messages tls_layers [st] = [m] := by
    unfold app_messages
    rw [List.zipIdx_singleton, List.flatMap_singleton, hfront, hnone]
    rfl
  -- one message is far inside the bound, so it is framed and its packet eaten
  have hhalf : half_of [st] m = st.halves 0 := rfl
  have hbody : (body_of [st] m).length = 6 := by
    unfold body_of
    rw [hhalf, length_slice (by rw [hdata, length_long_data]; change 0 + 6 ≤ _; omega)]
    rfl
  have hframing : framing tls_layers [long_frame n] .Ether [st] =
      Framing.turn [long_frame n] [st] {} ⟨14, 34, 54, false⟩ m := by
    have hcost : ¬ (({} : Framing).built + cost [st] ⟨14, 34, 54, false⟩ m >
        ([long_frame n].map List.length).sum + MAX_REFRAME_GROWTH) := by
      unfold cost
      dsimp only
      rw [hbody]
      have hsmall : (6 + max (room ⟨14, 34, 54, false⟩) 1 - 1) / max (room ⟨14, 34, 54, false⟩) 1 =
          1 := by decide
      have hgrowth : 60 ≤ MAX_REFRAME_GROWTH := by
        unfold MAX_REFRAME_GROWTH
        decide
      rw [hsmall]
      omega
    unfold framing
    rw [hmessages, frame_messages]
    dsimp only
    rw [hsplice]
    dsimp only
    rw [if_neg hcost]
    rfl
  have heaten : 0 ∈ (framing tls_layers [long_frame n] .Ether [st]).eaten := by
    rw [hframing]
    refine List.mem_append_right _ (List.mem_map.2 ⟨⟨0, 6 + n, 0⟩, ?_, rfl⟩)
    have htiles : Half.Tiles 0 (half_of [st] m).segs (6 + n) := by
      rw [hhalf, hsegs]
      exact ⟨rfl, by dsimp only; omega, Nat.zero_add _⟩
    have hheld : Holds (0, 6 + n) 0 := by
      unfold Holds
      dsimp only
      omega
    have hin : Holds (m.at_, m.len) 0 := by decide
    refine mem_segs_in htiles (hn.trans_lt (by decide)) ?_ hheld hin (by change 0 + 6 ≤ _; omega)
    rw [hhalf, hsegs]
    exact List.mem_singleton.2 rfl
  have hclaimed : (framing tls_layers [long_frame n] .Ether [st]).claimed 0 0 = [(0, 6)] := by
    rw [hframing, claimed_turn]
    rfl
  -- what the record leaves of the one segment
  have hleft : (6, n) ∈ left (0 + (6 + n)) 0
      ([(0, 6)].dropWhile fun e : ℕ × ℕ => e.1 + e.2 ≤ 0) := by
    rw [List.dropWhile_cons_of_neg (by decide), left, if_pos (by dsimp only; omega), left]
    refine List.mem_append_right _ ?_
    dsimp only
    rw [if_pos (by omega), List.mem_singleton, Prod.mk.injEq]
    omega
  refine ⟨⟨0, ⟨0, 0, 6, n⟩, _⟩, ?_, rfl⟩
  unfold asked
  dsimp only
  refine List.mem_append_right _ (List.mem_flatMap.2 ⟨(st, 0), List.mem_singleton.2 rfl, ?_⟩)
  refine List.mem_append_left _ ?_
  unfold rests_of
  dsimp only
  rw [hclaimed, hsegs]
  change _ ∈ half_rests _ _ _ _ _ _ _ [(0, 6)] _
  rw [half_rests, if_pos heaten]
  refine List.mem_append_left _ (List.mem_map.2 ⟨(6, n), hleft, ?_⟩)
  dsimp only
  rw [hsplice, Option.bind_some, hdata]
  rfl

/-- **A packet too long to tell of is not framed whole**: behind a record of six octets, what is
left is more than the length field of its header can carry, and is lost. -/
theorem long_rest_lost :
    ∃ keys, keys.Perm (pushes tls_layers (positioned [long_frame 65496] .Ether)).live.keys ∧
      ¬ Lossless tls_layers [long_frame 65496] .Ether
        (streams_of tls_layers [long_frame 65496] .Ether keys) := by
  refine ⟨_, List.Perm.refl _, ?_⟩
  have hmax : 6 + 65496 ≤ MAX_STREAM := by
    unfold MAX_STREAM
    decide
  have hone : [long_frame 65496].length ≤ 2 ^ 32 := by
    rw [List.length_singleton]
    exact Nat.one_le_two_pow
  obtain ⟨taken, h⟩ := exists_regrouped hone (List.Perm.refl
    (pushes tls_layers (positioned [long_frame 65496] .Ether)).live.keys)
  obtain ⟨st, hst, hsport, hdport, hdata, hsegs, hback⟩ :=
    streams_long 65496 hmax (List.Perm.refl _)
  obtain ⟨a, ha, hframe⟩ := asked_long 65496 hmax (by omega) hsport hdport hdata hsegs hback
  rw [← hst] at ha
  refine h.lost ha ?_
  -- the rest is one octet too long for the length field to count
  have hlen : (slice (long_data 65496) 6 (6 + 65496)).length = 65496 := by
    rw [length_slice (by rw [length_long_data]), Nat.add_sub_cancel_left]
  have hrefused : ¬ (reframe_with (long_frame 65496) ⟨14, 34, 54, false⟩ (UInt32.ofNat 6)
      (slice (long_data 65496) 6 (6 + 65496))).isSome := by
    rw [reframe_with_isSome, hlen]
    exact fun hfit => absurd hfit.2.2 (by decide)
  rw [hframe]
  exact Option.not_isSome_iff_eq_none.1 hrefused

end Wiry.Stream
