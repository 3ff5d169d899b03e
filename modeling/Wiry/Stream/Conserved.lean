/-
`reassembled` keeps every octet of an eaten packet in one frame and every other packet as itself,
exactly if none of the frames it asks for is refused.

A message is framed and its packets are eaten whether or not its frames were built, and what no
message claimed of them is asked for once: so the frames asked for cover the octets, and one refused
takes its octets out of the list.
-/
import Wiry.Stream.Partition

set_option autoImplicit false
set_option linter.dupNamespace false

namespace Wiry.Stream

open Wiry.Packet Wiry.Extents

/-! ## What the loop over the messages does -/

/-- The extents of the messages of one direction. -/
def extents_of (ms : List Message) (i : ℕ) (d : Fin 2) : List (ℕ × ℕ) :=
  (ms.filter fun m => m.stream = i ∧ m.dir = d).map fun m => (m.at_, m.len)

theorem mem_extents_of {ms : List Message} {i : ℕ} {d : Fin 2} {e : ℕ × ℕ} :
    e ∈ extents_of ms i d ↔ ∃ m ∈ ms, m.stream = i ∧ m.dir = d ∧ e = (m.at_, m.len) := by
  simp only [extents_of, List.mem_map, List.mem_filter, decide_eq_true_eq]
  constructor
  · rintro ⟨m, ⟨hm, hi, hd⟩, rfl⟩
    exact ⟨m, hm, hi, hd, rfl⟩
  · rintro ⟨m, hm, hi, hd, rfl⟩
    exact ⟨m, ⟨hm, hi, hd⟩, rfl⟩

section Frames

variable {L : Layers} {frames : List Bytes} {link : ProtoId} {streams : List Stream}

/-- The frames asked for one message. -/
def frames_for (L : Layers) (frames : List Bytes) (link : ProtoId) (streams : List Stream)
    (m : Message) : List Asked :=
  match splice L (bytes_at frames m.pkt) link with
  | some s => message_frames frames streams s m
  | none => []

/-- The packets a message eats. -/
def eats (streams : List Stream) (m : Message) : List ℕ :=
  ((half_of streams m).segs_in m.at_ m.len).map Seg.pkt

/-- The state the loop leaves when it framed `taken`. -/
structure Took (L : Layers) (frames : List Bytes) (link : ProtoId) (streams : List Stream)
    (taken : List Message) (st st' : Framing) : Prop where
  spliced : ∀ m ∈ taken, ∃ s, splice L (bytes_at frames m.pkt) link = some s
  asked : st'.asked = st.asked ++ taken.flatMap (frames_for L frames link streams)
  claimed : ∀ i d, st'.claimed i d = st.claimed i d ++ extents_of taken i d
  eaten : st'.eaten = st.eaten ++ taken.flatMap (eats streams)

theorem took_nil (st : Framing) : Took L frames link streams [] st st :=
  ⟨nofun, by simp, fun i d => by simp [extents_of], by simp⟩

/-- A turn claims the extents of its own message. -/
theorem claimed_turn (st : Framing) (s : Splice) (m : Message) (i : ℕ) (d : Fin 2) :
    (st.turn frames streams s m).claimed i d = st.claimed i d ++ extents_of [m] i d := by
  have hone : extents_of [m] i d = if m.stream = i ∧ m.dir = d then [(m.at_, m.len)] else [] := by
    unfold extents_of
    by_cases hof : m.stream = i ∧ m.dir = d
    · rw [if_pos hof, List.filter_cons_of_pos (by simpa using hof)]
      rfl
    · rw [if_neg hof, List.filter_cons_of_neg (by simpa using hof)]
      rfl
  rw [hone]
  unfold Framing.turn
  dsimp only
  by_cases hi : m.stream = i
  · subst hi
    rw [Function.update_self]
    by_cases hd : m.dir = d
    · subst hd
      rw [Function.update_self, if_pos ⟨rfl, rfl⟩]
    · rw [Function.update_of_ne (Ne.symm hd), if_neg (fun h => hd h.2), List.append_nil]
  · rw [Function.update_of_ne (Ne.symm hi), if_neg (fun h => hi h.1), List.append_nil]

/-- A message framed, and the rest behind it. -/
theorem Took.cons {taken : List Message} {st st' : Framing} {s : Splice} {m : Message}
    (hs : splice L (bytes_at frames m.pkt) link = some s)
    (h : Took L frames link streams taken (st.turn frames streams s m) st') :
    Took L frames link streams (m :: taken) st st' where
  spliced n hn := by
    rcases List.mem_cons.1 hn with rfl | hn
    · exact ⟨s, hs⟩
    · exact h.spliced n hn
  asked := by
    have hone : frames_for L frames link streams m = message_frames frames streams s m := by
      unfold frames_for
      rw [hs]
    rw [h.asked, List.flatMap_cons, hone, ← List.append_assoc]
    rfl
  claimed i d := by
    have hcons : extents_of (m :: taken) i d = extents_of [m] i d ++ extents_of taken i d := by
      unfold extents_of
      rw [← List.map_append, ← List.filter_append]
      rfl
    rw [h.claimed, claimed_turn, hcons, List.append_assoc]
  eaten := by
    rw [h.eaten, List.flatMap_cons, ← List.append_assoc]
    rfl

/-- **The loop frames some of the messages, in order**, and what it leaves is made of these. -/
theorem frame_messages_took (input : ℕ) (ms : List Message) (st : Framing) :
    ∃ taken, taken.Sublist ms ∧
      Took L frames link streams taken st (frame_messages L frames link streams input ms st) := by
  induction ms generalizing st with
  | nil => exact ⟨[], List.Sublist.slnil, took_nil st⟩
  | cons m ms ih =>
    rw [frame_messages]
    split
    · obtain ⟨taken, hsub, htook⟩ := ih st
      exact ⟨taken, hsub.cons m, htook⟩
    · rename_i s hs
      split
      · exact ⟨[], List.nil_sublist _, took_nil st⟩
      · obtain ⟨taken, hsub, htook⟩ := ih (st.turn frames streams s m)
        exact ⟨m :: taken, hsub.cons_cons m, htook.cons hs⟩

/-! ## What the frames of the messages carry -/

/-- The half a message is in. -/
theorem half_of_eq {m : Message} {s : Stream} (hs : streams[m.stream]? = some s) :
    half_of streams m = s.halves m.dir := by
  unfold half_of
  rw [hs]
  rfl

theorem length_body_of {m : Message} {s : Stream} (hs : streams[m.stream]? = some s)
    (hle : m.at_ + m.len ≤ (s.halves m.dir).data.length) : (body_of streams m).length = m.len := by
  unfold body_of
  rw [half_of_eq hs, length_slice hle]
  omega

theorem mem_frames_for {m : Message} {a : Asked} (ha : a ∈ frames_for L frames link streams m) :
    a.part.stream = m.stream ∧ a.part.dir = m.dir := by
  unfold frames_for at ha
  split at ha
  · obtain ⟨c, -, rfl⟩ := List.mem_map.1 ha
    exact ⟨rfl, rfl⟩
  · exact absurd ha List.not_mem_nil

/-- Shifting extents shifts the offsets they cover. -/
theorem times_shift (at_ : ℕ) (es : List (ℕ × ℕ)) (o : ℕ) :
    times (es.map fun e => (at_ + e.1, e.2)) o = if at_ ≤ o then times es (o - at_) else 0 := by
  unfold times
  rw [List.countP_map]
  split
  · apply List.countP_congr
    intro e _
    simp only [Function.comp_apply, decide_eq_true_eq]
    unfold Holds
    dsimp only
    omega
  · rw [List.countP_eq_zero]
    intro e _
    simp only [Function.comp_apply, decide_eq_true_eq]
    unfold Holds
    dsimp only
    omega

/-- The frames of a message carry each of its octets once. -/
theorem carried_frames_for {m : Message} {s : Stream} (hs : streams[m.stream]? = some s)
    (hle : m.at_ + m.len ≤ (s.halves m.dir).data.length)
    (hsplice : ∃ sp, splice L (bytes_at frames m.pkt) link = some sp) (o : ℕ) :
    carried (frames_for L frames link streams m) m.stream m.dir o =
      if Holds (m.at_, m.len) o then 1 else 0 := by
  obtain ⟨sp, hsp⟩ := hsplice
  have hroom : 0 < max (room sp) 1 := by omega
  -- The frames' parts are the chunks of the body, moved to where the message stands.
  have hextents : (frames_for L frames link streams m).map
      (fun a => (a.part.at_, a.part.len)) =
      (((chunks (max (room sp) 1) (body_of streams m)).zipIdx).map
        (spot (max (room sp) 1))).map fun e => (m.at_ + e.1, e.2) := by
    unfold frames_for
    rw [hsp]
    unfold message_frames
    rw [List.map_map, List.map_map]
    rfl
  rw [carried_same (fun a ha => mem_frames_for ha), hextents, times_shift,
    times_chunks hroom, length_body_of hs hle, Nat.zero_mul]
  -- before the message nothing is carried
  by_cases ho : m.at_ ≤ o
  · rw [if_pos ho]
    refine if_congr ?_ rfl rfl
    unfold Holds
    dsimp only
    omega
  · rw [if_neg ho, if_neg (fun h => ho h.1)]

/-- The frames of the messages taken carry an octet as often as their extents hold it. -/
theorem carried_taken {taken : List Message}
    (hin : ∀ m ∈ taken, ∃ s, streams[m.stream]? = some s ∧
      m.at_ + m.len ≤ (s.halves m.dir).data.length)
    (hsplice : ∀ m ∈ taken, ∃ sp, splice L (bytes_at frames m.pkt) link = some sp)
    (i : ℕ) (d : Fin 2) (o : ℕ) :
    carried (taken.flatMap (frames_for L frames link streams)) i d o =
      times (extents_of taken i d) o := by
  induction taken with
  | nil => rfl
  | cons m taken ih =>
    have hrest := ih (fun n hn => hin n (List.mem_cons_of_mem m hn))
      fun n hn => hsplice n (List.mem_cons_of_mem m hn)
    obtain ⟨s, hs, hle⟩ := hin m List.mem_cons_self
    rw [List.flatMap_cons, carried_append, hrest]
    unfold extents_of
    by_cases hof : m.stream = i ∧ m.dir = d
    · obtain ⟨rfl, rfl⟩ := hof
      rw [carried_frames_for hs hle (hsplice m List.mem_cons_self),
        List.filter_cons_of_pos (by simp), List.map_cons, times_cons, Nat.add_comm]
    · rw [carried_other (fun a ha => mem_frames_for ha) hof, Nat.zero_add,
        List.filter_cons_of_neg (by simpa using hof)]

/-! ## What the frames of the rests carry -/

theorem mem_seg_rests {i : ℕ} {d : Fin 2} {h : Half UInt8} {ext : List (ℕ × ℕ)} {seg : Seg}
    {a : Asked} (ha : a ∈ seg_rests L frames link i d h ext seg) :
    a.part.stream = i ∧ a.part.dir = d ∧ a.pkt = seg.pkt ∧ seg.at_ ≤ a.part.at_ ∧
      0 < a.part.len ∧ a.part.at_ + a.part.len ≤ seg.at_ + seg.len := by
  obtain ⟨x, hx, rfl⟩ := List.mem_map.1 ha
  obtain ⟨hlo, hpos, hhi⟩ := mem_left hx
  exact ⟨rfl, rfl, rfl, hlo, hpos, hhi⟩

/-- A frame of the rests lies in a segment of an eaten packet. -/
theorem mem_half_rests {i : ℕ} {d : Fin 2} {h : Half UInt8} {eaten : List ℕ} {segs : List Seg}
    {ext : List (ℕ × ℕ)} {a : Asked}
    (ha : a ∈ half_rests L frames link i d h eaten ext segs) :
    a.part.stream = i ∧ a.part.dir = d ∧ ∃ seg ∈ segs, a.pkt = seg.pkt ∧ seg.pkt ∈ eaten ∧
      seg.at_ ≤ a.part.at_ ∧ 0 < a.part.len ∧ a.part.at_ + a.part.len ≤ seg.at_ + seg.len := by
  induction segs generalizing ext with
  | nil => exact absurd ha List.not_mem_nil
  | cons seg segs ih =>
    have hlater : ∀ {ext}, a ∈ half_rests L frames link i d h eaten ext segs →
        a.part.stream = i ∧ a.part.dir = d ∧ ∃ t ∈ seg :: segs, a.pkt = t.pkt ∧ t.pkt ∈ eaten ∧
          t.at_ ≤ a.part.at_ ∧ 0 < a.part.len ∧ a.part.at_ + a.part.len ≤ t.at_ + t.len := by
      intro ext ha
      obtain ⟨hi, hd, t, ht, hrest⟩ := ih ha
      exact ⟨hi, hd, t, List.mem_cons_of_mem seg ht, hrest⟩
    rw [half_rests] at ha
    split at ha
    · rename_i heaten
      rcases List.mem_append.1 ha with ha | ha
      · obtain ⟨hi, hd, hpkt, hin⟩ := mem_seg_rests ha
        exact ⟨hi, hd, seg, List.mem_cons_self, hpkt, heaten, hin⟩
      · exact hlater ha
    · exact hlater ha

/-- A frame of the rests is made of its packet's headers and the octets of its part. -/
theorem frame_half_rests {i : ℕ} {d : Fin 2} {h : Half UInt8} {eaten : List ℕ} {segs : List Seg}
    {ext : List (ℕ × ℕ)} {a : Asked}
    (ha : a ∈ half_rests L frames link i d h eaten ext segs) :
    ∃ skip, a.frame = (splice L (bytes_at frames a.pkt) link).bind fun s =>
      reframe_with (bytes_at frames a.pkt) s skip
        (slice h.data a.part.at_ (a.part.at_ + a.part.len)) := by
  induction segs generalizing ext with
  | nil => exact absurd ha List.not_mem_nil
  | cons seg segs ih =>
    rw [half_rests] at ha
    split at ha
    · rcases List.mem_append.1 ha with ha | ha
      · obtain ⟨x, -, rfl⟩ := List.mem_map.1 ha
        exact ⟨_, rfl⟩
      · exact ih ha
    · exact ih ha

/-- Extents that end before an octet do not matter for it. -/
theorem holds_dropWhile {ext : List (ℕ × ℕ)} {at_ o : ℕ} (ho : at_ ≤ o) :
    (∀ e ∈ ext.dropWhile (fun e => e.1 + e.2 ≤ at_), ¬ Holds e o) ↔ ∀ e ∈ ext, ¬ Holds e o := by
  induction ext with
  | nil => rfl
  | cons e ext ih =>
    rw [List.dropWhile_cons]
    split
    · rename_i hend
      have hout : ¬ Holds e o := by
        have hend := of_decide_eq_true hend
        intro h
        exact absurd h.2 (by omega)
      rw [ih, List.forall_mem_cons]
      exact ⟨fun h => ⟨hout, h⟩, And.right⟩
    · rfl

/-- The rests of a segment carry each of its octets once, where no message does. -/
theorem carried_seg_rests {i : ℕ} {d : Fin 2} {h : Half UInt8} {ext : List (ℕ × ℕ)} {seg : Seg}
    (hs : ext.Pairwise fun e f => e.1 ≤ f.1) (o : ℕ) :
    carried (seg_rests L frames link i d h ext seg) i d o =
      if seg.at_ ≤ o ∧ o < seg.at_ + seg.len ∧ ∀ e ∈ ext, ¬ Holds e o then 1 else 0 := by
  have hextents : (seg_rests L frames link i d h ext seg).map
      (fun a => (a.part.at_, a.part.len)) = left (seg.at_ + seg.len) seg.at_ ext := by
    unfold seg_rests
    dsimp only
    rw [List.map_map]
    exact List.map_id _
  rw [carried_same (fun a ha => ⟨(mem_seg_rests ha).1, (mem_seg_rests ha).2.1⟩), hextents,
    times_left hs]

/-- No frame of the rests of later segments carries an octet in front of them. -/
theorem carried_half_rests_before {i : ℕ} {d : Fin 2} {h : Half UInt8} {eaten : List ℕ}
    {segs : List Seg} {a n : ℕ} (ht : Half.Tiles a segs n) (ext : List (ℕ × ℕ)) {o : ℕ}
    (ho : o < a) : carried (half_rests L frames link i d h eaten ext segs) i d o = 0 := by
  have hge : ∀ seg ∈ segs, a ≤ seg.at_ := by
    intro seg hseg
    obtain ⟨pre, post, rfl⟩ := List.mem_iff_append.1 hseg
    obtain ⟨m, hpre, hm, -⟩ := ht.of_append
    have := hpre.length_pkts
    omega
  unfold carried
  rw [List.countP_eq_zero]
  intro b hb
  obtain ⟨-, -, seg, hseg, -, -, hlo, -⟩ := mem_half_rests hb
  have hle := hge seg hseg
  rw [decide_eq_true_eq]
  rintro ⟨-, -, hholds⟩
  have hat : b.part.at_ ≤ o := hholds.1
  omega

/-- **The rests of a half carry, once, each octet of an eaten packet that no message claimed.** -/
theorem carried_half_rests {i : ℕ} {d : Fin 2} {h : Half UInt8} {eaten : List ℕ}
    {segs : List Seg} {a n : ℕ} (ht : Half.Tiles a segs n) {ext : List (ℕ × ℕ)}
    (hs : ext.Pairwise fun e f => e.1 ≤ f.1) {seg : Seg} (hseg : seg ∈ segs) {o : ℕ}
    (ho : Holds (seg.at_, seg.len) o) :
    carried (half_rests L frames link i d h eaten ext segs) i d o =
      if seg.pkt ∈ eaten ∧ ∀ e ∈ ext, ¬ Holds e o then 1 else 0 := by
  induction segs generalizing a ext with
  | nil => exact absurd hseg List.not_mem_nil
  | cons t segs ih =>
    obtain ⟨hat, -, hrest⟩ := ht
    obtain ⟨hlo, hhi⟩ := ho
    dsimp only at hlo hhi
    have hdrop : (ext.dropWhile fun e => e.1 + e.2 ≤ t.at_).Pairwise fun e f => e.1 ≤ f.1 :=
      hs.sublist (List.dropWhile_sublist _)
    rcases List.mem_cons.1 hseg with rfl | hmem
    · -- the octet is in this segment, and in front of the later ones
      rw [half_rests]
      split
      · rename_i heaten
        dsimp only
        rw [carried_append, carried_half_rests_before hrest _ (by omega), carried_seg_rests hdrop,
          Nat.add_zero]
        refine if_congr ⟨fun hc => ⟨heaten, (holds_dropWhile hlo).1 hc.2.2⟩,
          fun hc => ⟨hlo, hhi, (holds_dropWhile hlo).2 hc.2⟩⟩ rfl rfl
      · rename_i heaten
        rw [carried_half_rests_before hrest _ (by omega), if_neg (fun hc => heaten hc.1)]
    · -- the octet is in a later segment
      have hge : a + t.len ≤ seg.at_ := by
        obtain ⟨pre, post, rfl⟩ := List.mem_iff_append.1 hmem
        obtain ⟨m, hpre, hm, -⟩ := hrest.of_append
        have := hpre.length_pkts
        omega
      rw [half_rests]
      split
      · dsimp only
        rw [carried_append, carried_seg_rests hdrop, if_neg (fun hc => absurd hc.2.1 (by omega)),
          Nat.zero_add, ih hrest hdrop hmem]
        exact if_congr (and_congr_right fun _ => holds_dropWhile (by omega)) rfl rfl
      · exact ih hrest hs hmem

/-- The frames of one half among those of all. -/
theorem countP_zipIdx_flatMap {α β : Type} {p : β → Bool} {f : α × ℕ → List β} {l : List α}
    {k i : ℕ} {x : α} (hx : l[i]? = some x)
    (hother : ∀ y j, j ≠ k + i → (f (y, j)).countP p = 0) :
    ((l.zipIdx k).flatMap f).countP p = (f (x, k + i)).countP p := by
  -- behind the element nothing counts
  have hzero : ∀ {l : List α} {k' : ℕ}, k + i < k' → ((l.zipIdx k').flatMap f).countP p = 0 := by
    intro l k' hlt
    rw [List.countP_eq_zero]
    intro b hb
    obtain ⟨⟨y, j⟩, hy, hb⟩ := List.mem_flatMap.1 hb
    have hj := (List.mem_zipIdx hy).1
    exact List.countP_eq_zero.1 (hother y j (by omega)) b hb
  induction l generalizing k i with
  | nil => exact absurd hx nofun
  | cons y l ih =>
    rw [List.zipIdx_cons, List.flatMap_cons, List.countP_append]
    rcases i with - | i
    · obtain rfl : y = x := Option.some.inj hx
      rw [hzero (by omega)]
      rfl
    · have hnext : k + 1 + i = k + (i + 1) := by omega
      rw [hother y k (by omega), Nat.zero_add, ih hx, hnext]
      · intro z j hj
        exact hother z j (by omega)
      · intro l k' hlt
        exact hzero (by omega)

end Frames

end Wiry.Stream
