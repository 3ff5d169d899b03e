/-
What every dissection satisfies, whatever the layers answer: `LayerSpan::hdr_range`
and `spans_of` of `crates/wiry-core/src/packet.rs` over an arbitrary `Table`.

`walk_checked` is the walk with each slice as the source writes it, a panic when
it runs out of bounds; it never does, and what is pushed is what `walk` pushes.
-/
import Mathlib.Data.List.Chain
import Mathlib.Order.Lattice
import Wiry.Packet.Spans

set_option autoImplicit false

namespace Wiry.Packet

/-! ## Slices that may be out of bounds -/

/-- `LayerSpan::hdr_range`: a layer's header, clamped to what the buffer holds. -/
def LayerSpan.hdr_range (s : LayerSpan) (len : ℕ) : ℕ × ℕ :=
  (min s.off len, min (min s.off len + s.hlen) len)

/-- `LayerSpan::header`. -/
def LayerSpan.header (s : LayerSpan) (buf : Bytes) : Bytes :=
  slice buf (s.hdr_range buf.length).1 (s.hdr_range buf.length).2

/-- `&buf[a..b]`, which panics unless `a <= b <= buf.len()`. -/
def slice_checked (buf : Bytes) (a b : ℕ) : Option Bytes :=
  if a ≤ b ∧ b ≤ buf.length then some (slice buf a b) else none

theorem slice_checked_eq {buf : Bytes} {a b : ℕ} (hab : a ≤ b) (hb : b ≤ buf.length) :
    slice_checked buf a b = some (slice buf a b) := if_pos ⟨hab, hb⟩

/-- Every read of a span-addressed field clamps to the buffer, so none of them panics. -/
theorem LayerSpan.header_in_bounds (s : LayerSpan) (buf : Bytes) :
    slice_checked buf (s.hdr_range buf.length).1 (s.hdr_range buf.length).2 =
      some (s.header buf) := by
  apply slice_checked_eq
  · exact Nat.le_min.2 ⟨Nat.le_add_right _ _, Nat.min_le_right _ _⟩
  · exact Nat.min_le_right _ _

section Checked

variable (T : Table)

/-- `class_of` with the slice it reads. -/
def class_of_checked (buf : Bytes) (bound : Bool) (proto : ProtoId) (a b : ℕ) : Option ProtoId :=
  if bound then (slice_checked buf a b).map (T.resolve proto) else some proto

/-- `walk` with the slices it reads: `none` where one of them is out of bounds. -/
def walk_checked (buf : Bytes) (bound : Bool) :
    ℕ → ℕ → ℕ → ProtoId → Option ProtoId → Option (List LayerSpan × ℕ)
  | 0, _, end_, _, _ => some ([], end_)
  | n + 1, off, end_, proto, parent =>
    (class_of_checked T buf bound proto (min off end_) end_).bind fun proto =>
    let d := T.desc proto
    let remaining := end_ - off
    let pre := parent.elim 0 fun p => T.framing p proto
    if remaining < d.min_len + pre then
      some (if remaining > 0 then [⟨.Raw, off, remaining, remaining⟩] else [], end_)
    else
      (slice_checked buf (off + pre) end_).bind fun hdr =>
      let hlen := min (pre + max (d.header_len hdr) d.min_len) remaining
      let end_ := tightened bound d hdr pre off hlen end_
      let rest :=
        if off + hlen < end_ then
          match next_of T proto hdr with
          | .Proto p => walk_checked buf bound n (off + hlen) end_ p (some proto)
          | .Raw => walk_checked buf bound n (off + hlen) end_ .Raw (some proto)
          | .End => some ([], end_)
        else some ([], end_)
      rest.map fun r => (⟨proto, off, hlen, remaining⟩ :: r.1, r.2)

/-- No slice of the walk is out of bounds. -/
theorem walk_checked_eq (buf : Bytes) (bound : Bool) (n off end_ : ℕ) (proto : ProtoId)
    (parent : Option ProtoId) (hoff : off ≤ end_) (hend : end_ ≤ buf.length) :
    walk_checked T buf bound n off end_ proto parent =
      some (walk T buf bound n off end_ proto parent) := by
  induction n generalizing off end_ proto parent with
  | zero => rfl
  | succ n ih =>
    have hclass : class_of_checked T buf bound proto (min off end_) end_ =
        some (class_of T bound proto (slice buf (min off end_) end_)) := by
      unfold class_of_checked class_of
      rw [slice_checked_eq (Nat.min_le_right _ _) hend]
      split <;> rfl
    rw [walk_checked, walk, hclass, Option.bind_some]
    dsimp only
    generalize class_of T bound proto (slice buf (min off end_) end_) = proto'
    generalize parent.elim 0 _ = pre
    by_cases hshort : end_ - off < (T.desc proto').min_len + pre
    · rw [if_pos hshort, if_pos hshort]
    · -- the framing is in what remains, so the header starts inside it
      have hstart : off + pre ≤ end_ := by omega
      rw [if_neg hshort, if_neg hshort, slice_checked_eq hstart hend, Option.bind_some]
      generalize slice buf (off + pre) end_ = hdr
      generalize min (pre + _) (end_ - off) = hlen
      have hstop := tightened_le bound (T.desc proto') hdr pre off hlen end_
      generalize tightened bound (T.desc proto') hdr pre off hlen end_ = stop at hstop ⊢
      by_cases hmore : off + hlen < stop
      · have hrest := fun p => ih (off + hlen) stop p (some proto') (Nat.le_of_lt hmore)
          (Nat.le_trans hstop hend)
        rw [if_pos hmore, if_pos hmore]
        cases next_of T proto' hdr with
        | Proto p => dsimp only; rw [hrest]; rfl
        | Raw => dsimp only; rw [hrest]; rfl
        | End => rfl
      · rw [if_neg hmore, if_neg hmore]
        rfl

/-- `spans_of` with the slices it reads. -/
def spans_of_checked (buf : Bytes) (link : ProtoId) (bound : Bool) : Option (List LayerSpan) :=
  (walk_checked T buf bound MAX_LAYERS 0 buf.length (outermost buf link) none).map fun w =>
    if w.2 < buf.length then
      w.1 ++ [⟨.Padding, w.2, buf.length - w.2, buf.length - w.2⟩]
    else w.1

theorem spans_of_checked_eq (buf : Bytes) (link : ProtoId) (bound : Bool) :
    spans_of_checked T buf link bound = some (spans_of T buf link bound) := by
  unfold spans_of_checked
  rw [walk_checked_eq T buf bound _ _ _ _ _ (Nat.zero_le _) le_rfl]
  rfl

end Checked

/-! ## What the layers declare -/

section Declared

variable (T : Table)

/-- The end a layer's own length field claims, when it reaches past the layer's header. A layer at
`off` is read with everything up to `off + total` in view. -/
def claimed_end (buf : Bytes) (parent : Option ProtoId) (s : LayerSpan) : Option ℕ :=
  let pre := parent.elim 0 fun p => T.framing p s.proto
  match (T.desc s.proto).content_len with
  | some f =>
    let claimed := pre + f (slice buf (s.off + pre) (s.off + s.total))
    if claimed ≥ s.hlen then some (s.off + claimed) else none
  | none => none

/-- The ends claimed by the layers `spans` under `parent`, outermost first. -/
def claimed_ends (buf : Bytes) : Option ProtoId → List LayerSpan → List ℕ
  | _, [] => []
  | parent, s :: rest =>
    (claimed_end T buf parent s).toList ++ claimed_ends buf (some s.proto) rest

/-- The innermost end the layers declare: a claim past the one already in force bounds nothing, and
the buffer ends them all. -/
def declared_end (buf : Bytes) (spans : List LayerSpan) : ℕ :=
  (claimed_ends T buf none spans).foldl min buf.length

/-- No layer names `Padding` as what it carries. -/
structure Table.NeverPads : Prop where
  resolve : ∀ p b, p ≠ .Padding → T.resolve p b ≠ .Padding
  bound_next : ∀ p hdr, T.bound_next p hdr ≠ some .Padding
  next : ∀ p hdr, (T.desc p).next hdr ≠ .Proto .Padding
  by_layer : ∀ p hdr, T.by_layer p hdr ≠ some .Padding

variable {T}

/-- The end a layer is tightened to is the least of the ends it claims. -/
theorem tightened_claimed {buf : Bytes} {parent : Option ProtoId} {s : LayerSpan} {pre : ℕ}
    (hpre : pre = parent.elim 0 fun p => T.framing p s.proto) :
    tightened true (T.desc s.proto) (slice buf (s.off + pre) (s.off + s.total)) pre s.off s.hlen
        (s.off + s.total) =
      (claimed_end T buf parent s).toList.foldl min (s.off + s.total) := by
  unfold tightened claimed_end
  rw [← hpre]
  cases (T.desc s.proto).content_len with
  | none => rfl
  | some f =>
    dsimp only
    generalize pre + f _ = claimed
    by_cases hvalid : claimed ≥ s.hlen
    · rw [if_pos hvalid]
      show _ = min (s.off + s.total) (s.off + claimed)
      by_cases htight : s.off + claimed < s.off + s.total
      · rw [if_pos ⟨rfl, hvalid, htight⟩, Nat.min_eq_right (Nat.le_of_lt htight)]
      · rw [if_neg (fun h => htight h.2.2), Nat.min_eq_left (Nat.le_of_not_lt htight)]
    · rw [if_neg hvalid, if_neg (fun h => hvalid h.2.1)]
      rfl

theorem Table.NeverPads.class_of (hT : T.NeverPads) {p : ProtoId} (hp : p ≠ .Padding) (bound : Bool)
    (b : Bytes) : class_of T bound p b ≠ .Padding := by
  unfold Packet.class_of
  split
  · exact hT.resolve p b hp
  · exact hp

/-- A table that never pads never names the padding as the next layer. -/
theorem Table.NeverPads.next_of (hT : T.NeverPads) (p : ProtoId) (hdr : Bytes) :
    next_of T p hdr ≠ .Proto .Padding := by
  unfold Packet.next_of
  cases hbound : T.bound_next p hdr with
  | some q =>
    rintro ⟨⟩
    exact hT.bound_next p hdr hbound
  | none =>
    cases hnext : (T.desc p).next hdr with
    | Proto q =>
      dsimp only
      rw [← hnext]
      exact hT.next p hdr
    | End => exact nofun
    | Raw =>
      cases hlayer : T.by_layer p hdr with
      | some q =>
        rintro ⟨⟩
        exact hT.by_layer p hdr hlayer
      | none => exact nofun

end Declared

/-! ## One turn of the walk -/

/-- What is left when the walk stops short of the declared end: `Raw`, all of it header. -/
def leftover (off end_ : ℕ) : List LayerSpan :=
  if end_ - off > 0 then [⟨.Raw, off, end_ - off, end_ - off⟩] else []

/-- A layer the walk reads at `off` under `parent`, with the end it leaves behind. -/
structure ReadAt (T : Table) (buf : Bytes) (proto : ProtoId) (parent : Option ProtoId)
    (off end_ : ℕ) (s : LayerSpan) (stop : ℕ) : Prop where
  off_eq : s.off = off
  total_eq : s.off + s.total = end_
  hlen_le : s.hlen ≤ s.total
  class_eq : s.proto = class_of T true proto (slice buf (min off end_) end_)
  stop_eq : stop = (claimed_end T buf parent s).toList.foldl min end_

/-- One turn of a fresh dissection: nothing more to read, or a layer and the turns after it. -/
theorem walk_succ (T : Table) (buf : Bytes) (n off end_ : ℕ) (proto : ProtoId)
    (parent : Option ProtoId) (hoff : off ≤ end_) :
    walk T buf true (n + 1) off end_ proto parent = (leftover off end_, end_) ∨
      ∃ s stop, ReadAt T buf proto parent off end_ s stop ∧
        (walk T buf true (n + 1) off end_ proto parent = ([s], stop) ∨
          ∃ p, (p = .Raw ∨ ∃ hdr, next_of T s.proto hdr = .Proto p) ∧ off + s.hlen < stop ∧
            walk T buf true (n + 1) off end_ proto parent =
              (s :: (walk T buf true n (off + s.hlen) stop p (some s.proto)).1,
                (walk T buf true n (off + s.hlen) stop p (some s.proto)).2)) := by
  rw [walk]
  dsimp only
  generalize hclass : class_of T true proto (slice buf (min off end_) end_) = proto'
  generalize hpre : parent.elim 0 (fun p => T.framing p proto') = pre
  -- Too short for the layer: what is there is left over.
  by_cases hshort : end_ - off < (T.desc proto').min_len + pre
  · left
    rw [if_pos hshort]
    rfl
  · right
    rw [if_neg hshort]
    generalize hhdr : slice buf (off + pre) end_ = hdr
    generalize hhlen : min (pre + _) (end_ - off) = hlen
    have hroom : off + (end_ - off) = end_ := by omega
    have hstop : tightened true (T.desc proto') hdr pre off hlen end_ =
        (claimed_end T buf parent ⟨proto', off, hlen, end_ - off⟩).toList.foldl min end_ := by
      have htight :=
        @tightened_claimed T buf parent ⟨proto', off, hlen, end_ - off⟩ pre hpre.symm
      dsimp only at htight
      rwa [hroom, hhdr] at htight
    -- Read: the layer's own end, then what its header names next.
    refine ⟨⟨proto', off, hlen, end_ - off⟩, _, ⟨rfl, hroom, by dsimp only; omega, hclass.symm, rfl⟩, ?_⟩
    rw [← hstop]
    by_cases hmore : off + hlen < tightened true (T.desc proto') hdr pre off hlen end_
    · simp only [if_pos hmore]
      cases hnext : next_of T proto' hdr with
      | Proto p => exact .inr ⟨p, .inr ⟨hdr, hnext⟩, hmore, rfl⟩
      | Raw => exact .inr ⟨.Raw, .inl rfl, hmore, rfl⟩
      | End => exact .inl rfl
    · simp only [if_neg hmore]
      exact .inl trivial

/-! ## Whole dissections -/

/-- The spans of a walk from `off` under `parent`: the layers it reads, then what it leaves unread
before `stop`. -/
structure Laid (T : Table) (buf : Bytes) (parent : Option ProtoId) (off end_ : ℕ)
    (read unread : List LayerSpan) (stop : ℕ) : Prop where
  starts : ∀ s ∈ (read ++ unread).head?, s.off = off
  total_eq : ∀ s ∈ (read ++ unread).head?, s.off + s.total = end_
  contiguous : (read ++ unread).IsChain fun s t => t.off = s.off + s.hlen
  shrinking : (read ++ unread).IsChain fun s t => t.off + t.total ≤ s.off + s.total
  hlen_le : ∀ s ∈ read ++ unread, s.hlen ≤ s.total
  le_end : ∀ s ∈ read ++ unread, s.off + s.total ≤ end_
  unread_eq : unread = [] ∨ ∃ off', unread = leftover off' stop
  stop_eq : stop = (claimed_ends T buf parent read).foldl min end_

/-- What is left over is laid out as one padding layer, or as nothing. -/
theorem Laid.of_leftover (T : Table) (buf : Bytes) (parent : Option ProtoId) {off end_ : ℕ}
    (hoff : off ≤ end_) : Laid T buf parent off end_ [] (leftover off end_) end_ := by
  by_cases hpos : end_ - off > 0
  · have hroom : off + (end_ - off) = end_ := by omega
    have hleft : leftover off end_ = [⟨.Raw, off, end_ - off, end_ - off⟩] := if_pos hpos
    have hsome : ∀ s ∈ ([⟨.Raw, off, end_ - off, end_ - off⟩] : List LayerSpan).head?,
        s = ⟨.Raw, off, end_ - off, end_ - off⟩ := fun s hs => (Option.some.inj hs).symm
    refine ⟨?_, ?_, ?_, ?_, ?_, ?_, .inr ⟨off, rfl⟩, rfl⟩
    all_goals rw [List.nil_append, hleft]
    · intro s hs
      rw [hsome s hs]
    · intro s hs
      rw [hsome s hs]
      exact hroom
    · exact .singleton _
    · exact .singleton _
    · intro s hs
      rw [List.mem_singleton.1 hs]
    · intro s hs
      rw [List.mem_singleton.1 hs]
      exact Nat.le_of_eq hroom
  · have hleft : leftover off end_ = [] := if_neg hpos
    rw [hleft]
    exact ⟨nofun, nofun, .nil, .nil, nofun, nofun, .inl rfl, rfl⟩

/-- A layer in front of a walk that starts where its header ends. -/
theorem Laid.cons {T : Table} {buf : Bytes} {proto : ProtoId} {parent : Option ProtoId}
    {off end_ mid stop : ℕ} {s : LayerSpan} {read unread : List LayerSpan}
    (hs : ReadAt T buf proto parent off end_ s mid) (hmid : mid ≤ end_)
    (h : Laid T buf (some s.proto) (off + s.hlen) mid read unread stop) :
    Laid T buf parent off end_ (s :: read) unread stop where
  starts t ht := Option.some.inj ht ▸ hs.off_eq
  total_eq t ht := Option.some.inj ht ▸ hs.total_eq
  contiguous := List.isChain_cons.2 ⟨fun t ht => by rw [h.starts t ht, hs.off_eq], h.contiguous⟩
  shrinking := List.isChain_cons.2
    ⟨fun t ht => by rw [h.total_eq t ht, hs.total_eq]; exact hmid, h.shrinking⟩
  hlen_le := List.forall_mem_cons.2 ⟨hs.hlen_le, h.hlen_le⟩
  le_end := List.forall_mem_cons.2
    ⟨Nat.le_of_eq hs.total_eq, fun t ht => Nat.le_trans (h.le_end t ht) hmid⟩
  unread_eq := h.unread_eq
  stop_eq := by
    show stop = ((claimed_end T buf parent s).toList ++ claimed_ends T buf (some s.proto) read).foldl
      min end_
    rw [List.foldl_append, ← hs.stop_eq]
    exact h.stop_eq

/-- Claims only ever bring the end in. -/
theorem foldl_min_le (ends : List ℕ) (end_ : ℕ) : ends.foldl min end_ ≤ end_ := by
  induction ends generalizing end_ with
  | nil => exact le_rfl
  | cons e ends ih => exact Nat.le_trans (ih (min end_ e)) (Nat.min_le_left _ _)

theorem ReadAt.stop_le {T : Table} {buf : Bytes} {proto : ProtoId} {parent : Option ProtoId}
    {off end_ stop : ℕ} {s : LayerSpan} (h : ReadAt T buf proto parent off end_ s stop) :
    stop ≤ end_ := by
  rw [h.stop_eq]
  exact foldl_min_le _ _

/-- A fresh walk lays its spans one behind the other, at most one a turn. -/
theorem walk_laid (T : Table) (buf : Bytes) (n off end_ : ℕ) (proto : ProtoId)
    (parent : Option ProtoId) (hoff : off ≤ end_) :
    ∃ read unread, (walk T buf true n off end_ proto parent).1 = read ++ unread ∧
      (read ++ unread).length ≤ n ∧
      Laid T buf parent off end_ read unread (walk T buf true n off end_ proto parent).2 ∧
      (T.NeverPads → proto ≠ .Padding → ∀ s ∈ read ++ unread, s.proto ≠ .Padding) := by
  induction n generalizing off end_ proto parent with
  | zero =>
    exact ⟨[], [], rfl, Nat.le_refl 0,
      ⟨nofun, nofun, .nil, .nil, nofun, nofun, .inl rfl, rfl⟩, fun _ _ => nofun⟩
  | succ n ih =>
    rcases walk_succ T buf n off end_ proto parent hoff with hw | ⟨s, mid, hs, hw⟩
    · rw [hw]
      refine ⟨[], leftover off end_, rfl, ?_, .of_leftover T buf parent hoff, fun _ _ s hs => ?_⟩
      · unfold leftover
        split <;> simp
      · rw [List.nil_append, leftover] at hs
        split at hs
        · rw [List.mem_singleton.1 hs]
          exact nofun
        · exact absurd hs (List.not_mem_nil (a := s))
    · have hclass : T.NeverPads → proto ≠ .Padding → s.proto ≠ .Padding := fun hT hp =>
        hs.class_eq ▸ hT.class_of hp _ _
      rcases hw with hw | ⟨p, hp, hlt, hw⟩
      · rw [hw]
        refine ⟨[s], [], rfl, by simp, ?_, fun hT hp => ?_⟩
        · exact Laid.cons hs hs.stop_le
            ⟨nofun, nofun, .nil, .nil, nofun, nofun, .inl rfl, rfl⟩
        · exact List.forall_mem_cons.2 ⟨hclass hT hp, nofun⟩
      · obtain ⟨read, unread, hspans, hlen, hlaid, hpads⟩ :=
          ih (off + s.hlen) mid p (some s.proto) (Nat.le_of_lt hlt)
        rw [hw]
        refine ⟨s :: read, unread, congrArg (s :: ·) hspans, Nat.succ_le_succ hlen,
          Laid.cons hs hs.stop_le hlaid, fun hT hproto => ?_⟩
        have hp' : p ≠ .Padding := by
          rcases hp with rfl | ⟨hdr, hnext⟩
          · exact nofun
          · rintro rfl
            exact hT.next_of _ _ hnext
        rintro t (_ | ⟨_, ht⟩)
        · exact hclass hT hproto
        · exact hpads hT hp' t ht

/-- The layers a frame is read as: those whose headers were read, what is left unread before the
end they declare, and the octets past that end. -/
structure Dissection (T : Table) (buf : Bytes) where
  read : List LayerSpan
  unread : List LayerSpan
  trailer : List LayerSpan
  length_le : (read ++ unread ++ trailer).length ≤ 33
  starts : ∀ s ∈ (read ++ unread).head?, s.off = 0
  contiguous : (read ++ unread).IsChain fun s t => t.off = s.off + s.hlen
  hlen_le : ∀ s ∈ read ++ unread ++ trailer, s.hlen ≤ s.total
  shrinking : (read ++ unread).IsChain fun s t => t.off + t.total ≤ s.off + s.total
  in_buffer : ∀ s ∈ read ++ unread ++ trailer, s.off + s.total ≤ buf.length
  unread_eq : unread = [] ∨ ∃ off, unread = leftover off (declared_end T buf read)
  /-- The octets past the innermost declared end, all of them, and nothing where there are none. -/
  trailer_eq : trailer =
    if declared_end T buf read < buf.length then
      [⟨.Padding, declared_end T buf read, buf.length - declared_end T buf read,
        buf.length - declared_end T buf read⟩]
    else []

namespace Dissection

variable {T : Table} {buf : Bytes}

/-- The layers before the trailer. -/
def layers (d : Dissection T buf) : List LayerSpan := d.read ++ d.unread

def spans (d : Dissection T buf) : List LayerSpan := d.layers ++ d.trailer

end Dissection

/-- **Every dissection is well formed, whatever the layers answer**: no slice is out of bounds, and
the spans are those of a `Dissection`. Its trailer is the only `Padding` there is unless the table
or the link type itself names that layer. -/
theorem dissection_well_formed (T : Table) (buf : Bytes) (link : ProtoId) :
    ∃ d : Dissection T buf, spans_of_checked T buf link true = some d.spans ∧
      (T.NeverPads → link ≠ .Padding → ∀ s ∈ d.layers, s.proto ≠ .Padding) := by
  obtain ⟨read, unread, hspans, hlen, hlaid, hpads⟩ :=
    walk_laid T buf MAX_LAYERS 0 buf.length (outermost buf link) none (Nat.zero_le _)
  have hstop : (walk T buf true MAX_LAYERS 0 buf.length (outermost buf link) none).2 =
      declared_end T buf read := hlaid.stop_eq
  have hle : declared_end T buf read ≤ buf.length := foldl_min_le _ _
  -- the trailer, and where it ends
  obtain ⟨trailer, htrailer⟩ : ∃ trailer : List LayerSpan, trailer =
      if declared_end T buf read < buf.length then
        [⟨.Padding, declared_end T buf read, buf.length - declared_end T buf read,
          buf.length - declared_end T buf read⟩]
      else [] := ⟨_, rfl⟩
  have hlast : trailer.length ≤ 1 ∧ ∀ s ∈ trailer, s.hlen = s.total ∧ s.off + s.total = buf.length := by
    rw [htrailer]
    split
    · refine ⟨le_rfl, fun s hs => ?_⟩
      rw [List.mem_singleton.1 hs]
      exact ⟨rfl, Nat.add_sub_of_le hle⟩
    · exact ⟨Nat.zero_le _, nofun⟩
  let d : Dissection T buf :=
    { read, unread, trailer
      length_le := by
        rw [List.length_append]
        exact Nat.add_le_add hlen hlast.1
      starts := hlaid.starts
      contiguous := hlaid.contiguous
      hlen_le := fun s hs => (List.mem_append.1 hs).elim (hlaid.hlen_le s)
        fun hs => Nat.le_of_eq (hlast.2 s hs).1
      shrinking := hlaid.shrinking
      in_buffer := fun s hs => (List.mem_append.1 hs).elim (hlaid.le_end s)
        fun hs => Nat.le_of_eq (hlast.2 s hs).2
      unread_eq := hstop ▸ hlaid.unread_eq
      trailer_eq := htrailer }
  refine ⟨d, ?_, fun hT hlink => hpads hT ?_⟩
  · rw [spans_of_checked_eq]
    apply congrArg some
    show (if (walk T buf true MAX_LAYERS 0 buf.length (outermost buf link) none).2 < buf.length
      then _ else _) = read ++ unread ++ trailer
    rw [hspans, hstop, htrailer]
    split
    · rfl
    · rw [List.append_nil]
  · unfold outermost
    split
    · exact nofun
    · exact hlink

/-! ## A layer that names `Padding` -/

/-- `lltd_lltdemiteedesc::DESC`: what follows it is `Padding`. -/
def lltd_emitee_desc : ProtoDesc where
  min_len := 14
  header_len _ := 14
  next _ := .Proto .Padding

/-- LLTD over IPv4, bound by the user to protocol 253. -/
def Layers.emitee : Layers :=
  { Layers.core with
    desc := fun p => if p = .other 0 then lltd_emitee_desc else raw_desc
    bound_next := fun p hdr => if p = .Ipv4 ∧ hdr.getD 9 0 = 253 then some (.other 0) else none }

/-- A datagram of one emitee with an octet behind it, and an octet past its Total Length. -/
def emitee_datagram : Bytes :=
  ipv4_header 253 [10, 0, 0, 1] [10, 0, 0, 2] 15 ++ List.replicate 16 0

/-- **A `Padding` span need not be last**, nor start at the declared end: the octet behind the
emitee is one, and the octet past the datagram is another. -/
theorem padding_named_by_layer :
    (dissect_spans .emitee emitee_datagram .Ipv4).map (fun s => (s.proto, s.off, s.hlen)) =
        [(.Ipv4, 0, 20), (.other 0, 20, 14), (.Padding, 34, 1), (.Padding, 35, 1)] ∧
      ¬ ∀ s ∈ (dissect_spans .emitee emitee_datagram .Ipv4).dropLast, s.proto ≠ .Padding := by
  decide +kernel

end Wiry.Packet
