/-
Reassembly does not look at where its line starts, nor at the octets.

`relabel m g` moves every position of a state by `m` and sends every octet
through `g`. Each operation of `Build` commutes with it, because positions are
only compared and subtracted and octets are only copied. `feed` commutes with it
as soon as the sequence numbers are moved by the same amount and the line does
not underflow. Moving the line gives the transparency of the sequence wrap;
sending the octets through a function gives that what is delivered where depends
on no octet.
-/
import Wiry.Stream.Feed

set_option autoImplicit false

namespace Wiry.Stream

variable {α β : Type}

/-- The half with its octets sent through `g`. -/
def Half.relabel (g : α → β) (h : Half α) : Half β :=
  { data := h.data.map g, segs := h.segs, gaps := h.gaps, flags := h.flags, dropped := h.dropped }

/-- The held run with its octets sent through `g`. -/
def Held.relabel (g : α → β) (h : Held α) : Held β := { bytes := h.bytes.map g, pkt := h.pkt }

/-- The arrival with its sequence number moved by `k` and its octets sent through `g`. -/
def Arrival.relabel (k : UInt32) (g : α → β) (f : Arrival α) : Arrival β :=
  { seq := f.seq + k, flags := f.flags, data := f.data.map g, pkt := f.pkt }

/-- Moving a position keeps the order of positions. -/
theorem strictMono_add (m : ℕ) : StrictMono fun k : ℕ => k + m :=
  fun _ _ h => Nat.add_lt_add_right h m

namespace Build

/-- The state with its positions moved by `m` and its octets sent through `g`. -/
def relabel (m : ℕ) (g : α → β) (b : Build α) : Build β :=
  { half := b.half.relabel g
    held := b.held.map (fun k => k + m) (strictMono_add m) (Held.relabel g)
    held_bytes := b.held_bytes
    next := b.next + m
    origin := b.origin + m
    started := b.started
    open_ := b.open_ }

section Relabel

variable (m : ℕ) (g : α → β)

@[simp] theorem relabel_half (b : Build α) : (b.relabel m g).half = b.half.relabel g := rfl
@[simp] theorem relabel_held_bytes (b : Build α) : (b.relabel m g).held_bytes = b.held_bytes := rfl
@[simp] theorem relabel_next (b : Build α) : (b.relabel m g).next = b.next + m := rfl
@[simp] theorem relabel_origin (b : Build α) : (b.relabel m g).origin = b.origin + m := rfl
@[simp] theorem relabel_started (b : Build α) : (b.relabel m g).started = b.started := rfl
@[simp] theorem relabel_open (b : Build α) : (b.relabel m g).open_ = b.open_ := rfl

@[simp] theorem relabel_length (b : Build α) : (b.relabel m g).held.length = b.held.length :=
  SortedMap.length_map _ _ _ _

theorem relabel_first (b : Build α) :
    (b.relabel m g).held.first = b.held.first.map fun x => (x.1 + m, x.2.relabel g) :=
  SortedMap.first_map _ _ _ _

@[simp] theorem length_data_relabel (h : Half α) : (h.relabel g).data.length = h.data.length := by
  simp [Half.relabel]

@[simp] theorem length_bytes_relabel (h : Held α) :
    (h.relabel g).bytes.length = h.bytes.length := by
  simp [Held.relabel]

/-! ## Delivering and giving up -/

theorem append_relabel (b : Build α) (data : List α) (pkt : ℕ) :
    (b.relabel m g).append (data.map g) pkt = (b.append data pkt).relabel m g := by
  unfold append
  simp only [relabel_half, length_data_relabel, List.length_map]
  split_ifs
  · simp [relabel, Half.relabel, Nat.add_right_comm]
  · simp [relabel, Half.relabel, Nat.add_right_comm, List.map_take]
  · simp [relabel, Half.relabel, Nat.add_right_comm, List.map_take]

/-- So does taking a held run out. -/
theorem pop_relabel (b : Build α) (ks : ℕ) (h : Held α) :
    (b.relabel m g).pop (ks + m) (h.relabel g) = (b.pop ks h).relabel m g := by
  have hrem : (b.relabel m g).held.remove (ks + m) =
      (b.held.remove ks).map (fun k => k + m) (strictMono_add m) (Held.relabel g) :=
    SortedMap.remove_map (fun k => k + m) (strictMono_add m) (Held.relabel g) b.held ks
  unfold pop
  rw [hrem, length_bytes_relabel]
  rfl

theorem take_front_relabel (b : Build α) (ks : ℕ) (h : Held α) :
    (b.relabel m g).take_front (ks + m) (h.relabel g) = (b.take_front ks h).relabel m g := by
  have hskip : b.next + m - (ks + m) = b.next - ks := by omega
  have hdrop : (h.relabel g).bytes.drop (b.next - ks) = (h.bytes.drop (b.next - ks)).map g :=
    List.map_drop.symm
  unfold take_front
  simp only [relabel_next, length_bytes_relabel, hskip, hdrop, pop_relabel]
  by_cases hle : ks + h.bytes.length ≤ b.next
  · rw [if_pos hle, if_pos (by omega)]
  · rw [if_neg hle, if_neg (by omega)]
    exact append_relabel m g _ _ _

/-- So does draining. -/
theorem drain_relabel (b : Build α) : (b.relabel m g).drain = b.drain.relabel m g := by
  -- By the drain's own turns, which look at the first run alone.
  refine drain_induction (P := fun b b' => (b.relabel m g).drain = b'.relabel m g) ?_ ?_ b
  · intro b hstay
    rw [drain]
    split
    · rename_i ks h hf
      rw [relabel_first, Option.map_eq_some_iff] at hf
      obtain ⟨x, hx, hxe⟩ := hf
      obtain ⟨rfl, rfl⟩ := Prod.mk.inj hxe
      have := hstay x.1 x.2 hx
      rw [if_pos (by rw [relabel_next]; omega)]
    · rfl
  · intro b ks h hf hks ih
    rw [drain]
    have hf' : (b.relabel m g).held.first = some (ks + m, h.relabel g) := by
      rw [relabel_first, hf]
      rfl
    split
    · rename_i ks' h' hf''
      rw [hf'] at hf''
      obtain ⟨rfl, rfl⟩ := Prod.mk.inj (Option.some.inj hf'')
      rw [if_neg (by rw [relabel_next]; omega), take_front_relabel, ih]
    · rename_i hf''
      rw [hf'] at hf''
      cases hf''

/-- So does passing over a gap. -/
theorem skip_to_relabel (b : Build α) (first : ℕ) :
    (b.relabel m g).skip_to (first + m) = (b.skip_to first).relabel m g := by
  unfold skip_to
  by_cases hlt : b.next < first
  · rw [if_pos hlt, if_pos (by rw [relabel_next]; omega)]
    simp only [relabel, Half.relabel, List.length_map, Nat.add_sub_add_right]
  · rw [if_neg hlt, if_neg (by rw [relabel_next]; omega)]

/-- So does giving up on the front. -/
theorem give_up_relabel (b : Build α) :
    (b.relabel m g).give_up_on_front = b.give_up_on_front.map (relabel m g) := by
  unfold give_up_on_front
  rw [relabel_first]
  cases b.held.first with
  | none => rfl
  | some x => simp only [Option.map_some, skip_to_relabel, drain_relabel]

theorem overfull_relabel (b : Build α) : (b.relabel m g).overfull ↔ b.overfull := by
  unfold overfull
  rw [relabel_length, relabel_held_bytes]

/-- So does relief. -/
theorem relieve_relabel (b : Build α) : (b.relabel m g).relieve = b.relieve.relabel m g := by
  have hg := give_up_relabel m g b
  by_cases ho : b.overfull
  · have ho' := (overfull_relabel m g b).2 ho
    cases hb : b.give_up_on_front with
    | none => rw [relieve_of_none hb, relieve_of_none (by rw [hg, hb]; rfl)]
    | some b' =>
      rw [relieve_of_some ho hb, relieve_of_some ho' (by rw [hg, hb]; rfl)]
      exact relieve_relabel b'
  · rw [relieve_of_not ho, relieve_of_not fun h => ho ((overfull_relabel m g b).1 h)]
termination_by b.held.length
decreasing_by exact length_give_up_lt ‹_›

/-- So does flushing. -/
theorem flush_relabel (b : Build α) : (b.relabel m g).flush = b.flush.relabel m g := by
  have hg := give_up_relabel m g b
  cases hb : b.give_up_on_front with
  | none => rw [flush_of_none hb, flush_of_none (by rw [hg, hb]; rfl)]
  | some b' =>
    rw [flush_of_some hb, flush_of_some (by rw [hg, hb]; rfl)]
    exact flush_relabel b'
termination_by b.held.length
decreasing_by exact length_give_up_lt ‹_›

/-! ## Holding -/

/-- So does the search for the end of a stretch. -/
theorem hold_stop_relabel (b : Build α) (cur end_ : ℕ) :
    (b.relabel m g).hold_stop (cur + m) (end_ + m) =
      ((b.hold_stop cur end_).1 + m, (b.hold_stop cur end_).2 + m) := by
  have hceil : (b.relabel m g).held.ceil (cur + m) =
      (b.held.ceil cur).map fun x => (x.1 + m, x.2.relabel g) :=
    SortedMap.ceil_map (fun k => k + m) (strictMono_add m) (Held.relabel g) b.held cur
  unfold hold_stop
  rw [hceil]
  cases b.held.ceil cur with
  | none => rfl
  | some x =>
    simp only [Option.map_some, length_bytes_relabel]
    by_cases hlt : x.1 < end_
    · rw [if_pos hlt, if_pos (by omega)]
      simp only [Nat.add_right_comm]
    · rw [if_neg hlt, if_neg (by omega)]

/-- So does putting a run in. -/
theorem insert_held_relabel (b : Build α) (k : ℕ) (bytes : List α) (pkt : ℕ) :
    (b.relabel m g).insert_held (k + m) (bytes.map g) pkt =
      (b.insert_held k bytes pkt).relabel m g := by
  have hins : (b.relabel m g).held.insert (k + m) ⟨bytes.map g, pkt⟩ =
      (b.held.insert k ⟨bytes, pkt⟩).map (fun k => k + m) (strictMono_add m) (Held.relabel g) :=
    SortedMap.insert_map (fun k => k + m) (strictMono_add m) (Held.relabel g) b.held k ⟨bytes, pkt⟩
  unfold insert_held
  rw [hins]
  simp [relabel]

/-- So does one turn of the holding loop. -/
theorem hold_turn_relabel (b : Build α) (at_ : ℕ) (src : List α) (pkt cur : ℕ) :
    (b.relabel m g).hold_turn (at_ + m) (src.map g) pkt (cur + m) =
      (b.hold_turn at_ src pkt cur).relabel m g := by
  unfold hold_turn
  have hend : at_ + m + (src.map g).length = at_ + src.length + m := by
    rw [List.length_map]
    omega
  simp only [hend, hold_stop_relabel, Nat.add_sub_add_right, ← List.map_drop, ← List.map_take]
  by_cases hgt : (b.hold_stop cur (at_ + src.length)).1 > cur
  · rw [if_pos hgt, if_pos (by omega)]
    exact insert_held_relabel m g b _ _ _
  · rw [if_neg hgt, if_neg (by omega)]

/-- And so the loop. -/
theorem hold_from_relabel (b : Build α) (at_ : ℕ) (src : List α) (pkt cur : ℕ) :
    (b.relabel m g).hold_from (at_ + m) (src.map g) pkt (cur + m) =
      (b.hold_from at_ src pkt cur).relabel m g := by
  have hend : at_ + m + (src.map g).length = at_ + src.length + m := by
    rw [List.length_map]
    omega
  by_cases hcur : cur < at_ + src.length
  · rw [hold_from_of_lt b pkt hcur, hold_from_of_lt _ pkt (by omega), hold_turn_relabel, hend,
      hold_stop_relabel]
    have hmax : max ((b.hold_stop cur (at_ + src.length)).2 + m) (cur + m + 1) =
        max (b.hold_stop cur (at_ + src.length)).2 (cur + 1) + m := by omega
    simp only [hmax]
    exact hold_from_relabel _ at_ src pkt _
  · rw [hold_from_of_le b pkt (by omega), hold_from_of_le _ pkt (by omega)]
termination_by at_ + src.length - cur
decreasing_by omega

/-- And so the whole of holding. -/
theorem hold_relabel (b : Build α) (at_ : ℕ) (src : List α) (pkt : ℕ) :
    (b.relabel m g).hold (at_ + m) (src.map g) pkt = (b.hold at_ src pkt).relabel m g := by
  have hfloor : (b.relabel m g).held.floor (at_ + m) =
      (b.held.floor at_).map fun x => (x.1 + m, x.2.relabel g) :=
    SortedMap.floor_map (fun k => k + m) (strictMono_add m) (Held.relabel g) b.held at_
  unfold hold
  rw [hfloor]
  cases b.held.floor at_ with
  | none => exact hold_from_relabel m g b at_ src pkt at_
  | some x =>
    simp only [Option.map_some, length_bytes_relabel, List.length_map]
    by_cases hle : at_ + src.length ≤ x.1 + x.2.bytes.length
    · rw [if_pos hle, if_pos (by omega)]
    · rw [if_neg hle, if_neg (by omega)]
      have hmax : max (at_ + m) (x.1 + m + x.2.bytes.length) =
          max at_ (x.1 + x.2.bytes.length) + m := by omega
      rw [hmax]
      exact hold_from_relabel m g b at_ src pkt _

/-- So does fixing the origin. -/
theorem fix_origin_relabel (b : Build α) :
    (b.relabel m g).fix_origin = b.fix_origin.relabel m g := by
  unfold fix_origin
  rw [relabel_first]
  cases b.held.first with
  | none => rfl
  | some x => rfl

/-! ## Feeding -/

theorem refuse_relabel (b : Build α) (n : ℕ) :
    (b.relabel m g).refuse n = (b.refuse n).relabel m g := rfl

theorem mark_relabel (b : Build α) (k : UInt8) :
    (b.relabel m g).mark k = (b.mark k).relabel m g := rfl

/-- So does seeing a SYN. -/
theorem see_syn_relabel (b : Build α) (at_ : ℕ) :
    (b.relabel m g).see_syn (at_ + m) = (b.see_syn at_).relabel m g := by
  unfold see_syn
  rw [relabel_open, mark_relabel]
  split
  · rfl
  · simp only [relabel, Nat.add_right_comm]

/-- So do the other control bits. -/
theorem see_control_relabel (b : Build α) (at_ : ℕ) (flags : UInt8) :
    (b.relabel m g).see_control (at_ + m) flags = (b.see_control at_ flags).relabel m g := by
  unfold see_control
  simp only [see_syn_relabel]
  split_ifs <;> rfl

theorem feed_ahead_relabel (b : Build α) (at_ : ℕ) (data : List α) (pkt : ℕ) :
    (b.relabel m g).feed_ahead (at_ + m) (data.map g) pkt =
      (b.feed_ahead at_ data pkt).relabel m g := by
  unfold feed_ahead
  simp only [relabel_next, Nat.add_sub_add_right, List.length_map, gt_iff_lt,
    Nat.add_lt_add_iff_right, refuse_relabel, hold_relabel, relieve_relabel, append_relabel,
    drain_relabel]
  split_ifs <;> rfl

/-- Feeding an open build commutes too. -/
theorem feed_open_relabel (b : Build α) (at_ : ℕ) (data : List α) (pkt : ℕ) :
    (b.relabel m g).feed_open (at_ + m) (data.map g) pkt =
      (b.feed_open at_ data pkt).relabel m g := by
  have hbelow : (if at_ + m < (b.relabel m g).origin then
      (b.relabel m g).refuse (min ((b.relabel m g).origin - (at_ + m)) (data.map g).length)
      else b.relabel m g) =
      (if at_ < b.origin then b.refuse (min (b.origin - at_) data.length) else b).relabel m g := by
    simp only [relabel_origin, Nat.add_sub_add_right, List.length_map, Nat.add_lt_add_iff_right]
    split_ifs <;> rfl
  unfold feed_open
  rw [hbelow]
  generalize (if at_ < b.origin then b.refuse (min (b.origin - at_) data.length) else b) = e
  have hend : at_ + m + data.length ≤ e.next + m ↔ at_ + data.length ≤ e.next := by
    omega
  simp only [relabel_next, hend, Nat.add_sub_add_right, Nat.add_lt_add_iff_right, List.length_map,
    ← List.map_drop, feed_ahead_relabel]
  split_ifs <;> rfl

theorem feed_window_relabel (b : Build α) (at_ : ℕ) (data : List α) (pkt : ℕ) :
    (b.relabel m g).feed_window (at_ + m) (data.map g) pkt =
      (b.feed_window at_ data pkt).relabel m g := by
  have hdiff : abs_diff (at_ + m) (b.next + m) = abs_diff at_ b.next := by
    unfold abs_diff
    omega
  unfold feed_window
  simp only [relabel_next, hdiff, List.length_map, refuse_relabel, hold_relabel, relabel_length,
    fix_origin_relabel, drain_relabel]
  split_ifs <;> rfl

/-- The signed difference to the frontier does not see the line move. -/
theorem distance_relabel (b : Build α) (seq : UInt32) :
    (b.relabel m g).distance (seq + UInt32.ofNat m) = b.distance seq := by
  unfold distance
  have hofNat : UInt32.ofNat (b.next + m) = UInt32.ofNat b.next + UInt32.ofNat m :=
    UInt32.ofNat_add _ _
  rw [relabel_next, hofNat, add_sub_add_right_eq_sub]

/-- Where the line does not underflow, positions move with it. -/
theorem absolute_relabel {b : Build α} {seq : UInt32} (h : 0 ≤ (b.next : ℤ) + b.distance seq) :
    (b.relabel m g).absolute (seq + UInt32.ofNat m) = b.absolute seq + m := by
  unfold absolute
  rw [distance_relabel, relabel_next]
  omega

/-- **`feed` commutes with relabelling**, once the direction is anchored and its line does not
underflow. -/
theorem take_relabel {b : Build α} {f : Arrival α} (hst : b.started = true)
    (h : 0 ≤ (b.next : ℤ) + b.distance f.seq) :
    (b.relabel m g).take (f.relabel (UInt32.ofNat m) g) = (b.take f).relabel m g := by
  have hland : payload_at (b.absolute f.seq + m) f.flags =
      payload_at (b.absolute f.seq) f.flags + m := by
    unfold payload_at
    split
    · omega
    · rfl
  unfold take feed
  rw [anchor_of_started hst, anchor_of_started (by rw [relabel_started, hst])]
  simp only [Arrival.relabel, absolute_relabel m g h, see_control_relabel, hland,
    List.isEmpty_map, relabel_open, feed_open_relabel, feed_window_relabel]
  split_ifs <;> rfl

/-- And so does finishing. -/
theorem finished_relabel (b : Build α) :
    (b.relabel m g).finished = b.finished.relabel m g := by
  unfold finished
  rw [relabel_open, fix_origin_relabel]
  split
  · exact flush_relabel m g _
  · exact flush_relabel m g _

end Relabel

end Build

end Wiry.Stream
