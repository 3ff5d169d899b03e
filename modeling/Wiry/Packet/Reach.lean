/-
Where the turns of `recompute` write: `crates/wiry-core/src/compute.rs` by the octets each of them
touches.

A turn stays inside a few octets of its own layer's header, so what a header says that no turn
touches is what it said before the pass.
-/
import Wiry.Packet.Edit

set_option autoImplicit false

namespace Wiry.Packet

/-! ## Octets that change -/

/-- The octets of `[a, b)` are all that changes. -/
structure Rewrites (a b : ℕ) (f g : Bytes) : Prop where
  length : g.length = f.length
  frame : ∀ n, n < a ∨ b ≤ n → g[n]? = f[n]?

namespace Rewrites

variable {a b pos : ℕ} {f g k : Bytes}

theorem refl : Rewrites a b f f := ⟨rfl, fun _ _ => rfl⟩

theorem trans (h : Rewrites a b f g) (h' : Rewrites a b g k) : Rewrites a b f k :=
  ⟨h'.length.trans h.length, fun n hn => (h'.frame n hn).trans (h.frame n hn)⟩

theorem put {bs : Bytes} (h : Rewrites a b f g) (ha : a ≤ pos) (hb : pos + bs.length ≤ b)
    (hlen : b ≤ f.length) : Rewrites a b f (put g pos bs) := by
  have hroom : pos + bs.length ≤ g.length := by
    rw [h.length]
    omega
  constructor
  · rw [length_put hroom, h.length]
  · intro n hn
    rw [put_getElem? hroom, if_neg (by omega)]
    exact h.frame n hn

theorem put16 (h : Rewrites a b f g) (v : UInt16) (ha : a ≤ pos) (hb : pos + 2 ≤ b)
    (hlen : b ≤ f.length) : Rewrites a b f (put16 g pos v) := by
  apply h.put ha
  · rw [length_octets_of]
    exact hb
  · exact hlen

end Rewrites

/-! ## One layer -/

/-- The octets of a layer that its turn of `recompute` may write, counted from where it starts. -/
def touched (s : LayerSpan) : ℕ × ℕ :=
  match s.proto with
  | .Ipv4 => (2, 12)
  | .Udp => (4, 8)
  | .Tcp => (16, 18)
  | .Icmp | .Icmpv6 | .GtpU => (2, 4)
  | .Dns => (0, 2)
  | .Gre | .Ipv6 | .Pppoe | .PppoeDisc => (4, 6)
  | .HopByHop | .DestOpt | .Routing => (1, 2)
  | .Geneve => (0, 1)
  | .other n => if (counted n).isSome then (0, s.hlen) else (0, 0)
  | _ => (0, 0)

/-- A turn changes the buffer only, and of it the octets it may write. -/
def Touches (pkt pkt' : Packet) (s : LayerSpan) (w : ℕ × ℕ) : Prop :=
  ∃ buf, pkt' = { pkt with buf } ∧ Rewrites (s.off + w.1) (s.off + w.2) pkt.buf buf

theorem Touches.refl (pkt : Packet) (s : LayerSpan) (w : ℕ × ℕ) : Touches pkt pkt s w :=
  ⟨pkt.buf, rfl, .refl⟩

theorem content_end_le (pkt : Packet) : content_end pkt ≤ pkt.buf.length := by
  unfold content_end
  split
  · exact Nat.min_le_right _ _
  · exact le_rfl

section Turns

variable (pkt : Packet) (i : ℕ) (s : LayerSpan)

/-- The IPv4 fixer touches the total length, and the checksum, and nothing outside those. -/
theorem fix_ipv4_touches (clipped : Bool) : Touches pkt (fix_ipv4 pkt i s clipped) s (2, 12) := by
  unfold fix_ipv4 span_bounds
  dsimp only
  split
  · exact .refl pkt s _
  · rename_i hroom
    have hlen : s.off + 12 ≤ pkt.buf.length := by
      have hend := content_end_le pkt
      omega
    have hfirst : Rewrites (s.off + 2) (s.off + 12) pkt.buf
        (if (!clipped && !pkt.is_pinned i "len") = true then
          put16 pkt.buf (s.off + 2) (UInt16.ofNat (content_end pkt - s.off)) else pkt.buf) := by
      split
      · exact Rewrites.refl.put16 _ (by omega) (by omega) hlen
      · exact .refl
    split
    · exact ⟨_, rfl, hfirst⟩
    · refine ⟨_, rfl, ?_⟩
      apply Rewrites.put16 _ _ (by omega) (by omega) hlen
      exact hfirst.put16 _ (by omega) (by omega) hlen

/-- The UDP fixer touches the length and the checksum. -/
theorem fix_udp_touches (clipped : Bool) : Touches pkt (fix_udp pkt i s clipped) s (4, 8) := by
  unfold fix_udp span_bounds
  dsimp only
  split
  · exact .refl pkt s _
  · rename_i hroom
    have hlen : s.off + 8 ≤ pkt.buf.length := by
      have hend := content_end_le pkt
      simp only [not_or] at hroom
      omega
    have hfirst : Rewrites (s.off + 4) (s.off + 8) pkt.buf
        (if (!pkt.is_pinned i "len") = true then
          put16 pkt.buf (s.off + 4) (UInt16.ofNat (content_end pkt - s.off)) else pkt.buf) := by
      split
      · exact Rewrites.refl.put16 _ (by omega) (by omega) hlen
      · exact .refl
    split
    · exact ⟨_, rfl, hfirst⟩
    · have hzeroed : Rewrites (s.off + 4) (s.off + 8) pkt.buf (put16 _ (s.off + 6) 0) :=
        hfirst.put16 0 (by omega) (by omega) hlen
      split
      · exact ⟨_, rfl, hzeroed⟩
      · exact ⟨_, rfl, hzeroed.put16 _ (by omega) (by omega) hlen⟩

theorem fix_seeded_touches (proto : UInt8) {pos : ℕ} (hlen : s.off + pos + 2 ≤ pkt.buf.length) :
    Touches pkt (fix_seeded pkt i s proto pos) s (pos, pos + 2) := by
  have hzeroed : Rewrites (s.off + pos) (s.off + (pos + 2)) pkt.buf (put16 pkt.buf (s.off + pos) 0) :=
    Rewrites.refl.put16 _ le_rfl (by omega) (by omega)
  unfold fix_seeded span_bounds
  dsimp only
  split
  · exact ⟨_, rfl, hzeroed⟩
  · exact ⟨_, rfl, hzeroed.put16 _ le_rfl (by omega) (by omega)⟩

/-- TCP's. -/
theorem fix_tcp_touches : Touches pkt (fix_tcp pkt i s) s (16, 18) := by
  unfold fix_tcp span_bounds
  dsimp only
  split
  · exact .refl pkt s _
  · rename_i hroom
    have hend := content_end_le pkt
    simp only [not_or] at hroom
    exact fix_seeded_touches pkt i s 6 (by omega)

/-- ICMPv6's. -/
theorem fix_icmpv6_touches : Touches pkt (fix_icmpv6 pkt i s) s (2, 4) := by
  unfold fix_icmpv6 span_bounds
  dsimp only
  split
  · exact .refl pkt s _
  · rename_i hroom
    have hend := content_end_le pkt
    simp only [not_or] at hroom
    exact fix_seeded_touches pkt i s 58 (by omega)

/-- A fixer of a bare checksum touches its two octets. -/
theorem fix_bare_checksum_touches {pos min : ℕ} (hmin : pos + 2 ≤ min) :
    Touches pkt (fix_bare_checksum pkt i s pos min) s (pos, pos + 2) := by
  unfold fix_bare_checksum span_bounds
  dsimp only
  split
  · exact .refl pkt s _
  · rename_i hroom
    have hend := content_end_le pkt
    simp only [not_or] at hroom
    refine ⟨_, rfl, ?_⟩
    apply Rewrites.put16 _ _ le_rfl (by omega) (by omega)
    exact Rewrites.refl.put16 _ le_rfl (by omega) (by omega)

/-- GRE's, where it has one. -/
theorem fix_gre_touches : Touches pkt (fix_gre pkt i s) s (4, 6) := by
  unfold fix_gre
  split
  · exact fix_bare_checksum_touches pkt i s (by omega)
  · exact .refl pkt s _

variable {s}

/-- A header lies in the buffer. -/
def LayerSpan.Inside (s : LayerSpan) (buf : Bytes) : Prop := s.off + s.hlen ≤ buf.length

variable {pkt}

theorem fix_dns_length_touches (hs : s.Inside pkt.buf) (hframed : pkt.framing i = 2) :
    Touches pkt (fix_dns_length pkt i s) s (0, 2) := by
  have hin : s.off + s.hlen ≤ pkt.buf.length := hs
  unfold fix_dns_length span_bounds
  dsimp only
  split
  · exact .refl pkt s _
  · rename_i hroom
    simp only [not_or] at hroom
    exact ⟨_, rfl, Rewrites.refl.put16 _ le_rfl (by omega) (by omega)⟩

theorem fix_tail_len_touches {pos fixed : ℕ} (htail : tail_len s.proto = some (pos, fixed))
    (hfixed : pos + 2 ≤ fixed) : Touches pkt (fix_tail_len pkt i s) s (pos, pos + 2) := by
  unfold fix_tail_len span_bounds
  rw [htail]
  dsimp only
  split
  · exact .refl pkt s _
  · rename_i hroom
    have hend := content_end_le pkt
    simp only [not_or] at hroom
    exact ⟨_, rfl, Rewrites.refl.put16 _ le_rfl (by omega) (by omega)⟩

/-- The fixer of a payload length stays inside the header. -/
theorem fix_payload_len_touches (R : Registry) (hs : s.Inside pkt.buf) :
    Touches pkt (fix_payload_len R pkt i s) s (0, s.hlen) := by
  have hin : s.off + s.hlen ≤ pkt.buf.length := hs
  unfold fix_payload_len span_bounds
  split
  · exact .refl pkt s _
  · split
    · exact .refl pkt s _
    · have hhlen : min s.hlen (pkt.buf.length - s.off) = s.hlen := by omega
      refine ⟨_, rfl, ?_⟩
      dsimp only
      rw [hhlen]
      apply Rewrites.refl.put le_rfl _ hin
      rw [length_write_uint, length_slice hin]
      omega

/-- The fixer of a header length in units touches the one octet that holds it. -/
theorem fix_unit_hlen_touches {name : String} {unit fixed max : ℕ}
    (hunit : unit_hlen s.proto = some (name, unit, fixed, max)) :
    Touches pkt (fix_unit_hlen pkt i s) s (if s.proto = .Geneve then (0, 1) else (1, 2)) := by
  unfold fix_unit_hlen span_bounds
  rw [hunit]
  dsimp only
  split
  · exact .refl pkt s _
  · rename_i hroom
    simp only [not_or] at hroom
    split
    · exact .refl pkt s _
    · split
      · refine ⟨_, rfl, List.length_modify _ _ _, ?_⟩
        intro n hn
        rw [List.getElem?_modify_ne]
        omega
      · refine ⟨_, rfl, List.length_set, ?_⟩
        intro n hn
        rw [List.getElem?_set_ne]
        omega

theorem fix_tail_len_of_none (htail : tail_len s.proto = none) : fix_tail_len pkt i s = pkt := by
  unfold fix_tail_len
  rw [htail]

theorem fix_unit_hlen_of_none (hunit : unit_hlen s.proto = none) : fix_unit_hlen pkt i s = pkt := by
  unfold fix_unit_hlen
  rw [hunit]

theorem fix_payload_len_of_none (R : Registry) (hcount : payload_len_of s.proto = none) :
    fix_payload_len R pkt i s = pkt := by
  unfold fix_payload_len payload_len
  rw [hcount]

/-- Of the three lengths a layer has one at most. -/
theorem fix_lengths_of_none (R : Registry) (htail : tail_len s.proto = none)
    (hunit : unit_hlen s.proto = none) (hcount : payload_len_of s.proto = none) :
    fix_lengths R pkt i s = pkt := by
  unfold fix_lengths
  rw [fix_tail_len_of_none i htail, fix_unit_hlen_of_none i hunit, fix_payload_len_of_none i R hcount]

theorem fix_lengths_of_tail (R : Registry) (hunit : unit_hlen s.proto = none)
    (hcount : payload_len_of s.proto = none) : fix_lengths R pkt i s = fix_tail_len pkt i s := by
  unfold fix_lengths
  rw [fix_unit_hlen_of_none i hunit, fix_payload_len_of_none i R hcount]

theorem fix_lengths_of_unit (R : Registry) (htail : tail_len s.proto = none)
    (hcount : payload_len_of s.proto = none) : fix_lengths R pkt i s = fix_unit_hlen pkt i s := by
  unfold fix_lengths
  rw [fix_tail_len_of_none i htail, fix_payload_len_of_none i R hcount]

theorem fix_lengths_of_count (R : Registry) (htail : tail_len s.proto = none)
    (hunit : unit_hlen s.proto = none) : fix_lengths R pkt i s = fix_payload_len R pkt i s := by
  unfold fix_lengths
  rw [fix_tail_len_of_none i htail, fix_unit_hlen_of_none i hunit]

/-- The turn of a capture that is not clipped. -/
theorem fix_layer_eq (R : Registry) (hs : pkt.spans[i]? = some s) :
    fix_layer R false pkt i = fix_proto false (fix_lengths R pkt i s) i s := by
  unfold fix_layer
  rw [hs]
  rfl

theorem framing_octets_cases (parent child : ProtoId) :
    framing_octets parent child = 0 ∨ framing_octets parent child = 2 := by
  unfold framing_octets
  split <;> simp

theorem framing_cases (pkt : Packet) (i : ℕ) : pkt.framing i = 0 ∨ pkt.framing i = 2 := by
  unfold framing framing_at
  split
  · exact .inl rfl
  · split
    · exact framing_octets_cases _ _
    · exact .inl rfl

/-- **A turn writes only the octets its layer is known by.** -/
theorem fix_layer_touches (R : Registry) (hs : pkt.spans[i]? = some s) (hin : s.Inside pkt.buf) :
    Touches pkt (fix_layer R false pkt i) s (touched s) := by
  have hnone : ∀ p, s.proto = p → tail_len p = none → unit_hlen p = none →
      payload_len_of p = none → fix_lengths R pkt i s = pkt := by
    rintro p rfl
    exact fix_lengths_of_none i R
  have htail : ∀ p, s.proto = p → unit_hlen p = none → payload_len_of p = none →
      fix_lengths R pkt i s = fix_tail_len pkt i s := by
    rintro p rfl
    exact fix_lengths_of_tail i R
  have hunit : ∀ p, s.proto = p → tail_len p = none → payload_len_of p = none →
      fix_lengths R pkt i s = fix_unit_hlen pkt i s := by
    rintro p rfl
    exact fix_lengths_of_unit i R
  rw [fix_layer_eq i R hs]
  unfold touched fix_proto
  cases hproto : s.proto with
  | Ipv4 =>
    rw [hnone _ hproto rfl rfl rfl]
    exact fix_ipv4_touches pkt i s false
  | Udp =>
    rw [hnone _ hproto rfl rfl rfl]
    exact fix_udp_touches pkt i s false
  | Tcp =>
    rw [hnone _ hproto rfl rfl rfl]
    exact fix_tcp_touches pkt i s
  | Icmp =>
    rw [hnone _ hproto rfl rfl rfl]
    exact fix_bare_checksum_touches pkt i s le_rfl
  | Icmpv6 =>
    rw [hnone _ hproto rfl rfl rfl]
    exact fix_icmpv6_touches pkt i s
  | Gre =>
    rw [hnone _ hproto rfl rfl rfl]
    exact fix_gre_touches pkt i s
  | Dns =>
    rw [hnone _ hproto rfl rfl rfl]
    dsimp only
    split
    · exact .refl pkt s _
    · rename_i hframed
      have htwo : pkt.framing i = 2 := (framing_cases pkt i).resolve_left fun h => hframed (.inr h)
      exact fix_dns_length_touches i hin htwo
  | Ipv6 =>
    have hat : tail_len s.proto = some (4, 40) := by rw [hproto]; rfl
    rw [htail _ hproto rfl rfl]
    exact fix_tail_len_touches i hat (by omega)
  | Pppoe =>
    have hat : tail_len s.proto = some (4, 6) := by rw [hproto]; rfl
    rw [htail _ hproto rfl rfl]
    exact fix_tail_len_touches i hat (by omega)
  | PppoeDisc =>
    have hat : tail_len s.proto = some (4, 6) := by rw [hproto]; rfl
    rw [htail _ hproto rfl rfl]
    exact fix_tail_len_touches i hat (by omega)
  | GtpU =>
    have hat : tail_len s.proto = some (2, 8) := by rw [hproto]; rfl
    rw [htail _ hproto rfl rfl]
    exact fix_tail_len_touches i hat (by omega)
  | HopByHop | DestOpt | Routing =>
    have hat : unit_hlen s.proto = some ("len", 8, 8, 255) := by rw [hproto]; rfl
    have hne : s.proto ≠ .Geneve := by rw [hproto]; exact nofun
    have htouch : Touches pkt (fix_unit_hlen pkt i s) s _ := fix_unit_hlen_touches i hat
    rw [if_neg hne] at htouch
    rw [hunit _ hproto rfl rfl]
    exact htouch
  | Geneve =>
    have hat : unit_hlen s.proto = some ("optionlen", 4, 8, 63) := by rw [hproto]; rfl
    have htouch : Touches pkt (fix_unit_hlen pkt i s) s _ := fix_unit_hlen_touches i hat
    rw [if_pos hproto] at htouch
    rw [hunit _ hproto rfl rfl]
    exact htouch
  | other n =>
    -- a layer that counts its payload, or one that recomputation knows nothing of
    dsimp only
    cases hcounted : counted n with
    | none =>
      have hcount : payload_len_of (.other n) = none := by
        unfold payload_len_of
        dsimp only
        rw [hcounted]
        rfl
      rw [hnone _ hproto rfl rfl hcount]
      exact .refl pkt s _
    | some c =>
      rw [fix_lengths_of_count i R (by rw [hproto]; rfl) (by rw [hproto]; rfl)]
      exact fix_payload_len_touches i R hin
  | _ =>
    rw [hnone _ hproto rfl rfl rfl]
    exact .refl pkt s _

/-- A GRE header with no checksum in it is left alone. -/
theorem fix_layer_of_no_sum (R : Registry) (hs : pkt.spans[i]? = some s) (hproto : s.proto = .Gre)
    (hsum : sum_present pkt.buf s.off = false) : fix_layer R false pkt i = pkt := by
  have hnone : fix_lengths R pkt i s = pkt := by
    apply fix_lengths_of_none <;> (rw [hproto]; rfl)
  rw [fix_layer_eq i R hs, hnone]
  unfold fix_proto fix_gre
  rw [hproto]
  dsimp only
  rw [if_neg Bool.false_ne_true, hsum, if_neg Bool.false_ne_true]

theorem fix_layer_of_none (R : Registry) (clipped : Bool) (hs : pkt.spans[i]? = none) :
    fix_layer R clipped pkt i = pkt := by
  unfold fix_layer
  rw [hs]

end Turns

/-! ## The pass -/

section Pass

variable (R : Registry) (clipped : Bool)

theorem fix_down_self (m : ℕ) (pkt : Packet) : fix_down R clipped m m pkt = pkt := by
  unfold fix_down
  rw [Nat.sub_self]
  rfl

theorem fix_down_first {m n : ℕ} (h : m < n) (pkt : Packet) :
    fix_down R clipped m n pkt = fix_layer R clipped (fix_down R clipped (m + 1) n pkt) m := by
  obtain ⟨k, rfl⟩ : ∃ k, n = m + 1 + k := ⟨n - (m + 1), by omega⟩
  have hmore : m + 1 + k - m = k + 1 := by omega
  have hrest : m + 1 + k - (m + 1) = k := by omega
  unfold fix_down
  rw [hmore, hrest, List.range'_succ, List.foldr_cons]

/-- And may be cut at any layer. -/
theorem fix_down_split {m n : ℕ} (h : m ≤ n) (pkt : Packet) :
    fix_down R clipped 0 n pkt = fix_down R clipped 0 m (fix_down R clipped m n pkt) := by
  have hrange : List.range' 0 (n - 0) = List.range' 0 (m - 0) ++ List.range' m (n - m) := by
    have happend := List.range'_append_1 (s := 0) (m := m) (n := n - m)
    rw [Nat.zero_add, Nat.add_sub_cancel' h] at happend
    exact happend.symm
  unfold fix_down
  rw [hrange, List.foldr_append]

theorem fix_down_last (m : ℕ) (pkt : Packet) :
    fix_down R clipped 0 (m + 1) pkt = fix_down R clipped 0 m (fix_layer R clipped pkt m) := by
  rw [fix_down_split R clipped (Nat.le_succ m), fix_down_first R clipped (Nat.lt_succ_self m),
    fix_down_self]

variable {pkt : Packet}

/-- The turns for layers that start no earlier than `a` leave what is before it. -/
theorem fix_down_front (hin : ∀ s ∈ pkt.spans, s.Inside pkt.buf) {a m : ℕ} (n : ℕ)
    (ha : ∀ j s, m ≤ j → pkt.spans[j]? = some s → a ≤ s.off) :
    ∃ buf, fix_down R false m n pkt = { pkt with buf } ∧ buf.length = pkt.buf.length ∧
      ∀ k, k < a → buf[k]? = pkt.buf[k]? := by
  -- From the last layer down to `m`: a turn writes only inside its layer, behind `a`.
  obtain ⟨d, hd⟩ : ∃ d, d = n - m := ⟨_, rfl⟩
  induction d generalizing m with
  | zero =>
    have hrange : fix_down R false m n pkt = pkt := by
      unfold fix_down
      rw [← hd]
      rfl
    exact ⟨pkt.buf, hrange, rfl, fun _ _ => rfl⟩
  | succ d ih =>
    obtain ⟨buf, hrest, hlen, hframe⟩ := ih (m := m + 1) (fun j s hj => ha j s (by omega)) (by omega)
    rw [fix_down_first R false (by omega), hrest]
    cases hs : pkt.spans[m]? with
    | none => exact ⟨buf, fix_layer_of_none m R false hs, hlen, hframe⟩
    | some s =>
      -- the later layers' turns left this one inside the buffer
      have hinside : s.Inside buf := by
        have := hin s (List.mem_of_getElem? hs)
        unfold LayerSpan.Inside at this ⊢
        omega
      obtain ⟨buf', heq, htouch⟩ : Touches { pkt with buf } _ s (touched s) :=
        fix_layer_touches m R hs hinside
      refine ⟨buf', heq, htouch.length.trans hlen, ?_⟩
      intro k hk
      have hoff := ha m s le_rfl hs
      rw [htouch.frame k (.inl (by omega))]
      exact hframe k hk

/-- A layer whose turn writes no further than its header, or not at all. -/
def LayerSpan.Own (b : Bytes) (s : LayerSpan) : Prop :=
  (touched s).2 ≤ s.hlen ∨ s.proto = .Gre ∧ sum_present b s.off = false

/-- **The turns of the layers before one leave everything from where it starts.** -/
theorem fix_down_behind {m : ℕ} (hin : ∀ s ∈ pkt.spans, s.Inside pkt.buf)
    (hown : ∀ j s, j < m → pkt.spans[j]? = some s → s.Own (fix_down R false 0 m pkt).buf)
    (hchain : ∀ j s t, j < m → pkt.spans[j]? = some s → pkt.spans[j + 1]? = some t →
      s.off + s.hlen ≤ t.off)
    {t : LayerSpan} (ht : pkt.spans[m]? = some t) {n : ℕ} (hn : t.off ≤ n) :
    (fix_down R false 0 m pkt).buf[n]? = pkt.buf[n]? := by
  induction m generalizing pkt t n with
  | zero => rw [fix_down_self]
  | succ m ih =>
    obtain ⟨s, hs⟩ : ∃ s, pkt.spans[m]? = some s := by
      have hlt := (List.getElem?_eq_some_iff.1 ht).1
      exact ⟨_, List.getElem?_eq_getElem (by omega)⟩
    have hnext := hchain m s t (Nat.lt_succ_self m) hs ht
    rw [fix_down_last] at hown ⊢
    obtain ⟨buf, heq, htouch⟩ := fix_layer_touches m R hs (hin s (List.mem_of_getElem? hs))
    rw [heq] at hown ⊢
    have hbehind : ∀ k, s.off ≤ k → (fix_down R false 0 m { pkt with buf }).buf[k]? = buf[k]? := by
      intro k hk
      refine @ih { pkt with buf } ?_ ?_ ?_ s hs k hk
      · intro u hu
        have := hin u hu
        unfold LayerSpan.Inside at this ⊢
        rw [htouch.length]
        exact this
      · intro j u hj hu
        exact hown j u (by omega) hu
      · intro j u v hj hu hv
        exact hchain j u v (by omega) hu hv
    rw [hbehind n (by omega)]
    rcases hown m s (Nat.lt_succ_self m) hs with hfits | ⟨hproto, hsum⟩
    · exact htouch.frame n (.inr (by omega))
    · -- no turn writes a GRE header's first octet, so it said the same before
      have hfirst : buf[s.off]? = pkt.buf[s.off]? := by
        apply htouch.frame
        unfold touched
        rw [hproto]
        left
        dsimp only
        omega
      have hsame : sum_present pkt.buf s.off = false := by
        unfold sum_present at hsum ⊢
        rwa [hbehind s.off le_rfl, hfirst] at hsum
      have hbuf : { pkt with buf } = pkt := heq.symm.trans (fix_layer_of_no_sum m R hs hproto hsame)
      have hbuf' : buf = pkt.buf := congrArg Packet.buf hbuf
      rw [hbuf']

end Pass

end Wiry.Packet
