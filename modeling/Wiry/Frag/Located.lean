/-
The dissector finds the IP layer of a fragment where it found the datagram's:
for raw IP captures and for Ethernet, whatever the layers further in are.

For Ethernet this asks that nothing is bound to the type by hand, and for raw
captures that the version nibble is the one the link was chosen by; both are
kept by every fragment, since no fragment changes an octet in front of the IP
header.
-/
import Wiry.Frag.SplitV4
import Wiry.Frag.SplitV6
import Wiry.Lib.Bits

set_option autoImplicit false

namespace Wiry.Frag

open Wiry.Packet

/-! ## The first layers of a frame -/

/-- A turn with room for its layer pushes it. -/
theorem walk_first (T : Table) (buf : Bytes) (n off end_ : ℕ) {proto : ProtoId}
    {parent : Option ProtoId} (hclass : ∀ b, T.resolve proto b = proto)
    (hframing : parent.elim 0 (fun p => T.framing p proto) = 0)
    (hlong : (T.desc proto).min_len ≤ end_ - off) :
    ∃ hlen rest stop, walk T buf true (n + 1) off end_ proto parent =
      (⟨proto, off, hlen, end_ - off⟩ :: rest, stop) := by
  have hroom : ¬ end_ - off < (T.desc proto).min_len + 0 := by omega
  rw [walk]
  unfold class_of
  dsimp only
  rw [if_pos rfl, hclass, hframing, if_neg hroom]
  exact ⟨_, _, _, rfl⟩

/-- A turn whose layer has a fixed header and claims no length goes on to the layer it names. -/
theorem walk_through (T : Table) (buf : Bytes) (n off end_ : ℕ) {proto p : ProtoId}
    {parent : Option ProtoId} (hclass : ∀ b, T.resolve proto b = proto)
    (hframing : parent.elim 0 (fun p => T.framing p proto) = 0)
    (hheader : ∀ hdr, (T.desc proto).header_len hdr = (T.desc proto).min_len)
    (hclaim : (T.desc proto).content_len = none)
    (hlong : (T.desc proto).min_len < end_ - off)
    (hnext : next_of T proto (slice buf off end_) = .Proto p) :
    walk T buf true (n + 1) off end_ proto parent =
      (⟨proto, off, (T.desc proto).min_len, end_ - off⟩ ::
          (walk T buf true n (off + (T.desc proto).min_len) end_ p (some proto)).1,
        (walk T buf true n (off + (T.desc proto).min_len) end_ p (some proto)).2) := by
  -- The header is read at its least length and nothing claims a shorter end.
  have hroom : ¬ end_ - off < (T.desc proto).min_len + 0 := by omega
  have hlen : min (0 + max (T.desc proto).min_len (T.desc proto).min_len) (end_ - off) =
      (T.desc proto).min_len := by omega
  have hstop : ∀ hdr pre hlen, tightened true (T.desc proto) hdr pre off hlen end_ = end_ := by
    intro hdr pre hlen
    unfold tightened
    rw [hclaim]
  rw [walk]
  unfold class_of
  dsimp only
  rw [if_pos rfl, hclass, hframing, if_neg hroom, hheader, hlen, hstop, Nat.add_zero, hnext,
    if_pos (by omega)]

/-- The spans start with what the walk pushes. -/
theorem spans_of_cons {T : Table} {buf : Bytes} {link : ProtoId} {s : LayerSpan}
    {rest : List LayerSpan} {stop : ℕ}
    (h : walk T buf true MAX_LAYERS 0 buf.length (outermost buf link) none = (s :: rest, stop)) :
    ∃ rest', spans_of T buf link true = s :: (rest ++ rest') := by
  unfold spans_of
  rw [h]
  dsimp only
  split
  · exact ⟨_, rfl⟩
  · exact ⟨[], by rw [List.append_nil]⟩

/-- A raw capture's datagram is the frame itself. -/
theorem ip_layer_raw (L : Layers) {buf : Bytes} {link p : ProtoId} (hp : p = .Ipv4 ∨ p = .Ipv6)
    (hlink : outermost buf link = p) (hlong : (desc L p).min_len ≤ buf.length) :
    ip_layer L buf link = some (p, 0) := by
  have hclass : ∀ b, L.table.resolve p b = p := by
    rcases hp with rfl | rfl
    · exact fun _ => rfl
    · exact fun _ => rfl
  obtain ⟨hlen, rest, stop, hwalk⟩ :=
    walk_first L.table buf 31 0 buf.length hclass (show (none : Option ProtoId).elim 0 _ = 0 from rfl)
      hlong
  rw [← hlink] at hwalk
  obtain ⟨rest', hspans⟩ := spans_of_cons hwalk
  unfold ip_layer dissect_spans
  rw [hspans, List.find?_cons_of_pos]
  · rw [hlink]
    rfl
  · rw [hlink]
    exact decide_eq_true hp

/-- The layer an EtherType names starts behind the Ethernet header, where no binding says otherwise. -/
theorem ip_layer_ether (L : Layers) (hbound : ∀ hdr, L.bound_next .Ether hdr = none) {buf : Bytes}
    {p : ProtoId} (hp : p = .Ipv4 ∧ be16 buf 12 = 0x0800 ∨ p = .Ipv6 ∧ be16 buf 12 = 0x86DD)
    (hlong : 14 + (desc L p).min_len ≤ buf.length) (hpos : 0 < (desc L p).min_len) :
    ip_layer L buf .Ether = some (p, 14) := by
  -- Of the two protocols only their next-header rule and their least length matter.
  have hip : p = .Ipv4 ∨ p = .Ipv6 := hp.imp And.left And.left
  have hclass : ∀ b, L.table.resolve p b = p := by
    rcases hip with rfl | rfl
    · exact fun _ => rfl
    · exact fun _ => rfl
  have hframing : (some ProtoId.Ether).elim 0 (fun q => L.table.framing q p) = 0 := by
    rcases hip with rfl | rfl
    · rfl
    · rfl
  have hslice : slice buf 0 buf.length = buf := by
    rw [slice, List.take_length]
    rfl
  -- The Ethernet type names the IP layer, and nothing bound comes before it.
  have hnext : next_of L.table .Ether (slice buf 0 buf.length) = .Proto p := by
    rw [hslice]
    have hguess : (L.table.desc .Ether).next buf = .Proto p := by
      show (ether_desc L).next buf = .Proto p
      unfold ether_desc
      dsimp only
      rw [if_neg (by omega)]
      rcases hp with ⟨rfl, htype⟩ | ⟨rfl, htype⟩
      · rw [htype]
        rfl
      · rw [htype]
        rfl
    unfold next_of
    rw [show L.table.bound_next .Ether buf = none from hbound buf, hguess]
  obtain ⟨hlen, rest, stop, hinner⟩ := walk_first L.table buf 30 14
    buf.length hclass hframing (show (desc L p).min_len ≤ buf.length - 14 by omega)
  -- So the walk passes through the Ethernet header and meets the IP layer behind it.
  have hwalk : walk L.table buf true MAX_LAYERS 0 buf.length (outermost buf .Ether) none =
      (⟨.Ether, 0, 14, buf.length⟩ :: ⟨p, 14, hlen, buf.length - 14⟩ :: rest, stop) := by
    have hether := walk_through L.table buf 31 0 buf.length
      (show ∀ b, L.table.resolve .Ether b = .Ether from fun _ => rfl)
      (show (none : Option ProtoId).elim 0 _ = 0 from rfl) (fun _ => rfl) rfl
      (show 14 < buf.length - 0 by omega) hnext
    have hmin : (L.table.desc .Ether).min_len = 14 := rfl
    rw [hmin, hinner] at hether
    exact hether
  obtain ⟨rest', hspans⟩ := spans_of_cons hwalk
  unfold ip_layer dissect_spans
  rw [hspans, List.find?_cons_of_neg (by simp), List.cons_append, List.find?_cons_of_pos]
  · rfl
  · exact decide_eq_true hip

/-! ## The fragments of a frame -/

/-- The version is read off the high half of the first octet, and a fragment keeps it. -/
theorem version_kept (b : UInt8) {n : ℕ} (hn : n ≤ 15) :
    (b &&& 0xf0 ||| UInt8.ofNat n) >>> 4 = b >>> 4 := by
  have hlow : UInt8.ofNat n >>> 4 = 0 := by
    apply UInt8.toNat_inj.1
    rw [UInt8.toNat_shiftRight, UInt8.toNat_ofNat']
    show (n % 2 ^ 8) >>> 4 = 0
    rw [Nat.shiftRight_eq_div_pow]
    omega
  have hhigh : (b &&& 0xf0) >>> 4 = b >>> 4 := by
    revert b
    apply Bits.forall_octet
    decide +kernel
  have hor : (b &&& 0xf0 ||| UInt8.ofNat n) >>> 4 = (b &&& 0xf0) >>> 4 ||| UInt8.ofNat n >>> 4 :=
    UInt8.toBitVec_inj.1 (BitVec.ushiftRight_or_distrib _ _ _)
  rw [hor, hlow, hhigh, UInt8.or_zero]

section Fragments

variable {buf : Bytes} {off : ℕ}

theorem length_frame_v4 {s : Split4} (h : Splits4 buf off s) (c : ℕ × ℕ) :
    off + 20 ≤ (frame_v4 buf off s c.1 c.2).length := by
  have hheader := h.length_header c.1 c.2
  rw [frame_v4, List.length_append]
  omega

theorem frame_v4_getElem? {s : Split4} (h : Splits4 buf off s) (c : ℕ × ℕ) {j : ℕ} (hj : j < off) :
    (frame_v4 buf off s c.1 c.2)[j]? = buf[j]? := by
  have hheader := h.length_header c.1 c.2
  rw [frame_v4, List.getElem?_append_left (by omega), h.header_getElem? (.inl hj)]

/-- Or as an IPv6 header. -/
theorem length_frame_v6 {s : Split6} (h : Splits6 buf off s) (c : ℕ × ℕ) :
    off + 40 ≤ (frame_v6 buf off s c.1 c.2).length := by
  have hbase := h.length_base c.2
  obtain ⟨-, hmin, -, -, -, -⟩ := h.positions
  rw [frame_v6, h.header_eq, List.length_append, List.length_append]
  omega

theorem frame_v6_getElem? {s : Split6} (h : Splits6 buf off s) (c : ℕ × ℕ) {j : ℕ}
    (hj : j < off + 4) : (frame_v6 buf off s c.1 c.2)[j]? = buf[j]? := by
  have hbase := h.length_base c.2
  obtain ⟨hlow, hmin, -, -, -, -⟩ := h.positions
  rw [frame_v6, h.header_eq, List.append_assoc, List.getElem?_append_left (by omega)]
  exact h.base_getElem? (by omega) (by omega) (by omega)

end Fragments

/-- The fragments of an Ethernet frame are located where it is. -/
theorem fragment_located_ether (L : Layers) (hbound : ∀ hdr, L.bound_next .Ether hdr = none)
    {buf : Bytes} {p : ProtoId}
    (hp : p = .Ipv4 ∧ be16 buf 12 = 0x0800 ∨ p = .Ipv6 ∧ be16 buf 12 = 0x86DD)
    (hlong : 14 + (desc L p).min_len ≤ buf.length) (fragsize : ℕ) :
    ∀ f ∈ fragment L buf .Ether fragsize, ip_layer L f .Ether = some (p, 14) := by
  have hpos : 0 < (desc L p).min_len := by
    rcases hp with ⟨rfl, -⟩ | ⟨rfl, -⟩
    · exact (by decide : 0 < 20)
    · exact (by decide : 0 < 40)
  have hbuf := ip_layer_ether L hbound hp hlong hpos
  -- Each fragment keeps the octets in front of the IP header, and its own header is long enough.
  rcases hp with ⟨rfl, htype⟩ | ⟨rfl, htype⟩
  · rw [fragment_eq_v4 hbuf]
    rcases fragment_v4_cases buf 14 fragsize with hwhole | ⟨s, hs, hcuts⟩
    · rw [hwhole]
      rintro f hf
      rwa [List.mem_singleton.1 hf]
    · rw [hcuts]
      rintro f hf
      obtain ⟨c, -, rfl⟩ := List.mem_map.1 hf
      apply ip_layer_ether L hbound (.inl ⟨rfl, ?_⟩) (length_frame_v4 hs c) hpos
      rw [← htype]
      apply be16_congr
      intro n hn
      exact frame_v4_getElem? hs c (by omega)
  · rw [fragment_eq_v6 hbuf]
    rcases fragment_v6_cases buf 14 fragsize with hwhole | ⟨s, hs, hcuts⟩
    · rw [hwhole]
      rintro f hf
      rwa [List.mem_singleton.1 hf]
    · rw [hcuts]
      rintro f hf
      obtain ⟨c, -, rfl⟩ := List.mem_map.1 hf
      apply ip_layer_ether L hbound (.inr ⟨rfl, ?_⟩) (length_frame_v6 hs c) hpos
      rw [← htype]
      apply be16_congr
      intro n hn
      exact frame_v6_getElem? hs c (by omega)

/-- The fragments of a raw capture's datagram are located where it is. -/
theorem fragment_located_raw (L : Layers) {buf : Bytes} {link p : ProtoId}
    (hp : p = .Ipv4 ∨ p = .Ipv6) (hlink : outermost buf link = p)
    (hlong : (desc L p).min_len ≤ buf.length) (fragsize : ℕ) :
    ∀ f ∈ fragment L buf link fragsize, ip_layer L f link = some (p, 0) := by
  have hbuf := ip_layer_raw L hp hlink hlong
  -- On a raw link the version nibble decides, and every fragment keeps it.
  have hfirst : ∀ f : Bytes, f ≠ [] → buf ≠ [] →
      (f.getD 0 0) >>> 4 = (buf.getD 0 0) >>> 4 → outermost f link = p := by
    intro f hf hne heq
    rw [← hlink]
    unfold outermost
    match f, buf with
    | [], _ => exact absurd rfl hf
    | _, [] => exact absurd rfl hne
    | a :: f, b :: buf =>
      have heq' : a >>> 4 = b >>> 4 := heq
      simp [heq']
  have hne : buf ≠ [] := by
    rintro rfl
    rcases hp with rfl | rfl
    · exact absurd hlong (by decide : ¬ 20 ≤ 0)
    · exact absurd hlong (by decide : ¬ 40 ≤ 0)
  rcases hp with rfl | rfl
  · rw [fragment_eq_v4 hbuf]
    rcases fragment_v4_cases buf 0 fragsize with hwhole | ⟨s, hs, hcuts⟩
    · rw [hwhole]
      rintro f hf
      rwa [List.mem_singleton.1 hf]
    · rw [hcuts]
      rintro f hf
      obtain ⟨c, -, rfl⟩ := List.mem_map.1 hf
      have hlen := length_frame_v4 hs c
      have hheader := hs.length_header c.1 c.2
      obtain ⟨-, htail⟩ := hs.tail_bounds c.1
      obtain ⟨-, hmax, -, -⟩ := hs.ihl_bounds
      apply ip_layer_raw L (.inl rfl) _ (show 20 ≤ _ by omega)
      apply hfirst _ (List.ne_nil_of_length_pos (by omega)) hne
      rw [frame_v4, getD_append_left _ (by omega), hs.header_first, version_kept _ (by omega)]
  · rw [fragment_eq_v6 hbuf]
    rcases fragment_v6_cases buf 0 fragsize with hwhole | ⟨s, hs, hcuts⟩
    · rw [hwhole]
      rintro f hf
      rwa [List.mem_singleton.1 hf]
    · rw [hcuts]
      rintro f hf
      obtain ⟨c, -, rfl⟩ := List.mem_map.1 hf
      have hlen := length_frame_v6 hs c
      apply ip_layer_raw L (.inr rfl) _ (show 40 ≤ _ by omega)
      apply hfirst _ (List.ne_nil_of_length_pos (by omega)) hne
      rw [List.getD_eq_getElem?_getD, List.getD_eq_getElem?_getD,
        frame_v6_getElem? hs c (by omega)]

end Wiry.Frag
