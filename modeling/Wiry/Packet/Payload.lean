/-
`Packet::set_payload` of `crates/wiry-core/src/packet.rs`: what follows a layer is replaced, and the
layers are read again over the new octets.

The octets are always the headers up to the layer's and the data. Which layers are then read off them is
the walk's to say: `kept_iff` says exactly when the old ones are, and `reads_again_of_own` that they are,
for any data, where each is told by its own header.
-/
import Wiry.Packet.Respan

set_option autoImplicit false

namespace Wiry.Packet

/-! ## Where the headers of a dissection end -/

section Ends

variable {T : Table} {buf : Bytes}

/-- A header ends no later than those behind it, and inside the frame. -/
theorem Dissection.ends_le (d : Dissection T buf) {j i : ℕ} (hji : j ≤ i) {t s : LayerSpan}
    (ht : d.spans[j]? = some t) (hs : d.spans[i]? = some s) :
    t.off + t.hlen ≤ s.off + s.hlen ∧ s.off + s.hlen ≤ buf.length := by
  have hbuf : ∀ u ∈ d.spans, u.off + u.hlen ≤ buf.length := fun u hu =>
    Nat.le_trans (Nat.add_le_add_left (d.hlen_le u hu) _) (d.in_buffer u hu)
  have hmem := List.mem_of_getElem? hs
  refine ⟨?_, hbuf s hmem⟩
  by_cases hlayer : i < d.layers.length
  · -- one layer starts where the one before it ends
    have hsorted : d.layers.Pairwise fun a b => a.off + a.hlen ≤ b.off + b.hlen := by
      have : IsTrans LayerSpan fun a b => a.off + a.hlen ≤ b.off + b.hlen :=
        ⟨fun _ _ _ => Nat.le_trans⟩
      refine List.isChain_iff_pairwise.1 (d.contiguous.imp ?_)
      intro a b hab
      rw [hab]
      exact Nat.le_add_right _ _
    rw [Dissection.spans, List.getElem?_append_left (by omega)] at ht
    rw [Dissection.spans, List.getElem?_append_left hlayer] at hs
    obtain ⟨hj, rfl⟩ := List.getElem?_eq_some_iff.1 ht
    obtain ⟨hi, rfl⟩ := List.getElem?_eq_some_iff.1 hs
    rcases Nat.lt_or_eq_of_le hji with hlt | rfl
    · exact List.pairwise_iff_getElem.1 hsorted j i hj hi hlt
    · exact le_rfl
  · -- the trailer runs to the end of the frame
    rw [Dissection.spans, List.getElem?_append_right (by omega)] at hs
    have htrailer := List.mem_of_getElem? hs
    rw [d.trailer_eq] at htrailer
    split at htrailer
    · rw [List.mem_singleton.1 htrailer]
      have := hbuf t (List.mem_of_getElem? ht)
      dsimp only
      omega
    · exact absurd htrailer (List.not_mem_nil (a := s))

/-- The header of a span that ends before the cut is what it was. -/
theorem LayerSpan.header_cut {s s' : LayerSpan} (hplace : s'.place = s.place) {cut : ℕ}
    (hend : s.off + s.hlen ≤ cut) (hcut : cut ≤ buf.length) (data : Bytes) :
    s'.header (buf.take cut ++ data) = s.header buf := by
  obtain ⟨_, off, hlen, total⟩ := s'
  obtain ⟨rfl, rfl, rfl⟩ : _ ∧ off = s.off ∧ hlen = s.hlen := by
    simpa [LayerSpan.place] using hplace
  have htake : (buf.take cut).length = cut := List.length_take_of_le hcut
  unfold LayerSpan.header LayerSpan.hdr_range slice
  dsimp only
  rw [List.length_append, htake, Nat.min_eq_left (show s.off ≤ cut + data.length by omega),
    Nat.min_eq_left (show s.off + s.hlen ≤ cut + data.length by omega),
    Nat.min_eq_left (show s.off ≤ buf.length by omega),
    Nat.min_eq_left (show s.off + s.hlen ≤ buf.length by omega),
    List.take_append_of_le_length (by omega), List.take_take, Nat.min_eq_left hend]

end Ends

/-! ## Replacing what follows a layer -/

section Payload

variable (R : Registry)

/-- `payload`: everything behind the layer's header. -/
def payload (pkt : Packet) (layer : ℕ) : Bytes :=
  match pkt.spans[layer]? with
  | some s => pkt.buf.drop (min (s.off + s.hlen) pkt.buf.length)
  | none => []

/-- The octets up to the end of a layer's header, and `data` behind them. -/
def carrying (pkt : Packet) (layer : ℕ) (data : Bytes) : Bytes :=
  match pkt.spans[layer]? with
  | some s => pkt.buf.take (s.off + s.hlen) ++ data
  | none => pkt.buf

/-- Layer `j` is what its turn of the walk reads over `buf`, the layers before it being those of the
packet: the layer before it names its class there, and its header has room and the same length. -/
def ReadsAgain (pkt : Packet) (buf : Bytes) (j : ℕ) : Prop :=
  again R.layers.table buf MAX_LAYERS none
      (outermost buf ((pkt.spans.head?.map LayerSpan.proto).getD .Raw)) 0
      (pkt.spans.map LayerSpan.place) j =
    (pkt.spans.map LayerSpan.place)[j]?

instance (pkt : Packet) (buf : Bytes) (j : ℕ) : Decidable (ReadsAgain R pkt buf j) :=
  inferInstanceAs (Decidable (_ = _))

/-- Layers `0` to `i` of `pkt'` are those of `pkt`, and `data` is all that follows them. -/
structure Kept (pkt pkt' : Packet) (i : ℕ) (data : Bytes) : Prop where
  spans : ∀ j ≤ i, pkt'.spans[j]?.map LayerSpan.place = pkt.spans[j]?.map LayerSpan.place
  headers : ∀ j ≤ i, pkt'.header j = pkt.header j
  payload : payload pkt' i = data

/-- The octets `set_payload` leaves, and the layers it reads off them. -/
theorem set_payload_eq (pkt : Packet) {i : ℕ} (hi : i < pkt.spans.length) (data : Bytes) :
    ∃ pkt', set_payload R pkt i data = some pkt' ∧ pkt'.buf = carrying pkt i data ∧
      pkt'.spans = (walk R.layers.table (carrying pkt i data) false MAX_LAYERS 0
        (carrying pkt i data).length
        (outermost (carrying pkt i data) ((pkt.spans.head?.map LayerSpan.proto).getD .Raw)) none).1 := by
  have hs := List.getElem?_eq_getElem hi
  unfold set_payload carrying
  rw [hs]
  refine ⟨_, rfl, rfl, ?_⟩
  dsimp only
  unfold spans_of
  dsimp only
  rw [walk_unbounded_end, if_neg (Nat.lt_irrefl _)]

/-- **The layers up to the one written behind are kept exactly when each reads again there.** -/
theorem kept_iff (buf : Bytes) (link : ProtoId) {i : ℕ} (hi : i < (dissect R buf link).spans.length)
    (data : Bytes) :
    ∃ pkt', set_payload R (dissect R buf link) i data = some pkt' ∧
      pkt'.buf = carrying (dissect R buf link) i data ∧
      (Kept (dissect R buf link) pkt' i data ↔
        ∀ j ≤ i, ReadsAgain R (dissect R buf link) (carrying (dissect R buf link) i data) j) := by
  obtain ⟨d, hd, -⟩ := dissection_well_formed R.layers.table buf link
  rw [spans_of_checked_eq] at hd
  have hspans : (dissect R buf link).spans = d.spans := Option.some.inj hd
  obtain ⟨pkt', hset, hbuf, hlayers⟩ := set_payload_eq R (dissect R buf link) hi data
  refine ⟨pkt', hset, hbuf, ?_⟩
  -- the spans alone decide: what is kept of them says where the headers are
  have hiff : Kept (dissect R buf link) pkt' i data ↔
      ∀ j ≤ i, (pkt'.spans.map LayerSpan.place)[j]? =
        ((dissect R buf link).spans.map LayerSpan.place)[j]? := by
    constructor
    · intro h j hj
      rw [List.getElem?_map, List.getElem?_map]
      exact h.spans j hj
    · intro h
      have hplaces : ∀ j ≤ i, pkt'.spans[j]?.map LayerSpan.place =
          (dissect R buf link).spans[j]?.map LayerSpan.place := by
        intro j hj
        have := h j hj
        rwa [List.getElem?_map, List.getElem?_map] at this
      have hs := List.getElem?_eq_getElem hi
      generalize (dissect R buf link).spans[i] = s at hs
      have hcarried : pkt'.buf = buf.take (s.off + s.hlen) ++ data := by
        rw [hbuf, carrying, hs]
        rfl
      have hcut : s.off + s.hlen ≤ buf.length := (d.ends_le le_rfl (hspans ▸ hs) (hspans ▸ hs)).2
      refine ⟨hplaces, fun j hj => ?_, ?_⟩
      · have hj' : j < (dissect R buf link).spans.length := by omega
        have ht := List.getElem?_eq_getElem hj'
        generalize (dissect R buf link).spans[j] = t at ht
        obtain ⟨t', ht', hplace⟩ : ∃ t', pkt'.spans[j]? = some t' ∧ t'.place = t.place := by
          have := hplaces j hj
          rw [ht] at this
          exact Option.map_eq_some_iff.1 this
        unfold header
        rw [ht, ht', hcarried]
        exact LayerSpan.header_cut hplace (d.ends_le hj (hspans ▸ ht) (hspans ▸ hs)).1 hcut data
      · -- the payload starts where the last kept header ends, and that is where `data` was put
        obtain ⟨s', hs', hplace⟩ : ∃ s', pkt'.spans[i]? = some s' ∧ s'.place = s.place := by
          have := hplaces i le_rfl
          rw [hs] at this
          exact Option.map_eq_some_iff.1 this
        have hend : s'.off + s'.hlen = s.off + s.hlen := by
          rw [show s'.off = s.off from congrArg (·.2.1) hplace,
            show s'.hlen = s.hlen from congrArg (·.2.2) hplace]
        unfold payload
        rw [hs', hcarried]
        dsimp only
        rw [hend, Nat.min_eq_left (by rw [List.length_append, List.length_take]; omega),
          List.drop_left' (List.length_take_of_le hcut)]
  rw [hiff, hlayers]
  exact walk_keeps_iff R.layers.table _ MAX_LAYERS 0 _ none _ i

/-- The layers up to `i` are told by their own headers: of classes that read no further, each before the
last naming by its header what follows it, and the last one whole. -/
structure OwnHeaders (pkt : Packet) (i : ℕ) : Prop where
  header : ∀ j ≤ i, ∀ t ∈ pkt.spans[j]?, OwnHeader R.layers.table t.proto
  next : ∀ j < i, ∀ t ∈ pkt.spans[j]?, OwnNext R.layers.table t.proto
    (t.view R.layers.table pkt.buf (parent_at none (pkt.spans.map LayerSpan.place) j))
  whole : ∀ s ∈ pkt.spans[i]?, Whole R.layers.table pkt.buf
    (parent_at none (pkt.spans.map LayerSpan.place) i) s

/-- The version nibble is in the octets that are kept. -/
theorem outermost_take {buf : Bytes} {cut : ℕ} (hcut : 0 < cut) (hle : cut ≤ buf.length) (data : Bytes)
    (link : ProtoId) : outermost (buf.take cut ++ data) (outermost buf link) = outermost buf link := by
  have hhead : (buf.take cut ++ data).head? = buf.head? := by
    cases buf with
    | nil => exact absurd hle (by simp only [List.length_nil]; omega)
    | cons b buf =>
      obtain ⟨k, rfl⟩ : ∃ k, cut = k + 1 := ⟨cut - 1, by omega⟩
      rfl
  unfold outermost
  rw [hhead]
  by_cases hsix : link = .Ipv4 ∧ buf.head?.any (fun b : UInt8 => b >>> 4 == 6) = true
  · rw [if_pos hsix, if_neg fun h => absurd h.1 (by decide)]
  · rw [if_neg hsix, if_neg hsix]

/-- Up to a layer with a header of its own a dissection is its walk: `Padding` has none. -/
theorem OwnHeader.spans_of {T : Table} {buf : Bytes} {link : ProtoId} {i : ℕ} {s : LayerSpan}
    (h : OwnHeader T s.proto) (hpad : (T.desc .Padding).min_len = 0)
    (hs : (Packet.spans_of T buf link true)[i]? = some s) :
    ∀ j ≤ i, (Packet.spans_of T buf link true)[j]? =
      (walk T buf true MAX_LAYERS 0 buf.length (outermost buf link) none).1[j]? := by
  intro j hj
  unfold Packet.spans_of at hs ⊢
  dsimp only at hs ⊢
  split at hs
  · rename_i htrailer
    rw [if_pos htrailer]
    refine List.getElem?_append_left ?_
    by_contra hout
    rw [List.getElem?_append_right (by omega)] at hs
    have hsome := h.some_octet
    rw [List.mem_singleton.1 (List.mem_of_getElem? hs), hpad] at hsome
    exact absurd hsome (Nat.lt_irrefl 0)
  · rename_i htrailer
    rw [if_neg htrailer]

/-- **Layers told by their own headers read again, whatever is put behind them.** -/
theorem reads_again_of_own (buf : Bytes) (link : ProtoId) {i : ℕ}
    (hi : i < (dissect R buf link).spans.length) (hown : OwnHeaders R (dissect R buf link) i) (data : Bytes) :
    ∀ j ≤ i, ReadsAgain R (dissect R buf link) (carrying (dissect R buf link) i data) j := by
  have hspans : (dissect R buf link).spans = spans_of R.layers.table buf link true := rfl
  have hs := List.getElem?_eq_getElem hi
  generalize (dissect R buf link).spans[i] = s at hs
  obtain ⟨hheader, hnext, hwhole⟩ := hown
  have hbuf : (dissect R buf link).buf = buf := rfl
  have hraw : (R.layers.table.desc .Raw).min_len = 0 := rfl
  have hcarry : carrying (dissect R buf link) i data = buf.take (s.off + s.hlen) ++ data := by
    rw [carrying, hs]
    rfl
  have hwalk : ∀ j ≤ i, (dissect R buf link).spans[j]? = (walk R.layers.table buf true MAX_LAYERS 0 buf.length
      (outermost buf link) none).1[j]? := (hheader i le_rfl s hs).spans_of rfl hs
  generalize hw : (walk R.layers.table buf true MAX_LAYERS 0 buf.length (outermost buf link) none).1 = layers at hwalk
  have hplaces : ∀ j ≤ i, ((dissect R buf link).spans.map LayerSpan.place)[j]? = (layers.map LayerSpan.place)[j]? := by
    intro j hj
    rw [List.getElem?_map, List.getElem?_map, hwalk j hj]
  have hparent : ∀ j ≤ i, parent_at none ((dissect R buf link).spans.map LayerSpan.place) j =
      parent_at none (layers.map LayerSpan.place) j := by
    intro j hj
    cases j with
    | zero => rfl
    | succ k => exact congrArg (Option.map Prod.fst) (hplaces k (by omega))
  have hlayer : layers[i]? = some s := (hwalk i le_rfl).symm.trans hs
  have hwhole' := hwhole s hs
  rw [hbuf, hparent i le_rfl] at hwhole'
  have hkept := @walk_keeps_own R.layers.table buf hraw data i s MAX_LAYERS 0 buf.length (outermost buf link)
    none (Nat.zero_le _) le_rfl (by rw [hw]; exact hlayer)
    (by
      rw [hw]
      exact fun j hj t ht => hheader j hj t ((hwalk j hj).trans ht))
    (by
      rw [hw]
      intro j hj t ht
      have hnamed := hnext j hj t ((hwalk j hj.le).trans ht)
      rwa [hbuf, hparent j hj.le] at hnamed)
    (by
      rw [hw]
      exact hwhole')
  rw [hw] at hkept
  -- what is asked for first is the outermost class again
  have hfit := (walk_fits R.layers.table hraw buf true MAX_LAYERS 0 buf.length (outermost buf link) none
    (Nat.zero_le _)).1 s (by rw [hw]; exact List.mem_of_getElem? hlayer)
  have hcut : s.off + s.hlen ≤ buf.length := by
    have hend := hfit.le_end
    have hle := hfit.hlen_le
    omega
  have hsome : 0 < s.off + s.hlen := by
    have hlong := hwhole'.some_octet (hheader i le_rfl s hs)
    omega
  have hfirst : ((dissect R buf link).spans.head?.map LayerSpan.proto).getD .Raw = outermost buf link := by
    have hlen := (List.getElem?_eq_some_iff.1 hlayer).1
    have ht : layers[0]? = some layers[0] := List.getElem?_eq_getElem (by omega)
    have hspan := (hwalk 0 (Nat.zero_le i)).trans ht
    have hclass := (hheader 0 (Nat.zero_le i) _ hspan).first_class hraw (by
      rw [show (31 : ℕ) + 1 = MAX_LAYERS from rfl, hw]
      exact ht)
    rw [List.head?_eq_getElem?, hspan]
    exact hclass.symm
  have hagain := (walk_keeps_iff R.layers.table (buf.take (s.off + s.hlen) ++ data) MAX_LAYERS 0
    (outermost buf link) none (layers.map LayerSpan.place) i).1 hkept
  intro j hj
  unfold ReadsAgain
  rw [hcarry, hfirst, outermost_take hsome hcut, hplaces j hj, ← hagain j hj]
  exact again_congr _ _ _ _ _ _ fun k hk => hplaces k (by omega)

/-- **`set_payload` replaces only what follows the layer.** The octets it leaves are always the headers
up to the layer's and `data`; the layers up to it are kept exactly when each reads again over these; and
they do, whatever `data` is, where each is told by its own header. -/
theorem set_payload_keeps (buf : Bytes) (link : ProtoId) {i : ℕ}
    (hi : i < (dissect R buf link).spans.length) (data : Bytes) :
    ∃ pkt', set_payload R (dissect R buf link) i data = some pkt' ∧
      pkt'.buf = carrying (dissect R buf link) i data ∧
      (Kept (dissect R buf link) pkt' i data ↔
        ∀ j ≤ i, ReadsAgain R (dissect R buf link) (carrying (dissect R buf link) i data) j) ∧
      (OwnHeaders R (dissect R buf link) i → Kept (dissect R buf link) pkt' i data) := by
  obtain ⟨pkt', hset, hbuf, hkept⟩ := kept_iff R buf link hi data
  exact ⟨pkt', hset, hbuf, hkept, fun hown => hkept.2 (reads_again_of_own R buf link hi hown data)⟩

end Payload

/-- Ethernet, IPv4, IPv6 and TCP, every other layer `Raw`. -/
def Registry.plain : Registry where
  other _ := raw_full_desc "Raw"
  resolve n _ := .other n
  binds := []
  by_layer _ _ := none
  by_ethertype _ := none
  by_ethertype_of _ := none
  by_ipproto _ := none
  by_ipproto_of _ := none
  by_icmpv6_type _ := none
  by_icmpv6_type_of _ := none
  by_udp_port _ _ _ := none
  by_udp_port_of _ := none
  by_tcp_port _ _ _ := none
  by_tcp_port_of _ := none
  base_of _ := none
  bind_layer _ := ⟨fun hdr _ => hdr, fun _ _ => rfl⟩
  bind_layer_core _ _ _ _ := rfl

/-- A segment of two octets. -/
def two_octets : Bytes :=
  tcp_frame [10, 0, 0, 1] [10, 0, 0, 2] 1024 80 7 0x18 [104, 105]

/-- The headers of the segment are told by themselves. -/
theorem two_octets_own : OwnHeaders .plain (dissect .plain two_octets .Ether) 2 := by
  have hspans : (dissect .plain two_octets .Ether).spans =
      [⟨.Ether, 0, 14, 56⟩, ⟨.Ipv4, 14, 20, 42⟩, ⟨.Tcp, 34, 20, 22⟩, ⟨.Raw, 54, 2, 2⟩] := by decide +kernel
  -- the plain table resolves every variant to a layer of its own
  have hvariant : ∀ n b, ∃ m, Registry.plain.resolve n b = .other m := fun n _ => ⟨n, rfl⟩
  -- Each header up to the one named is of a layer that measures itself, and names what follows by
  -- itself.
  constructor
  · intro j hj t ht
    rw [hspans] at ht
    interval_cases j
    · obtain rfl := Option.some.inj ht
      exact own_header_ether .plain hvariant
    · obtain rfl := Option.some.inj ht
      exact own_header_ipv4 .plain hvariant
    · obtain rfl := Option.some.inj ht
      exact own_header_tcp .plain hvariant
  · intro j hj t ht
    rw [hspans] at ht
    interval_cases j
    · obtain rfl := Option.some.inj ht
      exact own_next_ether .plain (fun _ => rfl) _
    · obtain rfl := Option.some.inj ht
      exact own_next_ipv4 .plain (fun _ => rfl) _
  · intro s hs
    rw [hspans] at hs ⊢
    obtain rfl := Option.some.inj hs
    decide +kernel

/-- Behind the TCP header of a segment three octets take the place of two. -/
theorem set_payload_behind_tcp :
    ∃ pkt', set_payload .plain (dissect .plain two_octets .Ether) 2 [1, 2, 3] = some pkt' ∧
      pkt'.buf = carrying (dissect .plain two_octets .Ether) 2 [1, 2, 3] ∧
      Kept (dissect .plain two_octets .Ether) pkt' 2 [1, 2, 3] := by
  obtain ⟨pkt', hset, hbuf, -, hkept⟩ := set_payload_keeps .plain two_octets .Ether
    (show 2 < (dissect .plain two_octets .Ether).spans.length by decide +kernel) [1, 2, 3]
  exact ⟨pkt', hset, hbuf, hkept two_octets_own⟩

/-- **A layer that owns the rest of the frame owns what is put behind it**: `Raw` grows, and nothing
follows it. -/
theorem set_payload_behind_raw :
    (dissect .plain two_octets .Ether).spans.map LayerSpan.place =
        [(.Ether, 0, 14), (.Ipv4, 14, 20), (.Tcp, 34, 20), (.Raw, 54, 2)] ∧
      (set_payload .plain (dissect .plain two_octets .Ether) 3 [1]).map (fun q =>
          (q.spans.map LayerSpan.place, payload q 3)) =
        some ([(.Ether, 0, 14), (.Ipv4, 14, 20), (.Tcp, 34, 20), (.Raw, 54, 3)], []) ∧
      ¬ ∀ (R : Registry) (buf : Bytes) (link : ProtoId) (i : ℕ) (data : Bytes),
        i < (dissect R buf link).spans.length →
        ∃ pkt', set_payload R (dissect R buf link) i data = some pkt' ∧
          Kept (dissect R buf link) pkt' i data := by
  refine ⟨by decide +kernel, by decide +kernel, ?_⟩
  intro hall
  obtain ⟨pkt', hset, hkept⟩ := hall .plain two_octets .Ether 3 [1] (by decide +kernel)
  have hgrown : (set_payload .plain (dissect .plain two_octets .Ether) 3 [1]).map
      (fun q => payload q 3) = some [] := by decide +kernel
  rw [hset, Option.map_some, hkept.payload] at hgrown
  exact absurd hgrown (by decide)

end Wiry.Packet
