/-
What a fresh dissection makes of a layer whose region was written: `set_hlen` of
`crates/wiry-core/src/layers/ipv4.rs` and `tcp.rs`, the unit counts of `compute.rs`, and the header
lengths that are read off them again.

What recomputation leaves of a layer comes from `Reach`: each fixer stays
inside a few octets of its own layer. So the octet that counts the header's
length is the hook's or the fixer's own, and read again it gives the length
that was written (`Rewritten.refound`, by the protocol).
-/
import Mathlib.Tactic.IntervalCases
import Wiry.Packet.Region

set_option autoImplicit false

namespace Wiry.Packet

variable (R : Registry)

/-! ## What recomputation leaves of a layer -/

/-- From where a layer starts on, the octets are those its own turn leaves, and that turn finds its
header as it was. -/
theorem recompute_behind {pkt : Packet} (hstacked : Stacked pkt.spans pkt.buf)
    (hclipped : is_clipped R pkt = false) {i : ℕ} {s : LayerSpan} (hs : pkt.spans[i]? = some s)
    (hown : ∀ j u, j < i → pkt.spans[j]? = some u → u.Own (recompute R pkt).buf) :
    ∃ before : Bytes, before.length = pkt.buf.length ∧
      (∀ n, n < s.off + s.hlen → before[n]? = pkt.buf[n]?) ∧
      ∀ n, s.off ≤ n →
        (recompute R pkt).buf[n]? = (fix_layer R false { pkt with buf := before } i).buf[n]? := by
  -- The fixers behind the layer leave its octets alone; the layer's own touches what it may.
  have hi : i < pkt.spans.length := (List.getElem?_eq_some_iff.1 hs).1
  obtain ⟨before, heq, hlen, hfront⟩ : ∃ before,
      fix_down R false (i + 1) pkt.spans.length pkt = { pkt with buf := before } ∧
        before.length = pkt.buf.length ∧ ∀ n, n < s.off + s.hlen → before[n]? = pkt.buf[n]? := by
    apply fix_down_front R hstacked.inside
    intro j t hj ht
    exact hstacked.le hj hs ht
  refine ⟨before, hlen, hfront, ?_⟩
  have hin : s.Inside before := by
    have := hstacked.inside s (List.mem_of_getElem? hs)
    unfold LayerSpan.Inside at this ⊢
    omega
  obtain ⟨after, hafter, htouch⟩ : Touches { pkt with buf := before } _ s (touched s) :=
    fix_layer_touches i R hs hin
  -- What is left are the fixers in front, whose own octets lie outside the layer.
  have hwhole : recompute R pkt = fix_down R false 0 i { pkt with buf := after } := by
    unfold recompute
    rw [hclipped, fix_down_split R false (Nat.le_of_lt hi), fix_down_first R false hi, heq, hafter]
  intro n hn
  rw [hwhole] at hown ⊢
  rw [hafter]
  refine @fix_down_behind R { pkt with buf := after } i ?_ hown ?_ s hs n hn
  · intro t ht
    have := hstacked.inside t ht
    have hlen' := htouch.length
    dsimp only at hlen'
    unfold LayerSpan.Inside at this ⊢
    dsimp only
    omega
  · intro j u t _ hu ht
    exact hstacked.le (Nat.lt_succ_self j) hu ht

/-! ## Layers that a fresh dissection reads again -/

/-- Nothing but DNS is framed. -/
theorem framing_of_not_dns {p : ProtoId} (hp : p ≠ .Dns) (parent : Option ProtoId) :
    parent.elim 0 (fun q => R.layers.table.framing q p) = 0 := by
  cases parent with
  | none => rfl
  | some q => exact if_neg fun h => hp h.2

theorem slice_head? (buf : Bytes) {a n : ℕ} (hn : 0 < n) : (slice buf a (a + n)).head? = buf[a]? := by
  rw [List.head?_eq_getElem?, slice_getElem?, if_pos (by omega), Nat.add_zero]

/-- A GRE header that says it has a checksum is long enough for one. -/
theorem gre_header_len_ge {hdr : Bytes} {b : UInt8} (hfirst : hdr.head? = some b)
    (hsum : (b &&& 0x80 != 0) = true) : 8 ≤ seq_off hdr := by
  have hflag : gre_flag hdr 0 = true := by
    unfold gre_flag
    rw [hfirst]
    exact hsum
  have hpresent : has_sum hdr = true := by
    unfold has_sum
    rw [hflag]
    rfl
  unfold seq_off key_off
  rw [hpresent]
  simp only [Bool.toNat_true]
  omega

/-- A layer with others behind it has at least its shortest header, and its turn stays inside. -/
theorem Measured.own {buf : Bytes} {s : LayerSpan} (h : Measured R.layers.table buf s)
    (hmore : s.hlen < s.total) : s.Own buf := by
  rcases h with ⟨-, hhlen⟩ | ⟨parent, pre, hpre, hroom, hhlen⟩
  · omega
  · rw [R.table_desc] at hroom hhlen
    have hmin : ∀ p, s.proto = p → (R.desc p).min_len ≤ s.hlen := by
      rintro p rfl
      omega
    unfold LayerSpan.Own touched
    cases hproto : s.proto with
    | Gre =>
      -- with a checksum in it the header has four octets more than without
      cases hsum : sum_present buf s.off with
      | false => exact .inr ⟨rfl, rfl⟩
      | true =>
        left
        rw [hproto, framing_of_not_dns R (show ProtoId.Gre ≠ .Dns from nofun)] at hpre
        subst hpre
        have hhead := slice_head? buf (a := s.off) (show 0 < s.total by omega)
        obtain ⟨b, hb, hbit⟩ : ∃ b, buf[s.off]? = some b ∧ (b &&& 0x80 != 0) = true := by
          unfold sum_present at hsum
          cases hfirst : buf[s.off]? with
          | none =>
            rw [hfirst] at hsum
            cases hsum
          | some b =>
            rw [hfirst] at hsum
            exact ⟨b, rfl, hsum⟩
        have hlong := gre_header_len_ge (hhead.trans hb) hbit
        rw [hproto, Nat.add_zero] at hhlen
        have heq : s.hlen = min (0 + max (seq_off (slice buf s.off (s.off + s.total)) +
            4 * (has_seq (slice buf s.off (s.off + s.total))).toNat) 4) s.total := hhlen
        dsimp only
        omega
    | Ipv4 => exact .inl (Nat.le_trans (show 12 ≤ 20 by omega) (hmin _ hproto))
    | Udp => exact .inl (hmin _ hproto)
    | Tcp => exact .inl (Nat.le_trans (show 18 ≤ 20 by omega) (hmin _ hproto))
    | Icmp => exact .inl (Nat.le_trans (show 4 ≤ 8 by omega) (hmin _ hproto))
    | Icmpv6 => exact .inl (hmin _ hproto)
    | GtpU => exact .inl (Nat.le_trans (show 4 ≤ 8 by omega) (hmin _ hproto))
    | Dns => exact .inl (Nat.le_trans (show 2 ≤ 12 by omega) (hmin _ hproto))
    | Ipv6 => exact .inl (Nat.le_trans (show 6 ≤ 40 by omega) (hmin _ hproto))
    | Pppoe => exact .inl (hmin _ hproto)
    | PppoeDisc => exact .inl (hmin _ hproto)
    | HopByHop => exact .inl (Nat.le_trans (show 2 ≤ 8 by omega) (hmin _ hproto))
    | DestOpt => exact .inl (Nat.le_trans (show 2 ≤ 8 by omega) (hmin _ hproto))
    | Routing => exact .inl (Nat.le_trans (show 2 ≤ 8 by omega) (hmin _ hproto))
    | Geneve => exact .inl (Nat.le_trans (show 1 ≤ 8 by omega) (hmin _ hproto))
    | other n =>
      left
      dsimp only
      split
      · exact le_rfl
      · exact Nat.zero_le _
    | _ => exact .inl (Nat.zero_le _)

/-- A fresh dissection finds every layer before `i` where it stands, and at `i` comes to the same
layer with room for `n` octets of header. -/
structure Reached (fresh pkt : Packet) (i : ℕ) (s t : LayerSpan) (n : ℕ) : Prop where
  found : fresh.spans[i]? = some t
  proto : t.proto = s.proto
  off : t.off = s.off
  room : n ≤ t.total
  before : ∀ j, j < i → fresh.spans[j]?.map LayerSpan.place = pkt.spans[j]?.map LayerSpan.place

/-- It measures that layer there, and the turns of those before it stay inside their headers. -/
theorem Reached.measured {buf : Bytes} {link : ProtoId} {pkt : Packet} {i n : ℕ} {s t : LayerSpan}
    (h : Reached (dissect R buf link) pkt i s t n) (hproto : s.proto ≠ .Padding) :
    Measured R.layers.table buf t ∧ t.off + t.total ≤ buf.length ∧
      ∀ j u, j < i → pkt.spans[j]? = some u → u.Own buf := by
  -- The spans read anew are a walk and perhaps a padding layer, which this is not.
  obtain ⟨spans, stop, hwalked, heq⟩ := dissect_walked R buf link
  have hfound := h.found
  rw [heq] at hfound
  have hi : i < spans.length := by
    by_contra hge
    rw [List.getElem?_append_right (by omega)] at hfound
    have hmem := List.mem_of_getElem? hfound
    split at hmem
    · rw [← h.proto, List.mem_singleton.1 hmem] at hproto
      exact hproto rfl
    · cases hmem
  rw [List.getElem?_append_left hi] at hfound
  have hmem := List.mem_of_getElem? hfound
  refine ⟨hwalked.measured t hmem, (hwalked.within t hmem).2.2, ?_⟩
  intro j u hj hu
  -- A layer in front was found where it was, so it nests around this one.
  have hplace := h.before j hj
  rw [heq, List.getElem?_append_left (by omega), hu] at hplace
  obtain ⟨v, hv, hsame⟩ := Option.map_eq_some_iff.1 hplace
  obtain ⟨hp, hoff, hhlen⟩ : v.proto = u.proto ∧ v.off = u.off ∧ v.hlen = u.hlen := by
    simpa [LayerSpan.place] using hsame
  have hnested : v.off + v.hlen ≤ t.off ∧ t.off + t.total ≤ v.off + v.total ∧ 0 < t.total := by
    obtain ⟨hj', rfl⟩ := List.getElem?_eq_some_iff.1 hv
    obtain ⟨hi', rfl⟩ := List.getElem?_eq_some_iff.1 hfound
    exact List.pairwise_iff_getElem.1 hwalked.nested j i hj' hi' hj
  have hown := (hwalked.measured v (List.mem_of_getElem? hv)).own R (by omega)
  unfold LayerSpan.Own touched at hown ⊢
  rwa [hp, hoff, hhlen] at hown

/-- Its header length, by what is behind it up to the end in force. -/
theorem Measured.hlen_eq {buf : Bytes} {t : LayerSpan} (h : Measured R.layers.table buf t)
    (hdns : t.proto ≠ .Dns) (hin : t.off + t.total ≤ buf.length) :
    t.hlen = min (max ((R.desc t.proto).header_len (slice buf t.off (t.off + t.total)))
      (R.desc t.proto).min_len) t.total := by
  rcases h with ⟨hraw, hhlen⟩ | ⟨parent, pre, hpre, hroom, hhlen⟩
  · have hlen : (R.desc t.proto).header_len (slice buf t.off (t.off + t.total)) = t.total := by
      rw [hraw]
      show (slice buf t.off (t.off + t.total)).length = t.total
      rw [length_slice hin]
      omega
    rw [hlen, hhlen]
    omega
  · rw [framing_of_not_dns R hdns] at hpre
    subst hpre
    rw [R.table_desc, Nat.add_zero, Nat.zero_add] at hhlen
    exact hhlen

/-! ## Counts written and read -/

/-- IHL keeps the version it shares an octet with. -/
theorem low_nibble (o v : UInt8) : ((o &&& 0xf0) ||| (v &&& 0x0f)) &&& 0x0f = v &&& 0x0f := by
  rw [← UInt8.toBitVec_inj]
  ext i hi
  simp only [UInt8.toBitVec_and, UInt8.toBitVec_or]
  interval_cases i <;> simp

/-- Data Offset keeps the bits it shares an octet with. -/
theorem high_nibble (o v : UInt8) :
    ((o &&& 0x0f) ||| ((v &&& 0x0f) <<< (4 : UInt8))) >>> (4 : UInt8) = v &&& 0x0f := by
  rw [← UInt8.toBitVec_inj]
  ext i hi
  simp only [UInt8.toBitVec_and, UInt8.toBitVec_or, UInt8.toBitVec_shiftRight,
    UInt8.toBitVec_shiftLeft]
  interval_cases i <;> simp

/-- Opt Len keeps the version it shares an octet with. -/
theorem low_six (o v : UInt8) : ((o &&& 0xc0) ||| v) &&& 0x3f = v &&& 0x3f := by
  rw [← UInt8.toBitVec_inj]
  ext i hi
  simp only [UInt8.toBitVec_and, UInt8.toBitVec_or]
  interval_cases i <;> simp

theorem toNat_nibble {k : ℕ} (hk : k ≤ 15) : (UInt8.ofNat k &&& 0x0f).toNat = k := by
  have hmod : (UInt8.ofNat k &&& (0x0f : UInt8)).toNat = (UInt8.ofNat k).toNat % 2 ^ 4 :=
    (UInt8.toNat_and _ _).trans (Nat.and_two_pow_sub_one_eq_mod _ 4)
  rw [hmod, UInt8.toNat_ofNat']
  omega

/-- So is one of six. -/
theorem toNat_six {k : ℕ} (hk : k ≤ 63) : (UInt8.ofNat k &&& 0x3f).toNat = k := by
  have hmod : (UInt8.ofNat k &&& (0x3f : UInt8)).toNat = (UInt8.ofNat k).toNat % 2 ^ 6 :=
    (UInt8.toNat_and _ _).trans (Nat.and_two_pow_sub_one_eq_mod _ 6)
  rw [hmod, UInt8.toNat_ofNat']
  omega

/-- A header of whole words up to sixty octets, as IHL says it. -/
theorem ipv4_header_len_of_count {hdr : Bytes} {o : UInt8} {n : ℕ} (hn : 20 ≤ n) (hwords : 4 ∣ n)
    (hmax : n ≤ 60) (hcount : hdr[0]? = some ((o &&& 0xf0) ||| (UInt8.ofNat (n / 4) &&& 0x0f))) :
    (R.desc .Ipv4).header_len hdr = n := by
  have hsome : hdr.isEmpty = false := by
    cases hdr with
    | nil => cases hcount
    | cons _ _ => rfl
  have hfirst : hdr.getD 0 0 = (o &&& 0xf0) ||| (UInt8.ofNat (n / 4) &&& 0x0f) := by
    rw [List.getD_eq_getElem?_getD, hcount]
    rfl
  show (if hdr.isEmpty then 20 else max ((hdr.getD 0 0 &&& 0x0f).toNat * 4) 20) = n
  rw [hsome, if_neg Bool.false_ne_true, hfirst, low_nibble, toNat_nibble (by omega)]
  omega

/-- The same, as Data Offset says it. -/
theorem tcp_header_len_of_count {hdr : Bytes} {o : UInt8} {n : ℕ} (hn : 20 ≤ n) (hwords : 4 ∣ n)
    (hmax : n ≤ 60)
    (hcount : hdr[12]? = some ((o &&& 0x0f) ||| ((UInt8.ofNat (n / 4) &&& 0x0f) <<< (4 : UInt8)))) :
    (R.desc .Tcp).header_len hdr = n := by
  obtain ⟨hlen, -⟩ := List.getElem?_eq_some_iff.1 hcount
  have hoctet : hdr.getD 12 0 = (o &&& 0x0f) ||| ((UInt8.ofNat (n / 4) &&& 0x0f) <<< (4 : UInt8)) := by
    rw [List.getD_eq_getElem?_getD, hcount]
    rfl
  show tcp_header_len hdr = n
  unfold tcp_header_len
  rw [if_neg (by omega), hoctet, high_nibble, UInt8.and_assoc, UInt8.and_self,
    toNat_nibble (by omega)]
  omega

/-- A header of whole units of eight octets, as an extension header says it. -/
theorem opt_header_len_of_count {hdr : Bytes} {n : ℕ} (hn : 8 ≤ n) (hunits : 8 ∣ n) (hmax : n ≤ 2048)
    (hcount : hdr[1]? = some (UInt8.ofNat ((n - 8) / 8))) : opt_header_len hdr = n := by
  unfold opt_header_len
  rw [hcount]
  dsimp only
  rw [UInt8.toNat_ofNat']
  omega

/-- A header of whole units of four octets, as Geneve says it. -/
theorem geneve_header_len_of_count {hdr : Bytes} {o : UInt8} {n : ℕ} (hn : 8 ≤ n) (hunits : 4 ∣ n)
    (hmax : n ≤ 260) (hcount : hdr[0]? = some ((o &&& 0xc0) ||| UInt8.ofNat ((n - 8) / 4))) :
    geneve_header_len hdr = n := by
  unfold geneve_header_len
  rw [List.head?_eq_getElem?, hcount]
  dsimp only
  rw [low_six, toNat_six (by omega)]
  omega

/-! ## What a write leaves in the count -/

theorem edit_slice_at {buf : Bytes} {a n k : ℕ} {f : Bytes → Bytes} (hb : a + n ≤ buf.length)
    (hlen : (f (slice buf a (a + n))).length = (slice buf a (a + n)).length) (hk : k < n) :
    (edit_slice buf a (a + n) f)[a + k]? = (f (slice buf a (a + n)))[k]? := by
  have hsize : (f (slice buf a (a + n))).length = n := by
    rw [hlen, length_slice hb, Nat.add_sub_cancel_left]
  unfold edit_slice
  rw [put_getElem? (by omega), if_pos (by omega), Nat.add_sub_cancel_left]

theorem slice_ne {buf : Bytes} {a n k : ℕ} (hb : a + n ≤ buf.length) (hk : k < n) :
    ∃ o, (slice buf a (a + n))[k]? = some o := by
  have hlen : (slice buf a (a + n)).length = n := by
    rw [length_slice hb, Nat.add_sub_cancel_left]
  exact ⟨_, List.getElem?_eq_getElem (by omega)⟩

/-- An IPv4 header told how long it is. -/
theorem ipv4_retold {buf : Bytes} {a n : ℕ} (hn : 0 < n) (hb : a + n ≤ buf.length) :
    ∃ o, (retold (R.desc .Ipv4) a (a + n) n buf)[a]? =
      some ((o &&& 0xf0) ||| (UInt8.ofNat (n / 4) &&& 0x0f)) := by
  obtain ⟨o, ho⟩ := slice_ne hb hn
  refine ⟨o, ?_⟩
  show (edit_slice buf a (a + n) fun hdr => ipv4_set_hlen hdr n)[a + 0]? = _
  have hlen : ∀ hdr : Bytes, (ipv4_set_hlen hdr n).length = hdr.length := by
    intro hdr
    cases hdr with
    | nil => rfl
    | cons _ _ => rfl
  rw [edit_slice_at hb (hlen _) hn]
  cases hhdr : slice buf a (a + n) with
  | nil =>
    rw [hhdr] at ho
    cases ho
  | cons o' rest =>
    rw [hhdr] at ho
    cases ho
    rfl

/-- A TCP header told how long it is. -/
theorem tcp_retold {buf : Bytes} {a n : ℕ} (hn : 12 < n) (hb : a + n ≤ buf.length) :
    ∃ o, (retold (R.desc .Tcp) a (a + n) n buf)[a + 12]? =
      some ((o &&& 0x0f) ||| ((UInt8.ofNat (n / 4) &&& 0x0f) <<< (4 : UInt8))) := by
  obtain ⟨o, ho⟩ := slice_ne hb hn
  have hlen : 12 < (slice buf a (a + n)).length := (List.getElem?_eq_some_iff.1 ho).1
  refine ⟨o, ?_⟩
  show (edit_slice buf a (a + n) fun hdr => tcp_set_hlen hdr n)[a + 12]? = _
  rw [edit_slice_at hb _ hn]
  · unfold tcp_set_hlen
    rw [if_pos hlen, List.getElem?_modify_eq, ho]
    rfl
  · unfold tcp_set_hlen
    rw [if_pos hlen, List.length_modify]

/-- A region counted in words is whole words. -/
theorem region_words {pkt : Packet} {i : ℕ} {s : LayerSpan} {f : FieldDesc} {val : Bytes}
    (hpads : (R.desc s.proto).pads_options = true) (hbytes : (R.desc s.proto).bind_next_bytes = none) :
    4 ∣ (region R pkt i s f val).length := by
  have htail : ∀ start end_, kept_tail R pkt i s start end_ = [] := by
    intro start end_
    unfold kept_tail
    rw [hbytes]
    dsimp only
    split <;> rfl
  unfold region
  rw [htail, List.append_nil, List.length_append, List.length_replicate, if_pos hpads]
  omega

/-- What is not refused has a header that its count of units can say. -/
theorem hlen_le_of_oversize {pkt : Packet} (hclipped : is_clipped R pkt = false)
    (h : oversize_of R pkt = none) {i : ℕ} {s : LayerSpan} (hs : pkt.spans[i]? = some s)
    {name : String} {unit fixed max : ℕ} (hunit : unit_hlen s.proto = some (name, unit, fixed, max))
    (hfree : pkt.is_pinned i name = false) : s.hlen ≤ fixed + max * unit := by
  unfold oversize_of at h
  rw [hclipped, if_neg Bool.false_ne_true] at h
  dsimp only at h
  by_contra hlong
  split at h
  · cases h
  · rename_i hunits
    have hmem : (s, i) ∈ pkt.spans.zipIdx := List.mk_mem_zipIdx_iff_getElem?.2 hs
    have hnone := List.findSome?_eq_none_iff.1 hunits (s, i) hmem
    dsimp only at hnone
    rw [hunit] at hnone
    dsimp only at hnone
    rw [hfree, if_pos ⟨by omega, rfl⟩] at hnone
    cases hnone

/-! ## The layer found again -/

/-- What a fresh dissection makes of a layer whose header was given `n` octets: that many where its
own count can say so, what is left for `Raw` and `Padding`, and for a layer that recomputation
writes nothing into what it reads off the header as it was written. -/
def Refound (pkt : Packet) (i : ℕ) (s t : LayerSpan) (n : ℕ) : Prop :=
  match s.proto with
  | .Ipv4 | .Tcp => n ≤ 60 → t.hlen = n
  | .HopByHop | .DestOpt | .Routing => 8 ≤ n → 8 ∣ n → t.hlen = n
  | .Geneve => 8 ≤ n → 4 ∣ n → t.hlen = n
  | .Raw | .Padding => t.hlen = t.total
  | p => (∀ u : LayerSpan, u.proto = p → touched u = (0, 0)) → ∃ rest, t.hlen =
      min (max ((R.desc p).header_len (header pkt i ++ rest)) (R.desc p).min_len) t.total

section Refound

variable {R : Registry} {pkt pkt' : Packet} {i : ℕ} {s t : LayerSpan} {f : FieldDesc} {val : Bytes}
  {cells : Set ℕ} {link : ProtoId}

/-- The layer before serialisation, its turn of the pass, and what the octets are from there on. -/
theorem Rewritten.reread (h : Rewritten R pkt pkt' i s f val cells) (hs : pkt.spans[i]? = some s)
    (hstacked : Stacked pkt.spans pkt.buf)
    (hreached : Reached (dissect R (to_bytes R pkt').buf link) pkt' i s t (new_hlen R pkt i s f val))
    (hproto : s.proto ≠ .Padding) :
    Measured R.layers.table (to_bytes R pkt').buf t ∧ t.off + t.total ≤ (to_bytes R pkt').buf.length ∧
      ∃ s' before, (refresh_totals pkt').spans[i]? = some s' ∧
        s'.proto = s.proto ∧ s'.off = s.off ∧ s'.hlen = new_hlen R pkt i s f val ∧
        s'.Inside before ∧ before.length = pkt'.buf.length ∧
        (∀ n, n < s.off + new_hlen R pkt i s f val → before[n]? = pkt'.buf[n]?) ∧
        ∀ n, s.off ≤ n → (to_bytes R pkt').buf[n]? =
          (fix_layer R false { refresh_totals pkt' with buf := before } i).buf[n]? := by
  -- After a splice the packet is dirty and resized: it is recomputed, and never taken for clipped.
  have hserial : (to_bytes R pkt').buf = (recompute R (refresh_totals pkt')).buf := by
    unfold to_bytes
    rw [h.marked.1, if_pos (by decide)]
  have hclipped : is_clipped R (refresh_totals pkt') = false := by
    have hresized : (refresh_totals pkt').resized = true := h.marked.2.1
    unfold is_clipped
    rw [hresized]
    rfl
  obtain ⟨s', hs', hplace⟩ : ∃ s', (refresh_totals pkt').spans[i]? = some s' ∧
      s'.place = (s.proto, s.off, new_hlen R pkt i s f val) := by
    have hitself := h.itself
    rw [← place_refresh] at hitself
    exact Option.map_eq_some_iff.1 hitself
  obtain ⟨hp, hoff, hhlen⟩ : s'.proto = s.proto ∧ s'.off = s.off ∧ s'.hlen = _ := by
    simpa [LayerSpan.place] using hplace
  have hstacked' := stacked_refresh (h.stacked hs hstacked)
  -- What was read anew stands where the packet's own spans stand.
  obtain ⟨hmeasured, hin, hown⟩ := hreached.measured R hproto
  have hown' : ∀ j u, j < i → (refresh_totals pkt').spans[j]? = some u →
      u.Own (recompute R (refresh_totals pkt')).buf := by
    intro j u hj hu
    obtain ⟨v, hv, rfl⟩ : ∃ v, pkt'.spans[j]? = some v ∧
        { v with total := pkt'.buf.length - v.off } = u := by
      unfold refresh_totals at hu
      rw [List.getElem?_map] at hu
      exact Option.map_eq_some_iff.1 hu
    rw [← hserial]
    exact hown j v hj hv
  -- So the layer's octets are those its own fixer left.
  obtain ⟨before, hlen, hfront, hbehind⟩ := recompute_behind R hstacked' hclipped hs' hown'
  rw [hoff] at hbehind hfront
  rw [hhlen] at hfront
  rw [← hserial] at hbehind
  have hinside : s'.Inside before := by
    have := hstacked'.inside s' (List.mem_of_getElem? hs')
    unfold LayerSpan.Inside at this ⊢
    omega
  exact ⟨hmeasured, hin, s', before, hs', hp, hoff, hhlen, hinside, hlen, hfront, hbehind⟩

/-- A layer whose header says a length it has room for is found with it. -/
theorem hlen_of_header_len {buf : Bytes} {n : ℕ} (hmeasured : Measured R.layers.table buf t)
    (hin : t.off + t.total ≤ buf.length) {p : ProtoId} (hp : t.proto = p) (hdns : p ≠ .Dns)
    (hheader : (R.desc p).header_len (slice buf t.off (t.off + t.total)) = n)
    (hmin : (R.desc p).min_len ≤ n) (hroom : n ≤ t.total) : t.hlen = n := by
  subst hp
  rw [hmeasured.hlen_eq R hdns hin, hheader]
  omega

/-- An octet of the header that the layer's own turn does not write is read as it was written. -/
theorem Rewritten.octet (h : Rewritten R pkt pkt' i s f val cells) (hs : pkt.spans[i]? = some s)
    (hstacked : Stacked pkt.spans pkt.buf)
    (hreached : Reached (dissect R (to_bytes R pkt').buf link) pkt' i s t (new_hlen R pkt i s f val))
    (hproto : s.proto ≠ .Padding) {lo hi k : ℕ}
    (htouched : ∀ u : LayerSpan, u.proto = s.proto → touched u = (lo, hi)) (hapart : k < lo ∨ hi ≤ k)
    (hk : k < new_hlen R pkt i s f val) :
    (slice (to_bytes R pkt').buf t.off (t.off + t.total))[k]? = pkt'.buf[s.off + k]? := by
  obtain ⟨-, -, s', before, hs', hp, hoff, hhlen, hin, hlen, hfront, hbehind⟩ :=
    h.reread hs hstacked hreached hproto
  obtain ⟨after, hafter, htouch⟩ :
      Touches { refresh_totals pkt' with buf := before } _ s' (touched s') :=
    fix_layer_touches i R hs' hin
  rw [htouched s' hp, hoff] at htouch
  have hroom := hreached.room
  rw [slice_getElem?, if_pos (by omega), hreached.off, hbehind _ (Nat.le_add_right _ _), hafter,
    ← hfront _ (by omega)]
  apply htouch.frame
  dsimp only
  omega

/-- Without pins nothing is pinned. -/
theorem is_pinned_nil {pkt : Packet} (hfree : pkt.pinned = []) (i : ℕ) (name : String) :
    pkt.is_pinned i name = false := by
  unfold is_pinned
  rw [hfree]
  split
  · exact decide_eq_false List.not_mem_nil
  · rfl

/-- A header of whole units is counted. -/
theorem fix_unit_hlen_eq {pkt : Packet} {s : LayerSpan} {name : String} {unit fixed max : ℕ}
    (hunit : unit_hlen s.proto = some (name, unit, fixed, max)) (hin : s.Inside pkt.buf)
    (hfree : pkt.is_pinned i name = false) (hfixed : fixed ≤ s.hlen) (hpos : 0 < s.hlen)
    (hunits : unit ∣ s.hlen - fixed) (hmax : (s.hlen - fixed) / unit ≤ max) :
    (fix_unit_hlen pkt i s).buf =
      if s.proto = .Geneve then
        pkt.buf.modify s.off fun b => (b &&& 0xc0) ||| UInt8.ofNat ((s.hlen - fixed) / unit)
      else pkt.buf.set (s.off + 1) (UInt8.ofNat ((s.hlen - fixed) / unit)) := by
  have hinside : s.off + s.hlen ≤ pkt.buf.length := hin
  have hhlen : min s.hlen (pkt.buf.length - s.off) = s.hlen := by omega
  have hwhole : (s.hlen - fixed) % unit = 0 := Nat.mod_eq_zero_of_dvd hunits
  unfold fix_unit_hlen span_bounds
  rw [hunit]
  dsimp only
  rw [hhlen, hfree, if_neg (by simp only [Bool.false_eq_true, or_false]; omega),
    if_neg (by simp only [hwhole, ne_eq, not_true_eq_false, false_or]; omega)]
  split
  · rfl
  · rfl

/-- The count of a header of whole units, as a fresh dissection finds it. -/
theorem Rewritten.unit_count (h : Rewritten R pkt pkt' i s f val cells) (hs : pkt.spans[i]? = some s)
    (hstacked : Stacked pkt.spans pkt.buf) (hfree : pkt.pinned = []) (hfits : oversize R pkt' = none)
    (hreached : Reached (dissect R (to_bytes R pkt').buf link) pkt' i s t (new_hlen R pkt i s f val))
    {name : String} {unit max : ℕ} (hunit : unit_hlen s.proto = some (name, unit, 8, max))
    (htail : tail_len s.proto = none) (hcount : payload_len_of s.proto = none)
    (hfix : ∀ pkt : Packet, ∀ u : LayerSpan, u.proto = s.proto → fix_proto false pkt i u = pkt)
    (hlen : 8 ≤ new_hlen R pkt i s f val) (hunits : unit ∣ new_hlen R pkt i s f val - 8) :
    new_hlen R pkt i s f val ≤ 8 + max * unit ∧
      if s.proto = .Geneve then
        ∃ o, (slice (to_bytes R pkt').buf t.off (t.off + t.total))[0]? =
          some ((o &&& 0xc0) ||| UInt8.ofNat ((new_hlen R pkt i s f val - 8) / unit))
      else (slice (to_bytes R pkt').buf t.off (t.off + t.total))[1]? =
        some (UInt8.ofNat ((new_hlen R pkt i s f val - 8) / unit)) := by
  have hproto : s.proto ≠ .Padding := by
    intro hpad
    rw [hpad] at hunit
    cases hunit
  have hfree' : pkt'.pinned = [] := h.marked.2.2.trans hfree
  have hmax : new_hlen R pkt i s f val ≤ 8 + max * unit := by
    obtain ⟨u, hu, hplace⟩ := Option.map_eq_some_iff.1 h.itself
    obtain ⟨hp, -, hhlen⟩ : u.proto = s.proto ∧ u.off = s.off ∧ u.hlen = _ := by
      simpa [LayerSpan.place] using hplace
    have hclipped : is_clipped R pkt' = false := by
      unfold is_clipped
      rw [h.marked.2.1]
      rfl
    unfold oversize at hfits
    rw [h.marked.1, if_pos (by decide)] at hfits
    rw [← hhlen]
    exact hlen_le_of_oversize R hclipped hfits hu (hp.symm ▸ hunit) (is_pinned_nil hfree' i name)
  refine ⟨hmax, ?_⟩
  obtain ⟨-, -, s', before, hs', hp, hoff, hhlen, hin, -, -, hbehind⟩ :=
    h.reread hs hstacked hreached hproto
  obtain ⟨P, hP⟩ : ∃ P, P = { refresh_totals pkt' with buf := before } := ⟨_, rfl⟩
  rw [← hP] at hbehind
  have hsP : P.spans[i]? = some s' := hP ▸ hs'
  have hinP : s'.Inside P.buf := hP ▸ hin
  have hfreeP : P.pinned = [] := hP ▸ hfree'
  -- the layer's turn does nothing but count
  have hturn : fix_layer R false P i = fix_unit_hlen P i s' := by
    rw [fix_layer_eq i R hsP, hfix _ s' hp]
    apply fix_lengths_of_unit i R
    · rw [hp]
      exact htail
    · rw [hp]
      exact hcount
  have hquotient : (s'.hlen - 8) / unit ≤ max := by
    apply Nat.div_le_of_le_mul
    rw [hhlen, Nat.mul_comm]
    omega
  have hbuf := fix_unit_hlen_eq (hp.symm ▸ hunit) hinP (is_pinned_nil hfreeP i name)
    (by omega) (by omega) (hhlen.symm ▸ hunits) hquotient
  have hroom := hreached.room
  have hread : ∀ k, k < new_hlen R pkt i s f val →
      (slice (to_bytes R pkt').buf t.off (t.off + t.total))[k]? =
        (fix_unit_hlen P i s').buf[s.off + k]? := by
    intro k hk
    rw [slice_getElem?, if_pos (by omega), hreached.off, hbehind _ (Nat.le_add_right _ _), hturn]
  have hinside : s.off + new_hlen R pkt i s f val ≤ P.buf.length := by
    rw [← hoff, ← hhlen]
    exact hinP
  rw [hp, hhlen, hoff] at hbuf
  split
  · rename_i hgeneve
    rw [if_pos hgeneve] at hbuf
    refine ⟨P.buf[s.off], ?_⟩
    rw [hread 0 (by omega), hbuf, Nat.add_zero, List.getElem?_modify_eq,
      List.getElem?_eq_getElem (by omega)]
    rfl
  · rename_i hext
    rw [if_neg hext] at hbuf
    rw [hread 1 (by omega), hbuf, List.getElem?_set_self (by omega)]

/-- A layer that takes whatever is left. -/
theorem hlen_of_rest {buf : Bytes} (ht : t ∈ (dissect R buf link).spans)
    (hp : t.proto = .Raw ∨ t.proto = .Padding) : t.hlen = t.total := by
  obtain ⟨spans, stop, hwalked, heq⟩ := dissect_walked R buf link
  rw [heq] at ht
  rcases List.mem_append.1 ht with ht | ht
  · have hin := (hwalked.within t ht).2.2
    have hdns : t.proto ≠ .Dns := by
      rintro hdns
      rw [hdns] at hp
      rcases hp with hp | hp <;> cases hp
    have hlen : (R.desc t.proto).header_len (slice buf t.off (t.off + t.total)) = t.total := by
      have hslice : (slice buf t.off (t.off + t.total)).length = t.total := by
        rw [length_slice hin, Nat.add_sub_cancel_left]
      rcases hp with hp | hp <;> (rw [hp]; exact hslice)
    rw [(hwalked.measured t ht).hlen_eq R hdns hin, hlen]
    omega
  · split at ht
    · rw [List.mem_singleton.1 ht]
    · cases ht

/-- An extension header of whole units. -/
theorem Rewritten.refound_ext (h : Rewritten R pkt pkt' i s f val cells) (hs : pkt.spans[i]? = some s)
    (hstacked : Stacked pkt.spans pkt.buf) (hfree : pkt.pinned = []) (hfits : oversize R pkt' = none)
    (hreached : Reached (dissect R (to_bytes R pkt').buf link) pkt' i s t (new_hlen R pkt i s f val))
    (hext : s.proto = .HopByHop ∨ s.proto = .DestOpt ∨ s.proto = .Routing)
    (hlen : 8 ≤ new_hlen R pkt i s f val) (hunits : 8 ∣ new_hlen R pkt i s f val) :
    t.hlen = new_hlen R pkt i s f val := by
  -- The three extension headers count their length alike, in units of eight octets.
  obtain ⟨p, hproto⟩ : ∃ p, s.proto = p := ⟨_, rfl⟩
  have hless : 8 ∣ new_hlen R pkt i s f val - 8 := by omega
  rw [hproto] at hext
  have hpad : s.proto ≠ .Padding := by
    rw [hproto]
    rcases hext with rfl | rfl | rfl <;> exact nofun
  obtain ⟨hmeasured, hend, -⟩ := h.reread hs hstacked hreached hpad
  have hunit : unit_hlen s.proto = some ("len", 8, 8, 255) := by
    rw [hproto]
    rcases hext with rfl | rfl | rfl <;> rfl
  -- The fixer wrote the count for the new length, and it is in range.
  obtain ⟨hmax, hcount⟩ := h.unit_count hs hstacked hfree hfits hreached hunit
    (by rw [hproto]; rcases hext with rfl | rfl | rfl <;> rfl)
    (by rw [hproto]; rcases hext with rfl | rfl | rfl <;> rfl)
    (by
      intro P u hu
      unfold fix_proto
      rw [hu, hproto]
      rcases hext with rfl | rfl | rfl <;> rfl) hlen hless
  have hnot : s.proto ≠ .Geneve := by
    rw [hproto]
    rcases hext with rfl | rfl | rfl <;> exact nofun
  rw [if_neg hnot] at hcount
  have hheader := opt_header_len_of_count hlen hunits hmax hcount
  have hp := hreached.proto.trans hproto
  -- Read back by the one rule of the three.
  rcases hext with rfl | rfl | rfl
  · exact hlen_of_header_len hmeasured hend hp nofun hheader hlen hreached.room
  · exact hlen_of_header_len hmeasured hend hp nofun hheader hlen hreached.room
  · exact hlen_of_header_len hmeasured hend hp nofun hheader hlen hreached.room

/-- A layer that recomputation writes nothing into measures itself by the header as it was written. -/
theorem Rewritten.refound_untouched (h : Rewritten R pkt pkt' i s f val cells)
    (hs : pkt.spans[i]? = some s) (hstacked : Stacked pkt.spans pkt.buf)
    (hreached : Reached (dissect R (to_bytes R pkt').buf link) pkt' i s t (new_hlen R pkt i s f val))
    (hnone : ∀ u : LayerSpan, u.proto = s.proto → touched u = (0, 0)) (hpad : s.proto ≠ .Padding)
    (hdns : s.proto ≠ .Dns) :
    ∃ rest, t.hlen = min (max ((R.desc s.proto).header_len (header pkt' i ++ rest))
      (R.desc s.proto).min_len) t.total := by
  obtain ⟨hmeasured, hend, -⟩ := h.reread hs hstacked hreached hpad
  have hin' : s.off + new_hlen R pkt i s f val ≤ pkt'.buf.length := by
    have hin := hstacked.inside s (List.mem_of_getElem? hs)
    have hlength := h.length
    unfold LayerSpan.Inside at hin
    omega
  -- The layer's octets start with the rewritten header, so it measures as long again.
  have hwhole : slice (to_bytes R pkt').buf t.off (t.off + t.total) = header pkt' i ++
      (slice (to_bytes R pkt').buf t.off (t.off + t.total)).drop (new_hlen R pkt i s f val) := by
    have hfront : (slice (to_bytes R pkt').buf t.off (t.off + t.total)).take (new_hlen R pkt i s f val) =
        header pkt' i := by
      rw [header_of_place h.itself hin']
      apply List.ext_getElem?
      intro k
      rw [slice_getElem? pkt'.buf]
      by_cases hk : k < new_hlen R pkt i s f val
      · rw [List.getElem?_take_of_lt hk, if_pos (by omega),
          h.octet hs hstacked hreached hpad hnone (.inr (Nat.zero_le k)) hk]
      · rw [List.getElem?_take_eq_none (by omega), if_neg (by omega)]
    rw [← hfront, List.take_append_drop]
  refine ⟨(slice (to_bytes R pkt').buf t.off (t.off + t.total)).drop (new_hlen R pkt i s f val), ?_⟩
  rw [← hwhole, ← hreached.proto]
  exact hmeasured.hlen_eq R (hreached.proto.symm ▸ hdns) hend

/-- **A layer whose region was written is found with its new header**, wherever a fresh dissection
comes to it. -/
theorem Rewritten.refound (h : Rewritten R pkt pkt' i s f val cells) {name : String}
    (hset : set_bytes R pkt i name val = some pkt') (hs : pkt.spans[i]? = some s)
    (hf : pkt.active_field R i name = some f) (hfield : f ∈ (R.desc s.proto).fields)
    (hkind : f.kind = .VarBytes) (hreach : f.bit_off / 8 ≤ s.hlen)
    (hstacked : Stacked pkt.spans pkt.buf) (hfree : pkt.pinned = []) (hfits : oversize R pkt' = none)
    (hreached : Reached (dissect R (to_bytes R pkt').buf link) pkt' i s t (new_hlen R pkt i s f val)) :
    Refound R pkt' i s t (new_hlen R pkt i s f val) := by
  have hin := hstacked.inside s (List.mem_of_getElem? hs)
  -- The new octets are the spliced ones with the length told again.
  have hbuf : pkt'.buf = retold (R.desc s.proto) s.off (s.off + new_hlen R pkt i s f val)
      (new_hlen R pkt i s f val) (spliced R pkt i s f val) := by
    rw [set_bytes_eq hs hf hkind hin hreach] at hset
    cases hset
    rfl
  have hinside : s.off + s.hlen ≤ pkt.buf.length := hin
  have hroom : s.off + new_hlen R pkt i s f val ≤ (spliced R pkt i s f val).length := by
    have hlen : (spliced R pkt i s f val).length = _ := length_spliced hin hreach
    omega
  have hnew : new_hlen R pkt i s f val = f.bit_off / 8 + (region R pkt i s f val).length := rfl
  have hp := hreached.proto
  unfold Refound
  -- By the protocol: those that count their own length, those that count it in a fixer, and the
  -- others.
  cases hproto : s.proto with
  | Ipv4 =>
    intro hmax
    have hpad : s.proto ≠ .Padding := by rw [hproto]; exact nofun
    obtain ⟨hmeasured, hend, -⟩ := h.reread hs hstacked hreached hpad
    -- IPv4: the options are whole words behind twenty octets, so the low nibble counts the header.
    have hwords : 4 ∣ (region R pkt i s f val).length := by
      apply region_words <;> (rw [hproto]; rfl)
    have htwenty : f.bit_off / 8 = 20 := by
      rw [hproto] at hfield
      exact options_at_twenty.1 f hfield hkind
    have htouched : ∀ u : LayerSpan, u.proto = s.proto → touched u = (2, 12) := by
      intro u hu
      unfold touched
      rw [hu, hproto]
    obtain ⟨o, ho⟩ := ipv4_retold R (show 0 < new_hlen R pkt i s f val by omega) hroom
    rw [hproto] at hbuf
    -- No fixer touches that octet, and the hook wrote the count into it.
    have hoctet := h.octet hs hstacked hreached hpad htouched (.inl (show 0 < 2 by omega)) (by omega)
    rw [hbuf, Nat.add_zero, ho] at hoctet
    refine hlen_of_header_len hmeasured hend (hp.trans hproto) nofun
      (ipv4_header_len_of_count R ?_ ?_ hmax hoctet) ?_ hreached.room
    · omega
    · omega
    · show 20 ≤ _
      omega
  | Tcp =>
    intro hmax
    have hpad : s.proto ≠ .Padding := by rw [hproto]; exact nofun
    obtain ⟨hmeasured, hend, -⟩ := h.reread hs hstacked hreached hpad
    -- TCP: the same with the high nibble of the thirteenth octet.
    have hwords : 4 ∣ (region R pkt i s f val).length := by
      apply region_words <;> (rw [hproto]; rfl)
    have htwenty : f.bit_off / 8 = 20 := by
      rw [hproto] at hfield
      exact options_at_twenty.2 f hfield hkind
    have htouched : ∀ u : LayerSpan, u.proto = s.proto → touched u = (16, 18) := by
      intro u hu
      unfold touched
      rw [hu, hproto]
    obtain ⟨o, ho⟩ := tcp_retold R (show 12 < new_hlen R pkt i s f val by omega) hroom
    rw [hproto] at hbuf
    have hoctet := h.octet hs hstacked hreached hpad htouched (.inl (show 12 < 16 by omega)) (by omega)
    rw [hbuf, ho] at hoctet
    refine hlen_of_header_len hmeasured hend (hp.trans hproto) nofun
      (tcp_header_len_of_count R ?_ ?_ hmax hoctet) ?_ hreached.room
    · omega
    · omega
    · show 20 ≤ _
      omega
  -- The extension headers are counted by their fixers, in eight octets.
  | HopByHop =>
    intro hlen hunits
    exact h.refound_ext hs hstacked hfree hfits hreached (.inl hproto) hlen hunits
  | DestOpt =>
    intro hlen hunits
    exact h.refound_ext hs hstacked hfree hfits hreached (.inr (.inl hproto)) hlen hunits
  | Routing =>
    intro hlen hunits
    exact h.refound_ext hs hstacked hfree hfits hreached (.inr (.inr hproto)) hlen hunits
  -- Geneve is counted by its fixer too, in four octets and in six bits.
  | Geneve =>
    intro hlen hunits
    have hpad : s.proto ≠ .Padding := by rw [hproto]; exact nofun
    obtain ⟨hmeasured, hend, -⟩ := h.reread hs hstacked hreached hpad
    have hunit : unit_hlen s.proto = some ("optionlen", 4, 8, 63) := by rw [hproto]; rfl
    have hless : 4 ∣ new_hlen R pkt i s f val - 8 := by omega
    obtain ⟨hmax, hcount⟩ := h.unit_count hs hstacked hfree hfits hreached hunit
      (by rw [hproto]; rfl) (by rw [hproto]; rfl)
      (by intro P u hu; unfold fix_proto; rw [hu, hproto]) hlen hless
    rw [if_pos hproto] at hcount
    obtain ⟨o, ho⟩ := hcount
    exact hlen_of_header_len hmeasured hend (hp.trans hproto) nofun
      (geneve_header_len_of_count hlen hunits hmax ho) hlen hreached.room
  -- Raw octets and padding take whatever is there.
  | Raw =>
    exact hlen_of_rest (List.mem_of_getElem? hreached.found) (.inl (hp.trans hproto))
  | Padding =>
    exact hlen_of_rest (List.mem_of_getElem? hreached.found) (.inr (hp.trans hproto))
  | Dns =>
    intro hnone
    exact absurd (hnone ⟨.Dns, 0, 0, 0⟩ rfl) (by decide)
  -- Every other layer has a fixed header, or none that the write could have changed.
  | _ =>
    intro hnone
    rw [← hproto] at hnone ⊢
    apply h.refound_untouched hs hstacked hreached hnone
    · rw [hproto]
      exact nofun
    · rw [hproto]
      exact nofun

end Refound

/-- The field a region is written by is one of its layer's own: over a stream `Dns` has others, and
none of them is a region. -/
theorem mem_fields_of_active {R : Registry} {pkt : Packet} {i : ℕ} {s : LayerSpan} {f : FieldDesc}
    {name : String} (hs : pkt.spans[i]? = some s) (hf : pkt.active_field R i name = some f)
    (hkind : f.kind = .VarBytes) : f ∈ (R.desc s.proto).fields := by
  have hmem : f ∈ R.fields_of s.proto (0 < pkt.framing i) := by
    unfold active_field at hf
    rw [hs] at hf
    exact List.mem_of_find?_eq_some hf
  have hstream : ∀ g ∈ TCP_FIELDS, g.kind ≠ .VarBytes := by decide
  unfold Registry.fields_of at hmem
  split at hmem
  · exact absurd hkind (hstream f hmem)
  · exact hmem

/-- **Writing a region**: of a packet dissected or built, whatever its layers, `set_bytes` of a
region the header reaches keeps every octet but the layer's own count, moves the layers behind by as
much as the header grew, and leaves the value, its padding and what the stacked layer appended in
the region; and wherever a dissection of what is serialised comes to the layer again, it finds it
as the header now says. -/
theorem set_bytes_region (R : Registry) {count : ProtoId → Set ℕ}
    (hother : ∀ p, Counts (R.other p) (count p)) (pkt : Packet)
    (hmade : (∃ buf link, pkt = dissect R buf link) ∨ ∃ stack, pkt = build_with R stack)
    {i : ℕ} {s : LayerSpan} {name : String} {f : FieldDesc} (hs : pkt.spans[i]? = some s)
    (hf : pkt.active_field R i name = some f) (hkind : f.kind = .VarBytes)
    (hreach : f.bit_off / 8 ≤ s.hlen) (val : Bytes) :
    ∃ pkt', set_bytes R pkt i name val = some pkt' ∧
      Rewritten R pkt pkt' i s f val (count_cells count s.proto) ∧
      (oversize R pkt' = none → ∀ link t,
        Reached (dissect R (to_bytes R pkt').buf link) pkt' i s t (new_hlen R pkt i s f val) →
        Refound R pkt' i s t (new_hlen R pkt i s f val)) := by
  -- Either way the layers are stacked and nothing is pinned.
  have hstacked : Stacked pkt.spans pkt.buf := by
    rcases hmade with ⟨buf, link, rfl⟩ | ⟨stack, rfl⟩
    · exact dissect_stacked R buf link
    · exact build_stacked R stack
  have hfree : pkt.pinned = [] := by
    rcases hmade with ⟨buf, link, rfl⟩ | ⟨stack, rfl⟩
    · rfl
    · rfl
  have hfield := mem_fields_of_active hs hf hkind
  obtain ⟨pkt', hset, hrewritten⟩ := set_bytes_rewritten
    (counts_desc R hother s.proto) hstacked hs hf hfield hkind hreach
  refine ⟨pkt', hset, hrewritten, ?_⟩
  intro hfits link t hreached
  exact hrewritten.refound hset hs hf hfield hkind hreach hstacked hfree hfits hreached

/-- Options of an IPv4 header in front of TCP, five octets of them: padded to eight, counted in IHL
and found there by the next dissection. -/
theorem set_bytes_ipv4_options :
    ∃ pkt', set_bytes .plain (dissect .plain two_octets .Ether) 1 "options" [1, 2, 3, 4, 5] = some pkt' ∧
      Rewritten .plain (dissect .plain two_octets .Ether) pkt' 1 ⟨.Ipv4, 14, 20, 42⟩
        (.var_bytes "options" 160) [1, 2, 3, 4, 5] {0} ∧
      oversize .plain pkt' = none ∧
      ∃ t, Reached (dissect .plain (to_bytes .plain pkt').buf .Ether) pkt' 1 ⟨.Ipv4, 14, 20, 42⟩ t 28 ∧
        t.hlen = 28 := by
  -- The general theorem, with the packet read anew computed for the two layers it speaks of.
  obtain ⟨pkt', hset, hrewritten, hfound⟩ := set_bytes_region .plain (fun _ => .of_none rfl rfl)
    (dissect .plain two_octets .Ether) (.inl ⟨two_octets, .Ether, rfl⟩)
    (show (dissect .plain two_octets .Ether).spans[1]? = some ⟨.Ipv4, 14, 20, 42⟩ by decide +kernel)
    (show active_field .plain _ 1 "options" = some (.var_bytes "options" 160) by rfl)
    rfl (by decide) [1, 2, 3, 4, 5]
  have hlen : new_hlen .plain (dissect .plain two_octets .Ether) 1 ⟨.Ipv4, 14, 20, 42⟩
      (.var_bytes "options" 160) [1, 2, 3, 4, 5] = 28 := by decide +kernel
  rw [hlen] at hfound
  have hseen : (set_bytes .plain (dissect .plain two_octets .Ether) 1 "options" [1, 2, 3, 4, 5]).map
      (fun q => (oversize .plain q, q.spans[0]?.map LayerSpan.place,
        (dissect .plain (to_bytes .plain q).buf .Ether).spans.take 2)) =
      some (none, some (.Ether, 0, 14), [⟨.Ether, 0, 14, 64⟩, ⟨.Ipv4, 14, 28, 50⟩]) := by decide +kernel
  rw [hset, Option.map_some, Option.some.injEq, Prod.mk.injEq, Prod.mk.injEq] at hseen
  obtain ⟨hfits, hfront, hfresh⟩ := hseen
  have hat : ∀ j, j < 2 → (dissect .plain (to_bytes .plain pkt').buf .Ether).spans[j]? =
      [(⟨.Ether, 0, 14, 64⟩ : LayerSpan), ⟨.Ipv4, 14, 28, 50⟩][j]? := by
    intro j hj
    rw [← hfresh, List.getElem?_take_of_lt hj]
  have hreached : Reached (dissect .plain (to_bytes .plain pkt').buf .Ether) pkt' 1
      ⟨.Ipv4, 14, 20, 42⟩ ⟨.Ipv4, 14, 28, 50⟩ 28 := by
    refine ⟨hat 1 (by omega), rfl, rfl, by decide, ?_⟩
    intro j hj
    obtain rfl : j = 0 := by omega
    rw [hat 0 (by omega), hfront]
    rfl
  exact ⟨pkt', hset, hrewritten, hfits, _, hreached, hfound hfits .Ether _ hreached (by omega)⟩

/-! ## What a write does not promise -/

/-- `tftp::op`. -/
def tftp_op (hdr : Bytes) : UInt16 := if 2 ≤ hdr.length then be16 hdr 0 else 0

/-- `tftp::header_len`. -/
def tftp_header_len (hdr : Bytes) : ℕ :=
  if tftp_op hdr = 3 ∨ tftp_op hdr = 4 then 4
  else if tftp_op hdr = 1 ∨ tftp_op hdr = 2 ∨ tftp_op hdr = 5 then hdr.length
  else 2

/-- `tftp::DESC`: its options are declared behind two octets that a header may not have. -/
def tftp : FullDesc where
  name := "TFTP"
  min_len := 2
  header_len := tftp_header_len
  next _ := .Raw
  fields := [.uint "op" 0 16 1,
    (FieldDesc.uint "block" 16 16 0).when fun hdr => tftp_op hdr = 3 ∨ tftp_op hdr = 4,
    (FieldDesc.uint "errorcode" 16 16 0).when fun hdr => tftp_op hdr = 5,
    .var_bytes "options" 32]
  build_len := 2

/-- TFTP as well. -/
def Registry.with_tftp : Registry :=
  { Registry.plain with other := fun p => if p = .other 68 then tftp else raw_full_desc "Raw" }

/-- The layers of a packet that is not refused, and those a dissection finds in what it serialises
to. -/
def sent (R : Registry) (link : ProtoId) (pkt : Packet) :
    Option (List (ProtoId × ℕ × ℕ) × List (ProtoId × ℕ × ℕ)) :=
  match oversize R pkt with
  | some _ => none
  | none => some (pkt.spans.map LayerSpan.place,
      (dissect R (to_bytes R pkt).buf link).spans.map LayerSpan.place)

/-- **What a write does not promise**: nine octets of Hop-by-Hop options fill no whole units, so the
count stays what it was and a dissection finds eight octets of header, not eleven; a TFTP header too
short for its options takes them where it ends, and they do not read back; and a layer that nothing
names is not found. -/
theorem set_bytes_not_found :
    (set_bytes .plain (build_with .plain [(.Ipv6, none), (.HopByHop, none)]) 1 "options"
        (List.replicate 9 1)).bind (sent .plain .Ipv6) =
      some ([(.Ipv6, 0, 40), (.HopByHop, 40, 11)], [(.Ipv6, 0, 40), (.HopByHop, 40, 8), (.Raw, 48, 3)]) ∧
    (set_bytes .with_tftp (build_with .with_tftp [(.other 68, none)]) 0 "options" [1, 2, 3, 4]).map
        (fun q => (oversize .with_tftp q, (q.header 0).drop 4)) = some (none, [3, 4]) ∧
    (set_bytes .plain (build_with .plain [(.Ether, none), (.Tcp, none)]) 1 "options"
        [1, 2, 3, 4]).bind (sent .plain .Ether) =
      some ([(.Ether, 0, 14), (.Tcp, 14, 24)], [(.Ether, 0, 14), (.Raw, 14, 24)]) ∧
    ¬ ∀ (R : Registry) (stack : List (ProtoId × Option Bytes)) (pkt' : Packet) (i : ℕ)
      (s : LayerSpan) (name : String) (f : FieldDesc) (val : Bytes) (link : ProtoId)
      (before after : List (ProtoId × ℕ × ℕ)),
      stack.head?.map Prod.fst = some link → (build_with R stack).spans[i]? = some s →
      (build_with R stack).active_field R i name = some f → f.kind = .VarBytes →
      set_bytes R (build_with R stack) i name val = some pkt' →
      sent R link pkt' = some (before, after) → after[i]? = before[i]? := by
  -- One case refutes the general claim: nine octets in a header counted in units of eight.
  have hunits : (set_bytes .plain (build_with .plain [(.Ipv6, none), (.HopByHop, none)]) 1 "options"
      (List.replicate 9 1)).bind (sent .plain .Ipv6) =
      some ([(.Ipv6, 0, 40), (.HopByHop, 40, 11)],
        [(.Ipv6, 0, 40), (.HopByHop, 40, 8), (.Raw, 48, 3)]) := by
    decide +kernel
  refine ⟨hunits, by decide +kernel, by decide +kernel, ?_⟩
  intro hall
  obtain ⟨pkt', hset, hsent⟩ := Option.bind_eq_some_iff.1 hunits
  have hfound := hall .plain [(.Ipv6, none), (.HopByHop, none)] pkt' 1 ⟨.HopByHop, 40, 8, 8⟩ "options"
    (.var_bytes "options" 16) (List.replicate 9 1) .Ipv6 _ _ rfl (by decide +kernel) rfl rfl hset hsent
  exact absurd hfound (by decide)

end Wiry.Packet
