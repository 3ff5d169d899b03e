/-
A capture that holds less than its lengths describe, written to and serialised:
`recompute` and `is_clipped` of `crates/wiry-core/src/compute.rs`.

Whether anything is missing is decided once, from any layer's length, and no turn
of the pass then writes more than the checksum of an IPv4 header.
-/
import Wiry.Packet.Recount
import Wiry.Packet.Writes

set_option autoImplicit false

namespace Wiry.Packet

open Bits

/-! ## The pass over a clipped capture -/

/-- The two checksum octets of an IPv4 header. -/
def Ipv4Sum (spans : List LayerSpan) (n : ℕ) : Prop :=
  ∃ s ∈ spans, s.proto = .Ipv4 ∧ s.off + 10 ≤ n ∧ n < s.off + 12

section Pass

variable (R : Registry) {pkt : Packet}

/-- With its lengths left alone an IPv4 header has its checksum written, or nothing. -/
theorem fix_ipv4_clipped (pkt : Packet) (i : ℕ) (s : LayerSpan) :
    Touches pkt (fix_ipv4 pkt i s true) s (10, 12) := by
  unfold fix_ipv4 span_bounds
  dsimp only
  rw [Bool.not_true, Bool.false_and, if_neg Bool.false_ne_true]
  split
  · exact .refl pkt s _
  · rename_i hroom
    have hlen : s.off + 12 ≤ pkt.buf.length := by
      have hend := content_end_le pkt
      omega
    split
    · exact .refl pkt s _
    · refine ⟨_, rfl, ?_⟩
      apply Rewrites.put16 _ _ (by omega) (by omega) hlen
      exact Rewrites.refl.put16 _ (by omega) (by omega) hlen

/-- The turn of any other layer writes nothing. -/
theorem fix_proto_clipped (pkt : Packet) (i : ℕ) {s : LayerSpan} (hs : s.proto ≠ .Ipv4) :
    fix_proto true pkt i s = pkt := by
  unfold fix_proto
  split
  · rename_i hproto
    exact absurd hproto hs
  · simp [fix_udp]
  · rfl
  · rfl
  · rfl
  · simp
  · rfl
  · rfl

/-- **What one turn over a clipped capture writes.** -/
theorem fix_layer_clipped (pkt : Packet) (i : ℕ) :
    ∃ buf, fix_layer R true pkt i = { pkt with buf } ∧ buf.length = pkt.buf.length ∧
      ∀ n, ¬Ipv4Sum pkt.spans n → buf[n]? = pkt.buf[n]? := by
  cases hs : pkt.spans[i]? with
  | none => exact ⟨pkt.buf, fix_layer_of_none i R true hs, rfl, fun _ _ => rfl⟩
  | some s =>
    have hturn : fix_layer R true pkt i = fix_proto true pkt i s := by
      unfold fix_layer
      rw [hs]
      rfl
    rw [hturn]
    by_cases hproto : s.proto = .Ipv4
    · obtain ⟨buf, heq, htouch⟩ := fix_ipv4_clipped pkt i s
      refine ⟨buf, ?_, htouch.length, ?_⟩
      · unfold fix_proto
        rw [hproto]
        exact heq
      · intro n hn
        apply htouch.frame
        by_contra hin
        exact hn ⟨s, List.mem_of_getElem? hs, hproto, by dsimp only at hin; omega⟩
    · exact ⟨pkt.buf, fix_proto_clipped pkt i hproto, rfl, fun _ _ => rfl⟩

/-- **What the turns together write.** -/
theorem fix_down_clipped (m n : ℕ) :
    ∃ buf, fix_down R true m n pkt = { pkt with buf } ∧ buf.length = pkt.buf.length ∧
      ∀ k, ¬Ipv4Sum pkt.spans k → buf[k]? = pkt.buf[k]? := by
  unfold fix_down
  -- The layers are taken innermost first, and each finds the same layers as the one before it.
  induction List.range' m (n - m) with
  | nil => exact ⟨pkt.buf, rfl, rfl, fun _ _ => rfl⟩
  | cons i turns ih =>
    obtain ⟨buf, hrest, hlen, hframe⟩ := ih
    obtain ⟨buf', heq, hlen', hframe'⟩ := fix_layer_clipped R { pkt with buf } i
    refine ⟨buf', ?_, hlen'.trans hlen, ?_⟩
    · rw [List.foldr_cons, hrest]
      exact heq
    · intro k hk
      exact (hframe' k hk).trans (hframe k hk)

end Pass

/-! ## Packets that say they are clipped -/

/-- Some layer's length field describes more octets than the buffer holds. -/
def Clipped (R : Registry) (pkt : Packet) : Prop :=
  ∃ i s len, pkt.spans[i]? = some s ∧ (R.desc s.proto).content_len = some len ∧
    pkt.buf.length < s.off + len (pkt.header i)

section Said

variable (R : Registry) {pkt : Packet}

theorem refresh_spans (pkt : Packet) (i : ℕ) :
    (refresh_totals pkt).spans[i]? =
      pkt.spans[i]?.map fun s => { s with total := pkt.buf.length - s.off } :=
  List.getElem?_map

theorem refresh_header (pkt : Packet) (i : ℕ) : (refresh_totals pkt).header i = pkt.header i := by
  unfold Packet.header
  rw [refresh_spans]
  cases pkt.spans[i]? with
  | none => rfl
  | some s => rfl

theorem ipv4Sum_refresh (pkt : Packet) (n : ℕ) :
    Ipv4Sum (refresh_totals pkt).spans n ↔ Ipv4Sum pkt.spans n := by
  unfold Ipv4Sum refresh_totals
  simp

/-- Unless it was resized or a length was assigned, that is what the code goes by. -/
theorem is_clipped_of (hsame : pkt.resized = false) (hfree : pkt.pinned = [])
    (h : Clipped R pkt) : is_clipped R (refresh_totals pkt) = true := by
  obtain ⟨i, s, len, hs, hlen, hmore⟩ := h
  have hfree' : (refresh_totals pkt).pinned = [] := hfree
  have hsame' : (refresh_totals pkt).resized = false := hsame
  unfold is_clipped
  rw [hsame', Bool.not_false, Bool.true_and, List.any_eq_true]
  refine ⟨({ s with total := pkt.buf.length - s.off }, i), ?_, ?_⟩
  · rw [List.mk_mem_zipIdx_iff_getElem?, refresh_spans, hs]
    rfl
  · have hpins : (len_field s.proto).any ((refresh_totals pkt).is_pinned i) = false := by
      cases len_field s.proto with
      | none => rfl
      | some name => exact is_pinned_nil hfree' i name
    dsimp only
    rw [hpins, if_neg Bool.false_ne_true, hlen, refresh_header]
    exact decide_eq_true hmore

/-- **Serialising a clipped capture writes IPv4 checksums only.** -/
theorem to_bytes_clipped (hclipped : is_clipped R (refresh_totals pkt) = true) :
    (to_bytes R pkt).buf.length = pkt.buf.length ∧
      ∀ n, ¬Ipv4Sum pkt.spans n → (to_bytes R pkt).buf[n]? = pkt.buf[n]? := by
  unfold to_bytes
  split
  · obtain ⟨buf, heq, hlen, hframe⟩ :=
      @fix_down_clipped R (refresh_totals pkt) 0 (refresh_totals pkt).spans.length
    unfold recompute
    rw [hclipped, heq]
    refine ⟨hlen, fun n hn => hframe n ?_⟩
    rw [ipv4Sum_refresh]
    exact hn
  · exact ⟨rfl, fun _ _ => rfl⟩

end Said

/-! ## A write to a dissected packet -/

section Written

variable (R : Registry) {buf : Bytes} {link : ProtoId}

/-- A dissected IPv4 layer has the whole of its shortest header. -/
theorem ipv4_header_held {s : LayerSpan} (hs : s ∈ (dissect R buf link).spans)
    (hproto : s.proto = .Ipv4) : 20 ≤ s.hlen := by
  obtain ⟨spans, stop, hwalked, heq⟩ := dissect_walked R buf link
  rw [heq, List.mem_append] at hs
  rcases hs with hs | hs
  · rcases hwalked.measured s hs with ⟨hraw, -⟩ | ⟨parent, pre, -, hroom, hhlen⟩
    · rw [hraw] at hproto
      cases hproto
    · have hmin : (R.layers.table.desc s.proto).min_len = 20 := by
        rw [hproto, R.table_desc]
        rfl
      rw [hmin] at hroom hhlen
      omega
  · split at hs
    · rw [List.mem_singleton.1 hs] at hproto
      cases hproto
    · cases hs

/-- What is asked of the octets `to_bytes` gives for a packet one of whose fields was written:
nothing besides that field and the checksums of IPv4 headers differs from the capture, and the
serialisation itself leaves every other octet of every header. -/
structure LengthsKept (pkt pkt' : Packet) (s : LayerSpan) (f : FieldDesc) : Prop where
  length : (to_bytes R pkt').buf.length = pkt.buf.length
  field : ∀ j, ¬OwnInHeader pkt s f j → ¬Ipv4Sum pkt.spans (j / 8) →
    bit (to_bytes R pkt').buf j = bit pkt.buf j
  headers : ∀ (i : ℕ) (t : LayerSpan), pkt.spans[i]? = some t → ∀ k < t.hlen,
    (t.proto = .Ipv4 → k ≠ 10 ∧ k ≠ 11) →
      (to_bytes R pkt').buf[t.off + k]? = pkt'.buf[t.off + k]?

variable {layer : ℕ} {name : String} {v : ℕ} {pkt' : Packet}

/-- An octet of a header is no other layer's checksum. -/
theorem not_ipv4Sum {i k : ℕ} {t : LayerSpan} (ht : (dissect R buf link).spans[i]? = some t)
    (hk : k < t.hlen) (hown : t.proto = .Ipv4 → k ≠ 10 ∧ k ≠ 11) :
    ¬Ipv4Sum (dissect R buf link).spans (t.off + k) := by
  rintro ⟨s, hs, hproto, hlo, hhi⟩
  have hstacked := dissect_stacked R buf link
  have hheld := ipv4_header_held R hs hproto
  obtain ⟨j, hj⟩ := List.getElem?_of_mem hs
  rcases Nat.lt_trichotomy i j with hij | rfl | hij
  · have hle := hstacked.le hij ht hj
    omega
  · rw [hj, Option.some_inj] at ht
    subst ht
    have hne := hown hproto
    omega
  · have hle := hstacked.le hij hj ht
    omega

/-- A write to a field nothing recomputes changes the octets and no more. -/
theorem set_uint_keeps {pkt : Packet} (hset : set_uint R pkt layer name v = some pkt')
    {s : LayerSpan} {f : FieldDesc} (hs : pkt.spans[layer]? = some s)
    (hf : pkt.active_field R layer name = some f) (hplain : f.computed = false) :
    pkt'.spans = pkt.spans ∧ pkt'.resized = pkt.resized ∧ pkt'.pinned = pkt.pinned := by
  unfold set_uint at hset
  rw [hs, hf] at hset
  dsimp only at hset
  split at hset
  · cases hset
  · rw [hplain, if_neg (fun h => Bool.false_ne_true h.1), Option.some_inj] at hset
    subst hset
    exact ⟨rfl, rfl, rfl⟩

/-- **A clipped capture keeps its lengths**: of a dissected packet a field of which was written,
that no recomputation is due for, `to_bytes` writes no more than the checksums of IPv4 headers while
some length still describes more octets than there are. -/
theorem clipped_capture_keeps
    (hset : set_uint R (dissect R buf link) layer name v = some pkt') {s : LayerSpan}
    {f : FieldDesc} (hs : (dissect R buf link).spans[layer]? = some s)
    (hf : (dissect R buf link).active_field R layer name = some f) (hplain : f.computed = false)
    (hclipped : Clipped R pkt') : LengthsKept R (dissect R buf link) pkt' s f := by
  have hcall : (call_set_uint R (dissect R buf link) layer name v).2 = pkt' := by
    unfold call_set_uint
    rw [hset]
  obtain ⟨hsize, hbits⟩ := set_uint_only_own hs hf v
  rw [hcall] at hsize hbits
  obtain ⟨hspans, hsame, hfree⟩ := set_uint_keeps R hset hs hf hplain
  obtain ⟨hlen, hframe⟩ := to_bytes_clipped R (is_clipped_of R hsame hfree hclipped)
  rw [hspans] at hframe
  refine ⟨hlen.trans hsize, ?_, ?_⟩
  · intro j hown hsum
    rw [← hbits j hown]
    exact bit_congr rfl (hframe (j / 8) hsum)
  · intro i t ht k hk hother
    exact hframe _ (not_ipv4Sum R ht hk hother)

end Written

/-- A segment whose IPv4 length counts two octets that were not captured. -/
def cut_segment : Bytes := two_octets.take 54

/-- Its time to live is written; its lengths and the TCP checksum stay. -/
theorem clipped_capture_keeps_ttl :
    ∃ pkt', set_uint .plain (dissect .plain cut_segment .Ether) 1 "ttl" 9 = some pkt' ∧
      LengthsKept .plain (dissect .plain cut_segment .Ether) pkt' ⟨.Ipv4, 14, 20, 40⟩
        (.uint "ttl" 64 8 64) := by
  obtain ⟨pkt', hset, hspans, hbuf⟩ :=
    @set_uint_some .plain (dissect .plain cut_segment .Ether) 1 "ttl" ⟨.Ipv4, 14, 20, 40⟩
      (.uint "ttl" 64 8 64) rfl rfl 9 (by decide)
  refine ⟨pkt', hset, clipped_capture_keeps .plain hset rfl rfl rfl ?_⟩
  refine ⟨1, ⟨.Ipv4, 14, 20, 40⟩, _, ?_, rfl, ?_⟩
  · rw [hspans]
    rfl
  · unfold Packet.header
    rw [hspans, hbuf]
    decide +kernel

/-! ## A length that is no computed field -/

/-- `modbus::content_len`: Length counts the unit identifier and the PDU after it. -/
def modbus_content_len (hdr : Bytes) : ℕ := if 6 ≤ hdr.length then 6 + (be16 hdr 4).toNat else 0

/-- `modbus::looks_like`: the protocol identifier is zero for Modbus. -/
def modbus_looks_like (p : Bytes) : Bool := 8 ≤ p.length && be16 p 2 == 0

/-- `modbus::DESC`. -/
def modbus : FullDesc where
  name := "ModbusADU"
  min_len := 8
  header_len _ := 8
  next _ := .Raw
  content_len := some modbus_content_len
  fields := [.uint "transId" 0 16 0, .uint "protoId" 16 16 0, .uint "len" 32 16 2,
    .uint "unitId" 48 8 0, .uint "funcCode" 56 8 3]
  build_len := 8

/-- Modbus, by the port it is found at. -/
def Registry.with_modbus : Registry :=
  { Registry.plain with
    other := fun p => if p = .other 85 then modbus else raw_full_desc "Raw"
    by_tcp_port := fun sport dport payload =>
      if (dport = 502 ∨ sport = 502) ∧ modbus_looks_like payload = true then some (.other 85)
      else none }

/-- The first segment of a Modbus message of a hundred octets more than it carries. -/
def modbus_segment : Bytes :=
  tcp_frame [10, 0, 0, 1] [10, 0, 0, 2] 1024 502 7 0x18 [0, 1, 0, 0, 0, 102, 1, 3]

/-- **A length written to say what is there ends the clipping**: the TCP checksum of the capture is
then computed like any other. -/
theorem assigned_length_recomputes :
    Clipped .with_modbus (dissect .with_modbus modbus_segment .Ether) ∧
      ∃ pkt', set_uint .with_modbus (dissect .with_modbus modbus_segment .Ether) 3 "len" 2 =
          some pkt' ∧
        (dissect .with_modbus modbus_segment .Ether).spans[3]? = some ⟨.other 85, 54, 8, 8⟩ ∧
        (dissect .with_modbus modbus_segment .Ether).active_field .with_modbus 3 "len" =
          some (.uint "len" 32 16 2) ∧
        ¬LengthsKept .with_modbus (dissect .with_modbus modbus_segment .Ether) pkt'
          ⟨.other 85, 54, 8, 8⟩ (.uint "len" 32 16 2) := by
  refine ⟨⟨3, ⟨.other 85, 54, 8, 8⟩, modbus_content_len, rfl, rfl, by decide +kernel⟩, ?_⟩
  have hcall : (call_set_uint .with_modbus (dissect .with_modbus modbus_segment .Ether) 3 "len"
      2).1 = true := by decide +kernel
  have hsum : (to_bytes .with_modbus (call_set_uint .with_modbus
      (dissect .with_modbus modbus_segment .Ether) 3 "len" 2).2).buf[34 + 16]? ≠
        (call_set_uint .with_modbus (dissect .with_modbus modbus_segment .Ether) 3 "len"
          2).2.buf[34 + 16]? := by decide +kernel
  unfold call_set_uint at hcall hsum
  split at hcall
  · rename_i pkt' hset
    rw [hset] at hsum
    refine ⟨pkt', hset, rfl, rfl, fun hkept => hsum ?_⟩
    exact hkept.headers 2 ⟨.Tcp, 34, 20, 28⟩ rfl 16 (by decide) nofun
  · cases hcall

end Wiry.Packet
