/-
`crates/wiry-core/src/compute.rs`: what serialisation recomputes, one layer at a
time and innermost first, and the pseudo-headers of `checksum.rs` it sums.

A step only ever changes the buffer, and everything else it reads of a packet is
the same for every step of one pass.
-/
import Wiry.Packet.Checksum
import Wiry.Packet.Packet

set_option autoImplicit false

namespace Wiry.Packet

/-! ## Pseudo-headers -/

/-- `pseudo_v4`. -/
def pseudo_v4 (src dst : Bytes) (proto : UInt8) (tlen : UInt16) : UInt32 :=
  fold ((be16 src 0).toUInt32 + (be16 src 2).toUInt32 + (be16 dst 0).toUInt32 +
    (be16 dst 2).toUInt32 + proto.toUInt32 + tlen.toUInt32)

/-- `pseudo_v6`. -/
def pseudo_v6 (src dst : Bytes) (next : UInt8) (tlen : UInt32) : UInt32 :=
  fold (sum_words dst (sum_words src 0) + tlen >>> 16 + (tlen &&& 0xffff) + next.toUInt32)

/-- `finish`. -/
def finish (sum : UInt32) : UInt16 := (~~~fold sum).toUInt16

/-! ## What the packet as a whole says -/

/-- `len_field`: the field `content_len` reads. -/
def len_field (p : ProtoId) : Option String :=
  match p with
  | .Ipv4 | .Udp | .Pppoe | .PppoeDisc => some "len"
  | .Ipv6 => some "plen"
  | .GtpU => some "length"
  | _ => none

/-- `is_clipped`: a length field describes more octets than the buffer holds. Neither a resized
packet nor a length the user assigned says so. -/
def is_clipped (R : Registry) (pkt : Packet) : Bool :=
  !pkt.resized && pkt.spans.zipIdx.any fun (s, i) =>
    if (len_field s.proto).any (pkt.is_pinned i) then false
    else (R.desc s.proto).content_len.any fun f => s.off + f (pkt.header i) > pkt.buf.length

/-- `content_end`: trailing `Padding` counts towards no enclosing length or checksum. -/
def content_end (pkt : Packet) : ℕ :=
  match pkt.spans.find? fun s => s.proto = .Padding with
  | some s => min s.off pkt.buf.length
  | none => pkt.buf.length

/-- `span_bounds`: where a layer starts, its header's octets and where the content ends. -/
def span_bounds (pkt : Packet) (s : LayerSpan) : ℕ × ℕ × ℕ :=
  (s.off, min s.hlen (pkt.buf.length - s.off), content_end pkt)

/-- `unit_hlen`: where a header counts its own length in units: the field, the unit, the fixed part
the count excludes and the largest count. -/
def unit_hlen (p : ProtoId) : Option (String × ℕ × ℕ × ℕ) :=
  match p with
  | .HopByHop | .DestOpt | .Routing => some ("len", 8, 8, 255)
  | .Geneve => some ("optionlen", 4, 8, 63)
  | _ => none

/-- `tail_len`: a length of the octets that follow a fixed-width header: the field's octet offset
and the width it excludes. -/
def tail_len (p : ProtoId) : Option (ℕ × ℕ) :=
  match p with
  | .Ipv6 => some (4, 40)
  | .Pppoe | .PppoeDisc => some (4, 6)
  | .GtpU => some (2, 8)
  | _ => none

/-- `payload_len`: the field and the value it should hold. -/
def payload_len (R : Registry) (pkt : Packet) (i : ℕ) (s : LayerSpan) : Option (FieldDesc × ℤ) :=
  match payload_len_of s.proto with
  | none => none
  | some (name, add) =>
    match pkt.active_field R i name with
    | none => none
    | some f =>
      let (off, hlen, end_) := span_bounds pkt s
      some (f, ((end_ - (off + hlen) : ℕ) : ℤ) + add)

/-- The sixteen-bit length a layer would be given, and what holds it. -/
def wide_len (pkt : Packet) (i : ℕ) (s : LayerSpan) (n : ℕ) : Option (String × ℕ) :=
  match s.proto with
  | .Ipv4 => some ("IP.len", n)
  | .Ipv6 => some ("IPv6.plen", n - 40)
  | .Udp => some ("UDP.len", n)
  | .Tcp => some ("the TCP pseudo-header length", n)
  | .Dns => if pkt.framing i > 0 then some ("DNS.length", n - pkt.framing i) else none
  | .Pppoe | .PppoeDisc => some ("PPPoE.len", n - 6)
  | .GtpU => some ("GTP_U_Header.length", n - 8)
  | _ => none

/-- `oversize`: a length no field in the packet can hold. -/
def oversize_of (R : Registry) (pkt : Packet) : Option String :=
  if is_clipped R pkt then none
  else
    let layers := pkt.spans.zipIdx
    let units := layers.findSome? fun (s, i) =>
      match unit_hlen s.proto with
      | none => none
      | some (name, unit, fixed, max) =>
        if s.hlen > fixed + max * unit ∧ !pkt.is_pinned i name then
          some s!"{(R.desc s.proto).name}.{name} cannot describe a {s.hlen}-byte header"
        else none
    let payloads := layers.findSome? fun (s, i) =>
      match payload_len R pkt i s with
      | none => none
      | some (f, n) =>
        if n ≥ 0 ∧ !fits f n.toNat ∧ !pkt.is_pinned i f.name then
          some s!"{(R.desc s.proto).name}.{f.name} cannot hold {n} bytes"
        else none
    let lens := layers.findSome? fun (s, i) =>
      match wide_len pkt i s (content_end pkt - s.off) with
      | none => none
      | some (what, n) => if n > 65535 then some s!"{what} cannot hold {n} bytes" else none
    match units with
    | some e => some e
    | none =>
      match payloads with
      | some e => some e
      | none => if pkt.buf.length ≤ 65535 then none else lens

/-! ## One layer -/

def put16 (buf : Bytes) (pos : ℕ) (v : UInt16) : Bytes := put buf pos (octets_of 2 v.toNat)

/-- `fix_ipv4`. -/
def fix_ipv4 (pkt : Packet) (i : ℕ) (s : LayerSpan) (clipped : Bool) : Packet :=
  let (off, hlen, end_) := span_bounds pkt s
  if off + 20 > end_ then pkt
  else
    let buf :=
      if !clipped && !pkt.is_pinned i "len" then
        put16 pkt.buf (off + 2) (UInt16.ofNat (end_ - off))
      else pkt.buf
    if pkt.is_pinned i "chksum" then { pkt with buf }
    else
      let buf := put16 buf (off + 10) 0
      { pkt with buf := put16 buf (off + 10) (ones_complement (slice buf off (off + hlen))) }

/-- `transport_seed`. -/
def transport_seed (buf : Bytes) (spans : List LayerSpan) (i : ℕ) (proto : UInt8) (tlen : ℕ) :
    Option UInt32 :=
  match enclosing_addrs buf spans i with
  | none => none
  | some (src, dst, v6) =>
    if v6 then some (pseudo_v6 src dst proto (UInt32.ofNat tlen))
    else some (pseudo_v4 src dst proto (UInt16.ofNat tlen))

/-- `fix_udp`: an all-zero checksum means "not computed", so all ones is sent for it. -/
def fix_udp (pkt : Packet) (i : ℕ) (s : LayerSpan) (clipped : Bool) : Packet :=
  let (off, _, end_) := span_bounds pkt s
  if clipped ∨ off + 8 > end_ then pkt
  else
    let tlen := end_ - off
    let buf := if !pkt.is_pinned i "len" then put16 pkt.buf (off + 4) (UInt16.ofNat tlen) else pkt.buf
    if pkt.is_pinned i "chksum" then { pkt with buf }
    else
      let buf := put16 buf (off + 6) 0
      match transport_seed buf pkt.spans i 17 tlen with
      | none => { pkt with buf }
      | some seed =>
        let c := finish (sum16 (slice buf off end_) seed)
        { pkt with buf := put16 buf (off + 6) (if c = 0 then 0xffff else c) }

/-- A checksum over the pseudo-header: zeroed, and left so where no IP layer encloses it. -/
def fix_seeded (pkt : Packet) (i : ℕ) (s : LayerSpan) (proto : UInt8) (pos : ℕ) : Packet :=
  let (off, _, end_) := span_bounds pkt s
  let buf := put16 pkt.buf (off + pos) 0
  match transport_seed buf pkt.spans i proto (end_ - off) with
  | none => { pkt with buf }
  | some seed => { pkt with buf := put16 buf (off + pos) (finish (sum16 (slice buf off end_) seed)) }

/-- `fix_tcp`. -/
def fix_tcp (pkt : Packet) (i : ℕ) (s : LayerSpan) : Packet :=
  let (off, _, end_) := span_bounds pkt s
  if off + 20 > end_ ∨ pkt.is_pinned i "chksum" then pkt else fix_seeded pkt i s 6 16

/-- `fix_icmpv6`. -/
def fix_icmpv6 (pkt : Packet) (i : ℕ) (s : LayerSpan) : Packet :=
  let (off, _, end_) := span_bounds pkt s
  if off + 4 > end_ ∨ pkt.is_pinned i "cksum" then pkt else fix_seeded pkt i s 58 2

/-- `fix_dns_length`: the prefix counts the message, which is the layer's own header. -/
def fix_dns_length (pkt : Packet) (i : ℕ) (s : LayerSpan) : Packet :=
  let (off, hlen, _) := span_bounds pkt s
  let pre := pkt.framing i
  if hlen < pre ∨ pkt.is_pinned i "length" then pkt
  else { pkt with buf := put16 pkt.buf off (UInt16.ofNat (hlen - pre)) }

/-- `fix_unit_hlen`: a region that fills no whole number of units, or too many, is left alone. -/
def fix_unit_hlen (pkt : Packet) (i : ℕ) (s : LayerSpan) : Packet :=
  match unit_hlen s.proto with
  | none => pkt
  | some (name, unit, fixed, max) =>
    let (off, hlen, _) := span_bounds pkt s
    if hlen < fixed ∨ off ≥ pkt.buf.length ∨ pkt.is_pinned i name then pkt
    else
      let extra := hlen - fixed
      if extra % unit ≠ 0 ∨ extra / unit > max then pkt
      else
        let n := UInt8.ofNat (extra / unit)
        if s.proto = .Geneve then
          { pkt with buf := pkt.buf.modify off fun b => (b &&& 0xc0) ||| n }
        else { pkt with buf := pkt.buf.set (off + 1) n }

/-- `fix_payload_len`. -/
def fix_payload_len (R : Registry) (pkt : Packet) (i : ℕ) (s : LayerSpan) : Packet :=
  match payload_len R pkt i s with
  | none => pkt
  | some (f, n) =>
    if pkt.is_pinned i f.name ∨ n < 0 ∨ !fits f n.toNat then pkt
    else
      let (off, hlen, _) := span_bounds pkt s
      { pkt with buf := put pkt.buf off (write_uint (slice pkt.buf off (off + hlen)) f n.toNat) }

/-- `fix_tail_len`. -/
def fix_tail_len (pkt : Packet) (i : ℕ) (s : LayerSpan) : Packet :=
  match tail_len s.proto with
  | none => pkt
  | some (pos, fixed) =>
    let (off, _, end_) := span_bounds pkt s
    if off + fixed > end_ ∨ pkt.is_pinned i ((len_field s.proto).getD "len") then pkt
    else { pkt with buf := put16 pkt.buf (off + pos) (UInt16.ofNat (end_ - off - fixed)) }

/-- `fix_bare_checksum`: over the header and its payload, with no pseudo-header. -/
def fix_bare_checksum (pkt : Packet) (i : ℕ) (s : LayerSpan) (pos min : ℕ) : Packet :=
  let (off, _, end_) := span_bounds pkt s
  if off + min > end_ ∨ pkt.is_pinned i "chksum" then pkt
  else
    let buf := put16 pkt.buf (off + pos) 0
    { pkt with buf := put16 buf (off + pos) (ones_complement (slice buf off end_)) }

/-- The Checksum Present bit of a GRE header at `off`. -/
def sum_present (buf : Bytes) (off : ℕ) : Bool := buf[off]?.any fun b => b &&& 0x80 != 0

/-- `fix_gre`: the field exists only where the Checksum Present bit is set. -/
def fix_gre (pkt : Packet) (i : ℕ) (s : LayerSpan) : Packet :=
  if sum_present pkt.buf s.off then fix_bare_checksum pkt i s 4 8 else pkt

/-- The lengths of one layer that a clipped capture does not back. -/
def fix_lengths (R : Registry) (pkt : Packet) (i : ℕ) (s : LayerSpan) : Packet :=
  fix_payload_len R (fix_unit_hlen (fix_tail_len pkt i s) i s) i s

/-- The checksums and lengths of one layer by its protocol. -/
def fix_proto (clipped : Bool) (pkt : Packet) (i : ℕ) (s : LayerSpan) : Packet :=
  match s.proto with
  | .Ipv4 => fix_ipv4 pkt i s clipped
  | .Udp => fix_udp pkt i s clipped
  | .Tcp => if clipped then pkt else fix_tcp pkt i s
  | .Icmp => if clipped then pkt else fix_bare_checksum pkt i s 2 4
  | .Icmpv6 => if clipped then pkt else fix_icmpv6 pkt i s
  | .Dns => if clipped ∨ pkt.framing i = 0 then pkt else fix_dns_length pkt i s
  | .Gre => if clipped then pkt else fix_gre pkt i s
  | _ => pkt

/-- One turn of `recompute`. -/
def fix_layer (R : Registry) (clipped : Bool) (pkt : Packet) (i : ℕ) : Packet :=
  match pkt.spans[i]? with
  | none => pkt
  | some s => fix_proto clipped (if clipped then pkt else fix_lengths R pkt i s) i s

/-- The turns for layers `n - 1` down to `m`. -/
def fix_down (R : Registry) (clipped : Bool) (m n : ℕ) (pkt : Packet) : Packet :=
  (List.range' m (n - m)).foldr (fun i pkt => fix_layer R clipped pkt i) pkt

/-- `recompute`: whether the capture is clipped is read before anything is written, and transport
checksums need a settled payload. -/
def recompute (R : Registry) (pkt : Packet) : Packet :=
  fix_down R (is_clipped R pkt) 0 pkt.spans.length pkt

end Wiry.Packet
