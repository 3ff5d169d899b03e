/-
The layer descriptions an edit works by: `crates/wiry-core/src/proto.rs` and the
field tables of `layers/ether.rs`, `dot1q.rs`, `ipv4.rs`, `ipv6.rs`,
`ipv6_ext.rs`, `udp.rs`, `tcp.rs`, `icmp.rs`, `icmpv6.rs`, `gre.rs`,
`geneve.rs`, `gtp.rs`, `pppoe.rs`, `dns.rs` and the six Bluetooth layers that
declare a payload length.

Every other layer is generated or registered at run time. What is asked of one
is `FullDesc`, and `Registry` holds whatever they answer.
-/
import Wiry.Packet.Field

set_option autoImplicit false

namespace Wiry.Packet

/-- A function handed `&mut [u8]`: it may change octets, never how many there are. -/
structure Hook (α : Type) where
  run : Bytes → α → Bytes
  length_run : ∀ hdr a, (run hdr a).length = hdr.length

/-- The entries of `ProtoDesc` that construction and edits read. -/
structure FullDesc extends ProtoDesc where
  name : String
  fields : List FieldDesc
  build_len : ℕ
  /-- Whether options are named by a table. -/
  opt_table : Bool := false
  /-- Written after option octets are appended (IPv4 ihl, TCP data offset). -/
  set_hlen : Option (Hook ℕ) := none
  bind_next : Option (Hook ProtoId) := none
  /-- Octets appended when a layer is stacked under this one. -/
  bind_next_bytes : Option (ProtoId → Bytes) := none
  /-- `repeat::sync` of the layer's repeating group. -/
  sync : Option (Hook Unit) := none

/-- `Bind`: when every condition holds in the parent's header, `child` follows it. -/
structure Bind where
  parent : ProtoId
  child : ProtoId
  conds : List (FieldDesc × ℕ)

/-- The layers, generated dispatch tables and declared bindings that are not embedded here. -/
structure Registry where
  other : ProtoId → FullDesc
  resolve : ℕ → Bytes → ProtoId
  binds : List Bind
  by_layer : ProtoId → Bytes → Option ProtoId
  by_ethertype : UInt16 → Option ProtoId
  by_ethertype_of : ProtoId → Option UInt16
  by_ipproto : UInt8 → Option ProtoId
  by_ipproto_of : ProtoId → Option UInt8
  by_icmpv6_type : UInt8 → Option ProtoId
  by_icmpv6_type_of : ProtoId → Option UInt8
  by_udp_port : UInt16 → UInt16 → Bytes → Option ProtoId
  by_udp_port_of : ProtoId → Option UInt16
  by_tcp_port : UInt16 → UInt16 → Bytes → Option ProtoId
  by_tcp_port_of : ProtoId → Option UInt16
  base_of : ProtoId → Option ProtoId
  bind_layer : ProtoId → Hook ProtoId
  /-- No generated binding writes to an IPv4 or a TCP header. -/
  bind_layer_core : ∀ p, p = .Ipv4 ∨ p = .Tcp → ∀ hdr q, (bind_layer p).run hdr q = hdr

section Descriptions

variable (R : Registry)

/-- `search_binds`. -/
def Registry.bound_next (parent : ProtoId) (hdr : Bytes) : Option ProtoId :=
  (R.binds.find? fun b => b.parent = parent ∧ b.conds.all fun c => read_uint hdr c.1 == c.2).map
    Bind.child

/-- `write_bind`: the values that make dissection find `child` again. -/
def Registry.apply_bind (hdr : Bytes) (parent child : ProtoId) : Bytes :=
  match R.binds.find? fun b => b.parent = parent ∧ b.child = child with
  | some b => b.conds.foldl (fun hdr c => write_uint hdr c.1 c.2) hdr
  | none => hdr

/-- The dispatch tables as the walk reads them. -/
def Registry.dispatch : Layers where
  desc p := (R.other p).toProtoDesc
  resolve := R.resolve
  bound_next := R.bound_next
  by_layer := R.by_layer
  by_ethertype := R.by_ethertype
  by_ipproto := R.by_ipproto
  by_icmpv6_type := R.by_icmpv6_type
  by_tcp_port := R.by_tcp_port

/-! ## Link layers -/

/-- `ether::to_ethertype`. -/
def to_ethertype (p : ProtoId) : Option UInt16 :=
  match p with
  | .Ipv4 => some 0x0800
  | .Ipv6 => some 0x86DD
  | .Arp => some 0x0806
  | .Dot1Q => some 0x8100
  | .Mpls => some 0x8847
  | .PppoeDisc => some 0x8863
  | .Pppoe => some 0x8864
  | .Ppp => some 0x880B
  | p => R.by_ethertype_of p

/-- `ether::bind_ethertype`: a header too short to hold it is left alone. -/
def bind_ethertype (hdr : Bytes) (pos : ℕ) (t : Option UInt16) : Bytes :=
  match t with
  | some t => if pos + 2 ≤ hdr.length then put hdr pos (octets_of 2 t.toNat) else hdr
  | none => hdr

theorem length_bind_ethertype (hdr : Bytes) (pos : ℕ) (t : Option UInt16) :
    (bind_ethertype hdr pos t).length = hdr.length := by
  unfold bind_ethertype
  split
  · split
    · exact length_put (by rw [length_octets_of]; assumption)
    · rfl
  · rfl

def ether_fields : List FieldDesc :=
  [(FieldDesc.mac "dst" 0).defaulting_to (List.replicate 6 0xff), .mac "src" 48,
    .uint "type" 96 16 0x9000]

/-- `ether::DESC`. -/
def Registry.ether : FullDesc where
  name := "Ether"
  toProtoDesc := ether_desc R.dispatch
  fields := ether_fields
  build_len := 14
  bind_next := some ⟨fun hdr p => bind_ethertype hdr 12 (to_ethertype R p),
    fun _ _ => length_bind_ethertype _ _ _⟩

/-- `dot1q::DESC`. -/
def Registry.dot1q : FullDesc where
  name := "Dot1Q"
  min_len := 4
  header_len _ := 4
  next hdr := if hdr.length < 4 then .Raw else from_ethertype R.dispatch (be16 hdr 2)
  fields := [.uint "prio" 0 3 0, .uint "dei" 3 1 0, .uint "vlan" 4 12 1, .uint "type" 16 16 0]
  build_len := 4
  bind_next := some ⟨fun hdr p => bind_ethertype hdr 2 (to_ethertype R p),
    fun _ _ => length_bind_ethertype _ _ _⟩

/-- `pppoe::content_len`: LENGTH excludes the 6-octet header. -/
def pppoe_content_len (hdr : Bytes) : ℕ := if 6 ≤ hdr.length then 6 + (be16 hdr 4).toNat else 0

def pppoe_fields : List FieldDesc :=
  [.uint "version" 0 4 1, .uint "type" 4 4 1, .uint "code" 8 8 0, .uint "sessionid" 16 16 0,
    .computed_uint "len" 32 16]

/-- `pppoe::DESC`. -/
def pppoe : FullDesc where
  name := "PPPoE"
  min_len := 6
  header_len _ := 0
  next hdr := if hdr[1]? = some 0 then .Proto .Ppp else .Raw
  content_len := some pppoe_content_len
  fields := pppoe_fields
  build_len := 6
  bind_next := some ⟨fun hdr p => if p = .Ppp then hdr.set 1 0 else hdr, by
    intro hdr p
    split
    · exact List.length_set
    · rfl⟩

/-- `pppoe::DISC_DESC`. -/
def pppoe_disc : FullDesc where
  name := "PPPoED"
  min_len := 6
  header_len _ := 0
  next _ := .Raw
  content_len := some pppoe_content_len
  fields := pppoe_fields
  build_len := 6

/-! ## IP and its extension headers -/

/-- `ipv4::to_ipproto`. -/
def to_ipproto (p : ProtoId) : Option UInt8 :=
  match p with
  | .Tcp => some 6
  | .Udp => some 17
  | .Icmp => some 1
  | .Icmpv6 => some 58
  | .Ipv4 => some 4
  | .Ipv6 => some 41
  | .Gre => some 47
  | p => R.by_ipproto_of p

/-- `ipv6::to_next_header`. -/
def to_next_header (p : ProtoId) : Option UInt8 :=
  match p with
  | .HopByHop => some 0
  | .Routing => some 43
  | .Fragment => some 44
  | .DestOpt => some 60
  | p => if (R.by_icmpv6_type_of p).isSome then some 58 else to_ipproto R p

/-- One octet of a header, where it has one to name what follows. -/
def bind_octet (hdr : Bytes) (pos : ℕ) (v : Option UInt8) : Bytes :=
  match v with
  | some v => hdr.set pos v
  | none => hdr

/-- So does binding an octet. -/
theorem length_bind_octet (hdr : Bytes) (pos : ℕ) (v : Option UInt8) :
    (bind_octet hdr pos v).length = hdr.length := by
  unfold bind_octet
  split
  · exact List.length_set
  · rfl

def ipv4_fields : List FieldDesc :=
  [.uint "version" 0 4 4, .uint "ihl" 4 4 5, .uint "tos" 8 8 0, .computed_uint "len" 16 16,
    .uint "id" 32 16 1, .flags "flags" 48 3, .uint "frag" 51 13 0, .uint "ttl" 64 8 64,
    .uint "proto" 72 8 0, .computed_uint "chksum" 80 16, .ipv4 "src" 96 0x7f000001,
    .ipv4 "dst" 128 0x7f000001, .var_bytes "options" 160]

/-- `ipv4::set_hlen`: IHL counts 32-bit words. -/
def ipv4_set_hlen (hdr : Bytes) (len : ℕ) : Bytes :=
  match hdr with
  | [] => []
  | o :: rest => ((o &&& 0xf0) ||| (UInt8.ofNat (len / 4) &&& 0x0f)) :: rest

/-- `ipv4::DESC`. -/
def Registry.ipv4 : FullDesc where
  name := "IP"
  toProtoDesc := ipv4_desc R.dispatch
  fields := ipv4_fields
  build_len := 20
  opt_table := true
  set_hlen := some ⟨ipv4_set_hlen, by
    intro hdr len
    cases hdr with
    | nil => rfl
    | cons o rest => rfl⟩
  bind_next := some ⟨fun hdr p => bind_octet hdr 9 (to_ipproto R p),
    fun _ _ => length_bind_octet _ _ _⟩

/-- `::1`. -/
def LOOPBACK : Bytes := List.replicate 15 0 ++ [1]

/-- `ipv6::DESC`. -/
def Registry.ipv6 : FullDesc where
  name := "IPv6"
  toProtoDesc := ipv6_desc R.dispatch
  fields :=
    [.uint "version" 0 4 6, .uint "tc" 4 8 0, .uint "fl" 12 20 0, .computed_uint "plen" 32 16,
      .uint "nh" 48 8 59, .uint "hlim" 56 8 64, (FieldDesc.ipv6 "src" 64).defaulting_to LOOPBACK,
      (FieldDesc.ipv6 "dst" 192).defaulting_to LOOPBACK]
  build_len := 40
  bind_next := some ⟨fun hdr p => bind_octet hdr 6 (to_next_header R p),
    fun _ _ => length_bind_octet _ _ _⟩

/-- `ipv6_ext::opt_header_len`: 8-octet units, not counting the first. -/
def opt_header_len (hdr : Bytes) : ℕ :=
  match hdr[1]? with
  | some n => (n.toNat + 1) * 8
  | none => 8

/-- The extension headers share their layout up to the fields past the second octet. -/
def Registry.ipv6_ext (name : String) (header_len : Bytes → ℕ) (next : Bytes → Next)
    (fields : List FieldDesc) (opt_table : Bool) : FullDesc where
  name := name
  min_len := 8
  header_len := header_len
  next := next
  fields := fields
  build_len := 8
  opt_table := opt_table
  bind_next := some ⟨fun hdr p => bind_octet hdr 0 (to_next_header R p),
    fun _ _ => length_bind_octet _ _ _⟩

/-- `ipv6_ext::nh_next`. -/
def nh_next (hdr : Bytes) : Next :=
  match hdr.head? with
  | some v => next_header R.dispatch v
  | none => .Raw

def opt_fields : List FieldDesc :=
  [.uint "nh" 0 8 59, .computed_uint "len" 8 8, .var_bytes "options" 16]

/-- `ipv6_ext::HOP_BY_HOP_DESC`. -/
def Registry.hop_by_hop : FullDesc :=
  R.ipv6_ext "IPv6ExtHdrHopByHop" opt_header_len (nh_next R) opt_fields true

/-- `ipv6_ext::DEST_OPT_DESC`. -/
def Registry.dest_opt : FullDesc :=
  R.ipv6_ext "IPv6ExtHdrDestOpt" opt_header_len (nh_next R) opt_fields true

/-- `ipv6_ext::ROUTING_DESC`. -/
def Registry.routing : FullDesc :=
  R.ipv6_ext "IPv6ExtHdrRouting" opt_header_len (nh_next R)
    [.uint "nh" 0 8 59, .computed_uint "len" 8 8, .uint "type" 16 8 0, .uint "segleft" 24 8 0,
      .uint "reserved" 32 32 0, .var_bytes "addresses" 64] false

/-- `ipv6_ext::FRAGMENT_DESC`: only the first fragment carries the header Next Header names. -/
def Registry.fragment : FullDesc :=
  R.ipv6_ext "IPv6ExtHdrFragment" (fun _ => 0)
    (fun hdr =>
      if hdr.length < 8 then .Raw
      else if be16 hdr 2 &&& 0xfff8 ≠ 0 then .Raw
      else next_header R.dispatch (hdr.getD 0 0))
    [.uint "nh" 0 8 59, .uint "res1" 8 8 0, .uint "offset" 16 13 0, .uint "res2" 29 2 0,
      .uint "m" 31 1 0, .uint "id" 32 32 0] false

/-! ## Transports -/

/-- `udp::content_len`: Length covers the header and its data. -/
def udp_content_len (hdr : Bytes) : ℕ := if hdr.length < 6 then 0 else (be16 hdr 4).toNat

/-- `udp::next`: a tunnel's source port is a flow hash, so only the destination names it. -/
def udp_next (hdr : Bytes) : Next :=
  if hdr.length < 4 then .Raw
  else
    let sport := be16 hdr 0
    let dport := be16 hdr 2
    if sport = 53 ∨ dport = 53 then .Proto .Dns
    else if sport = 67 ∨ sport = 68 ∨ dport = 67 ∨ dport = 68 then .Proto .Bootp
    else if dport = 4789 then .Proto .Vxlan
    else if dport = 6081 then .Proto .Geneve
    else if dport = 2152 then .Proto .GtpU
    else if dport = 4754 then .Proto .Gre
    else if sport = 5353 ∨ sport = 5355 ∨ dport = 5353 ∨ dport = 5355 then .Proto .Dns
    else
      match R.by_udp_port sport dport (hdr.drop 8) with
      | some p => .Proto p
      | none => .Raw

/-- Both ports of a header that has them. -/
def put_ports (hdr : Bytes) (sport dport : UInt16) : Bytes :=
  if 4 ≤ hdr.length then put hdr 0 (octets_of 2 sport.toNat ++ octets_of 2 dport.toNat) else hdr

/-- So do ports. -/
theorem length_put_ports (hdr : Bytes) (sport dport : UInt16) :
    (put_ports hdr sport dport).length = hdr.length := by
  unfold put_ports
  split
  · rename_i h
    apply length_put
    rw [List.length_append, length_octets_of, length_octets_of]
    omega
  · rfl

/-- `udp::bind_next`: BOOTP takes its own pair, anything else the destination port twice. -/
def udp_bind_next (hdr : Bytes) (p : ProtoId) : Bytes :=
  match p with
  | .Bootp => put_ports hdr 67 68
  | .Vxlan => put_ports hdr 4789 4789
  | .Geneve => put_ports hdr 6081 6081
  | .GtpU => put_ports hdr 2152 2152
  | .Gre => put_ports hdr 4754 4754
  | p => match R.by_udp_port_of p with
    | some port => put_ports hdr port port
    | none => hdr

theorem length_udp_bind_next (hdr : Bytes) (p : ProtoId) :
    (udp_bind_next R hdr p).length = hdr.length := by
  unfold udp_bind_next
  split <;> try exact length_put_ports _ _ _
  split
  · exact length_put_ports _ _ _
  · rfl

/-- `udp::DESC`. -/
def Registry.udp : FullDesc where
  name := "UDP"
  min_len := 8
  header_len _ := 8
  next := udp_next R
  content_len := some udp_content_len
  fields := [.uint "sport" 0 16 53, .uint "dport" 16 16 53, .computed_uint "len" 32 16,
    .computed_uint "chksum" 48 16]
  build_len := 8
  bind_next := some ⟨udp_bind_next R, length_udp_bind_next R⟩

def tcp_fields : List FieldDesc :=
  [.uint "sport" 0 16 20, .uint "dport" 16 16 80, .uint "seq" 32 32 0, .uint "ack" 64 32 0,
    .uint "dataofs" 96 4 5, .uint "reserved" 100 3 0, (FieldDesc.flags "flags" 103 9).with_default 2,
    .uint "window" 112 16 8192, .computed_uint "chksum" 128 16, .uint "urgptr" 144 16 0,
    .var_bytes "options" 160]

/-- `tcp::set_hlen`: Data Offset counts 32-bit words. -/
def tcp_set_hlen (hdr : Bytes) (len : ℕ) : Bytes :=
  if 12 < hdr.length then
    hdr.modify 12 fun o => (o &&& 0x0f) ||| ((UInt8.ofNat (len / 4) &&& 0x0f) <<< (4 : UInt8))
  else hdr

/-- `tcp::bind_next`: DNS takes the source port. -/
def tcp_bind_next (hdr : Bytes) (p : ProtoId) : Bytes :=
  if hdr.length < 4 then hdr
  else if p = .Dns then put hdr 0 (octets_of 2 53)
  else
    match R.by_tcp_port_of p with
    | some port => put hdr 2 (octets_of 2 port.toNat)
    | none => hdr

theorem length_tcp_bind_next (hdr : Bytes) (p : ProtoId) :
    (tcp_bind_next R hdr p).length = hdr.length := by
  unfold tcp_bind_next
  split
  · rfl
  · rename_i hlen
    split
    · exact length_put (by rw [length_octets_of]; omega)
    · split
      · exact length_put (by rw [length_octets_of]; omega)
      · rfl

/-- `tcp::DESC`. -/
def Registry.tcp : FullDesc where
  name := "TCP"
  toProtoDesc := tcp_desc R.dispatch
  fields := tcp_fields
  build_len := 20
  opt_table := true
  set_hlen := some ⟨tcp_set_hlen, by
    intro hdr len
    unfold tcp_set_hlen
    split
    · exact List.length_modify _ _ _
    · rfl⟩
  bind_next := some ⟨tcp_bind_next R, length_tcp_bind_next R⟩

/-! ### ICMP -/

/-- `icmp::msg_type`. -/
def msg_type (hdr : Bytes) : ℕ := (hdr.head?.getD 8).toNat

def has_id_seq (hdr : Bytes) : Bool :=
  msg_type hdr ∈ [0, 8, 13, 14, 15, 16, 17, 18, 37, 38]

def is_timestamp (hdr : Bytes) : Bool := msg_type hdr = 13 ∨ msg_type hdr = 14

def is_addr_mask (hdr : Bytes) : Bool := msg_type hdr = 17 ∨ msg_type hdr = 18

def is_redirect (hdr : Bytes) : Bool := msg_type hdr = 5

def is_param_problem (hdr : Bytes) : Bool := msg_type hdr = 12

def is_error (hdr : Bytes) : Bool := msg_type hdr = 3 ∨ msg_type hdr = 11

def has_ext_length (hdr : Bytes) : Bool := is_error hdr || is_param_problem hdr

def is_unreach (hdr : Bytes) : Bool := msg_type hdr = 3

def is_unstructured (hdr : Bytes) : Bool :=
  !(has_id_seq hdr || is_redirect hdr || is_param_problem hdr || is_error hdr)

def has_short_unused (hdr : Bytes) : Bool := msg_type hdr = 11 ∨ msg_type hdr = 12

def has_empty_unused (hdr : Bytes) : Bool :=
  msg_type hdr ∈ [0, 3, 5, 8] ∨ 13 ≤ msg_type hdr ∧ msg_type hdr ≤ 18

def icmp_fields : List FieldDesc :=
  [.uint "type" 0 8 8, .uint "code" 8 8 0, .computed_uint "chksum" 16 16,
    (FieldDesc.uint "id" 32 16 0).when has_id_seq, (FieldDesc.uint "seq" 48 16 0).when has_id_seq,
    (FieldDesc.uint "ts_ori" 64 32 0).when is_timestamp,
    (FieldDesc.uint "ts_rx" 96 32 0).when is_timestamp,
    (FieldDesc.uint "ts_tx" 128 32 0).when is_timestamp,
    (FieldDesc.ipv4 "gw" 32 0).when is_redirect,
    (FieldDesc.uint "ptr" 32 8 0).when is_param_problem,
    (FieldDesc.uint "reserved" 32 8 0).when is_error,
    (FieldDesc.uint "length" 40 8 0).when has_ext_length,
    (FieldDesc.ipv4 "addr_mask" 64 0).when is_addr_mask,
    (FieldDesc.uint "nexthopmtu" 48 16 0).when is_unreach,
    (FieldDesc.uint "unused" 32 32 0).when is_unstructured,
    (FieldDesc.uint "unused" 48 16 0).when has_short_unused,
    (FieldDesc.bytes "unused" 64 0).when has_empty_unused,
    (FieldDesc.bytes "extpad" 64 0).when has_ext_length,
    (FieldDesc.var_bytes "ext" 64).when fun _ => false]

/-- `icmp::header_len`: only timestamp and address-mask messages carry more than eight octets. -/
def icmp_header_len (hdr : Bytes) : ℕ :=
  if is_timestamp hdr then 20 else if is_addr_mask hdr then 12 else 8

/-- `icmp::DESC`. -/
def icmp : FullDesc where
  name := "ICMP"
  min_len := 8
  header_len := icmp_header_len
  next _ := .Raw
  fields := icmp_fields
  build_len := 8

/-- `icmpv6::DESC`. -/
def icmpv6 : FullDesc where
  name := "ICMPv6"
  min_len := 4
  header_len _ := 4
  next _ := .Raw
  fields := [.uint "type" 0 8 128, .uint "code" 8 8 0, .computed_uint "cksum" 16 16]
  build_len := 4

/-! ## Tunnels -/

/-- `gre::flag`. -/
def gre_flag (hdr : Bytes) (bit : ℕ) : Bool :=
  hdr.head?.any fun b => b &&& ((0x80 : UInt8) >>> UInt8.ofNat bit) != 0

/-- `gre::has_sum`: the Routing Present bit brings the same two octets with it. -/
def has_sum (hdr : Bytes) : Bool := gre_flag hdr 0 || gre_flag hdr 1

def has_key (hdr : Bytes) : Bool := gre_flag hdr 2

def has_seq (hdr : Bytes) : Bool := gre_flag hdr 3

def key_off (hdr : Bytes) : ℕ := 4 + 4 * (has_sum hdr).toNat

def seq_off (hdr : Bytes) : ℕ := key_off hdr + 4 * (has_key hdr).toNat

def key_at (n : ℕ) (hdr : Bytes) : Bool := has_key hdr && key_off hdr == n

def seq_at (n : ℕ) (hdr : Bytes) : Bool := has_seq hdr && seq_off hdr == n

def gre_fields : List FieldDesc :=
  [.uint "chksum_present" 0 1 0, .uint "routing_present" 1 1 0, .uint "key_present" 2 1 0,
    .uint "seqnum_present" 3 1 0, .uint "strict_route_source" 4 1 0,
    .uint "recursion_control" 5 3 0, .uint "flags" 8 5 0, .uint "version" 13 3 0,
    .uint "proto" 16 16 0x0800, (FieldDesc.computed_uint "chksum" 32 16).when has_sum,
    (FieldDesc.uint "offset" 48 16 0).when has_sum,
    (FieldDesc.uint "key" 32 32 0).when (key_at 4), (FieldDesc.uint "key" 64 32 0).when (key_at 8),
    (FieldDesc.uint "seqnum" 32 32 0).when (seq_at 4),
    (FieldDesc.uint "seqnum" 64 32 0).when (seq_at 8),
    (FieldDesc.uint "seqnum" 96 32 0).when (seq_at 12)]

/-- `gre::to_ethertype`. -/
def gre_to_ethertype (p : ProtoId) : Option UInt16 :=
  match p with
  | .ErspanII => some 0x88BE
  | .ErspanIII => some 0x22EB
  | .Ether => some 0x6558
  | p => to_ethertype R p

/-- `gre::bind_next`: only the sequence bit tells ERSPAN type II from type I. -/
def gre_bind_next (hdr : Bytes) (p : ProtoId) : Bytes :=
  bind_ethertype (if p = .ErspanII then hdr.modify 0 (· ||| 0x10) else hdr) 2 (gre_to_ethertype R p)

/-- And behind GRE. -/
theorem length_gre_bind_next (hdr : Bytes) (p : ProtoId) :
    (gre_bind_next R hdr p).length = hdr.length := by
  unfold gre_bind_next
  rw [length_bind_ethertype]
  split
  · exact List.length_modify _ _ _
  · rfl

/-- `gre::DESC`. -/
def Registry.gre : FullDesc where
  name := "GRE"
  min_len := 4
  header_len hdr := seq_off hdr + 4 * (has_seq hdr).toNat
  next hdr :=
    if hdr.length < 4 then .Raw
    else if be16 hdr 2 = 0x88BE then .Proto (if has_seq hdr then .ErspanII else .Ether)
    else if be16 hdr 2 = 0x22EB then .Proto .ErspanIII
    else from_ethertype R.dispatch (be16 hdr 2)
  fields := gre_fields
  build_len := 4
  bind_next := some ⟨gre_bind_next R, length_gre_bind_next R⟩
  bind_next_bytes := some fun p => if p = .ErspanII then [0, 0, 0, 0] else []

/-- `geneve::header_len`: Opt Len counts 4-octet units of the option block alone. -/
def geneve_header_len (hdr : Bytes) : ℕ :=
  match hdr.head? with
  | some b => 8 + (b &&& 0x3f).toNat * 4
  | none => 8

/-- `geneve::DESC`. -/
def Registry.geneve : FullDesc where
  name := "GENEVE"
  min_len := 8
  header_len := geneve_header_len
  next hdr := if hdr.length < 8 then .Raw else from_ethertype R.dispatch (be16 hdr 2)
  fields :=
    [.uint "version" 0 2 0, .computed_uint "optionlen" 2 6, .uint "oam" 8 1 0,
      .uint "critical" 9 1 0, .uint "reserved" 10 6 0, .uint "proto" 16 16 0x6558,
      .uint "vni" 32 24 0, .uint "reserved2" 56 8 0, .var_bytes "options" 64]
  build_len := 8
  bind_next := some ⟨fun hdr p =>
      bind_ethertype hdr 2 (if p = .Ether then some 0x6558 else to_ethertype R p),
    fun _ _ => length_bind_ethertype _ _ _⟩

/-- `gtp::has_opt`. -/
def has_opt (hdr : Bytes) : Bool := hdr.head?.any fun b => b &&& 0x07 != 0

/-- The extension headers of `gtp::header_len`, `n` turns of the walk from `pos` on. -/
def gtp_exts (hdr : Bytes) : ℕ → ℕ → UInt8 → ℕ
  | 0, pos, _ => pos
  | n + 1, pos, next =>
    if next = 0 then pos
    else
      match hdr[pos]? with
      | none => pos
      | some units =>
        if units = 0 then pos
        -- clipped mid-chain: the rest is header, not a datagram
        else if pos + units.toNat * 4 > hdr.length then hdr.length
        else gtp_exts hdr n (pos + units.toNat * 4) (hdr.getD (pos + units.toNat * 4 - 1) 0)

/-- `gtp::header_len`. -/
def gtp_header_len (hdr : Bytes) : ℕ :=
  if has_opt hdr then gtp_exts hdr 32 12 (hdr.getD 11 0) else 8

/-- `gtp::content_len`: Length counts everything after the first eight octets. -/
def gtp_content_len (hdr : Bytes) : ℕ := if 4 ≤ hdr.length then 8 + (be16 hdr 2).toNat else 0

/-- `gtp::DESC`: only a G-PDU carries a datagram, named by its first nibble. -/
def gtp_u : FullDesc where
  name := "GTP_U_Header"
  min_len := 8
  header_len := gtp_header_len
  next hdr :=
    if hdr[1]? ≠ some 0xff then .Raw
    else
      match hdr[gtp_header_len hdr]? with
      | some b => if b >>> 4 = 4 then .Proto .Ipv4 else if b >>> 4 = 6 then .Proto .Ipv6 else .Raw
      | none => .Raw
  content_len := some gtp_content_len
  fields :=
    [.uint "version" 0 3 1, .uint "PT" 3 1 1, .uint "reserved" 4 1 0, .uint "E" 5 1 0,
      .uint "S" 6 1 0, .uint "PN" 7 1 0, .uint "gtp_type" 8 8 0xff, .computed_uint "length" 16 16,
      .uint "teid" 32 32 0, (FieldDesc.uint "seq" 64 16 0).when has_opt,
      (FieldDesc.uint "npdu" 80 8 0).when has_opt, (FieldDesc.uint "next_ex" 88 8 0).when has_opt]
  build_len := 8

/-! ## DNS and the layers that count their payload -/

/-- `dns::header_fields`: the twelve-octet header at a bit offset. -/
def dns_fields (pos : ℕ) : List FieldDesc :=
  [.uint "id" pos 16 0, .uint "qr" (pos + 16) 1 0, .uint "opcode" (pos + 17) 4 0,
    .uint "aa" (pos + 21) 1 0, .uint "tc" (pos + 22) 1 0, .uint "rd" (pos + 23) 1 1,
    .uint "ra" (pos + 24) 1 0, .uint "z" (pos + 25) 1 0, .uint "ad" (pos + 26) 1 0,
    .uint "cd" (pos + 27) 1 0, .uint "rcode" (pos + 28) 4 0, .uint "qdcount" (pos + 32) 16 1,
    .uint "ancount" (pos + 48) 16 0, .uint "nscount" (pos + 64) 16 0,
    .uint "arcount" (pos + 80) 16 0]

/-- `dns::TCP_FIELDS`: over a stream a length comes first. -/
def TCP_FIELDS : List FieldDesc := .computed_uint "length" 0 16 :: dns_fields 16

/-- `dns::skip_name`: the octet after a name, a pointer ending it. Every turn advances, so the
octets there are bound the turns. -/
def skip_name (msg : Bytes) : ℕ → ℕ → Option ℕ
  | 0, _ => none
  | n + 1, pos =>
    match msg[pos]? with
    | none => none
    | some len =>
      if len = 0 then some (pos + 1)
      else if len &&& 0xc0 = 0 then skip_name msg n (pos + 1 + len.toNat)
      else if len &&& 0xc0 = 0xc0 ∧ pos + 2 ≤ msg.length then some (pos + 2)
      else none

/-- The records of a section: `skip` from one to the next, none of them past the message. -/
def skip_records (msg : Bytes) (skip : ℕ → Option ℕ) : ℕ → ℕ → Option ℕ
  | 0, pos => some pos
  | n + 1, pos =>
    match skip pos with
    | some pos => if pos > msg.length then none else skip_records msg skip n pos
    | none => none

/-- `dns::message_len`: the header, then as many questions and records as its counts claim. -/
def message_len (msg : Bytes) : Option ℕ :=
  if msg.length < 12 then none
  else
    let name := skip_name msg (msg.length + 1)
    let rr := (be16 msg 6).toNat + (be16 msg 8).toNat + (be16 msg 10).toNat
    match skip_records msg (fun pos => (name pos).map (· + 4)) (be16 msg 4).toNat 12 with
    | some pos =>
      skip_records msg (fun pos =>
        match name pos with
        | some pos => if pos + 10 ≤ msg.length then some (pos + 10 + (be16 msg (pos + 8)).toNat) else none
        | none => none) rr pos
    | none => none

/-- `dns::DESC`: a message whose records cannot be walked runs to the end. -/
def dns : FullDesc where
  name := "DNS"
  min_len := 12
  header_len msg := (message_len msg).getD msg.length
  next _ := .Raw
  fields := dns_fields 0
  build_len := 12

/-- A field of the source that a `recomputed()` marks. -/
def FieldDesc.recomputed (f : FieldDesc) : FieldDesc := { f with computed := true }

/-- The built-in layers that `payload_len_of` names, by their `ProtoId`. -/
inductive Counted where
  | HCIACLHdr | L2CAPHdr | L2CAPCmdHdr | HCICommandHdr | HCIEventHdr | BTLEDATA
deriving DecidableEq, Repr

/-- The layer of this number that counts its payload, if there is one. -/
def counted (n : ℕ) : Option Counted :=
  match n with
  | 5002 => some .HCIACLHdr
  | 5003 => some .L2CAPHdr
  | 5004 => some .L2CAPCmdHdr
  | 5119 => some .HCICommandHdr
  | 5197 => some .HCIEventHdr
  | 5241 => some .BTLEDATA
  | _ => none

def Counted.fields : Counted → List FieldDesc
  | .HCIACLHdr =>
    [{ FieldDesc.uint "BC" 0 2 0 with le_at := 0, le_len := 2 },
      { FieldDesc.uint "PB" 2 2 0 with le_at := 0, le_len := 2 },
      { FieldDesc.uint "connection_handle" 4 12 0 with le_at := 0, le_len := 2 },
      (FieldDesc.le_uint "len" 16 16 0).recomputed]
  | .L2CAPHdr => [(FieldDesc.le_uint "len" 0 16 0).recomputed, .le_uint "cid" 16 16 0]
  | .L2CAPCmdHdr =>
    [.uint "code" 0 8 8, .uint "id" 8 8 1, (FieldDesc.le_uint "len" 16 16 0).recomputed]
  | .HCICommandHdr =>
    [{ FieldDesc.uint "ogf" 0 6 0 with le_at := 0, le_len := 2 },
      { FieldDesc.uint "ocf" 6 10 0 with le_at := 0, le_len := 2 },
      (FieldDesc.uint "len" 16 8 0).recomputed]
  | .HCIEventHdr => [.uint "code" 0 8 0, (FieldDesc.uint "len" 8 8 0).recomputed]
  | .BTLEDATA =>
    [.uint "RFU" 0 3 0, .uint "MD" 3 1 0, .uint "SN" 4 1 0, .uint "NESN" 5 1 0, .uint "LLID" 6 2 0,
      (FieldDesc.uint "len" 8 8 0).recomputed]

def Counted.len : Counted → ℕ
  | .HCIACLHdr | .L2CAPHdr | .L2CAPCmdHdr => 4
  | .HCICommandHdr => 3
  | .HCIEventHdr | .BTLEDATA => 2

def Counted.name : Counted → String
  | .HCIACLHdr => "HCI_ACL_Hdr"
  | .L2CAPHdr => "L2CAP_Hdr"
  | .L2CAPCmdHdr => "L2CAP_CmdHdr"
  | .HCICommandHdr => "HCI_Command_Hdr"
  | .HCIEventHdr => "HCI_Event_Hdr"
  | .BTLEDATA => "BTLE_DATA"

def Counted.desc (c : Counted) : FullDesc where
  name := c.name
  min_len := c.len
  header_len _ := c.len
  next _ := .Raw
  fields := c.fields
  build_len := c.len

/-- `raw::DESC` and `raw::PADDING_DESC`. -/
def raw_full_desc (name : String) : FullDesc where
  toProtoDesc := raw_desc
  name := name
  fields := [.var_bytes "load" 0]
  build_len := 0

/-- `proto::desc`. -/
def Registry.desc (p : ProtoId) : FullDesc :=
  match p with
  | .Raw => raw_full_desc "Raw"
  | .Padding => raw_full_desc "Padding"
  | .Ether => R.ether
  | .Dot1Q => R.dot1q
  | .PppoeDisc => pppoe_disc
  | .Pppoe => pppoe
  | .Ipv4 => R.ipv4
  | .Ipv6 => R.ipv6
  | .HopByHop => R.hop_by_hop
  | .Routing => R.routing
  | .Fragment => R.fragment
  | .DestOpt => R.dest_opt
  | .Icmp => icmp
  | .Icmpv6 => icmpv6
  | .Gre => R.gre
  | .Udp => R.udp
  | .Tcp => R.tcp
  | .Dns => dns
  | .Geneve => R.geneve
  | .GtpU => gtp_u
  | .other n => match counted n with
    | some c => c.desc
    | none => R.other (.other n)
  | p => R.other p

/-- The layers as the walk asks for them. -/
def Registry.layers : Layers := { R.dispatch with desc := fun p => (R.desc p).toProtoDesc }

/-- The walk asks for the same descriptions. -/
theorem Registry.table_desc (p : ProtoId) : R.layers.table.desc p = (R.desc p).toProtoDesc := by
  cases p <;> rfl

/-- `fields_of`: framing moves every field, so it is a second table. -/
def Registry.fields_of (p : ProtoId) (framed : Bool) : List FieldDesc :=
  if p = .Dns ∧ framed then TCP_FIELDS else (R.desc p).fields

/-- `active_field_of`: two fields may share a name, and the header picks between them. -/
def Registry.active_field_of (p : ProtoId) (framed : Bool) (hdr : Bytes) (name : String) :
    Option FieldDesc :=
  (R.fields_of p framed).find? fun f => f.is_active hdr && f.name == name

/-- `pads_options`: only an option region counted in words is padded to one. -/
def FullDesc.pads_options (d : FullDesc) : Bool := d.set_hlen.isSome && d.opt_table

end Descriptions

/-- `payload_len_of`: the field that holds the octets after its own header, plus a constant. -/
def payload_len_of (p : ProtoId) : Option (String × ℤ) :=
  match p with
  | .other n => (counted n).map fun _ => ("len", 0)
  | _ => none

end Wiry.Packet
