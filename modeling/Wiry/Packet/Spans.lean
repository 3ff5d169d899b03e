/-
`dissect_spans` of `crates/wiry-core/src/packet.rs`: the layers a frame is read
as, outermost first, with the Ethernet, IPv4, IPv6 and TCP descriptions it walks
by and `enclosing_addrs` of `compute.rs`.

The other layers of the source are many and generated. What the walk asks of
them is `Layers`, and everything below is for whatever they answer. Offsets are
`u32` in the source and natural numbers here: a captured frame is far shorter
than `2 ^ 32`.
-/
import Mathlib

set_option autoImplicit false

namespace Wiry.Packet

abbrev Bytes := List UInt8

/-- `ProtoId`: the layers the walk below names, and `other` for every other one. -/
inductive ProtoId where
  | Raw | Padding | Ether | Llc | Arp | Dot1Q | Mpls | PppoeDisc | Pppoe | Ppp | Ipv4 | Ipv6
  | HopByHop | Routing | Fragment | DestOpt | Icmp | Icmpv6 | Gre | Udp | Tcp | Dns | Http | Tls
  | Bootp | Vxlan | Geneve | GtpU | ErspanII | ErspanIII
  | other (n : ℕ)
deriving DecidableEq, Repr

/-- `Next`: what a header says comes after it. -/
inductive Next where
  | Proto (p : ProtoId)
  | Raw
  | End

/-- The entries of `ProtoDesc` that the walk reads. -/
structure ProtoDesc where
  /-- Shorter input dissects as `Raw`. -/
  min_len : ℕ
  header_len : Bytes → ℕ
  next : Bytes → Next
  /-- Total octets the header's own length field claims, itself included. -/
  content_len : Option (Bytes → ℕ) := none

/-- What the walk asks of the layers, port tables and bindings that are not embedded here. -/
structure Layers where
  desc : ProtoId → ProtoDesc
  resolve : ℕ → Bytes → ProtoId
  bound_next : ProtoId → Bytes → Option ProtoId
  by_layer : ProtoId → Bytes → Option ProtoId
  by_ethertype : UInt16 → Option ProtoId
  by_ipproto : UInt8 → Option ProtoId
  by_icmpv6_type : UInt8 → Option ProtoId
  by_tcp_port : UInt16 → UInt16 → Bytes → Option ProtoId

/-- `LayerSpan`. -/
structure LayerSpan where
  proto : ProtoId
  off : ℕ
  hlen : ℕ
  /-- Header plus payload. -/
  total : ℕ
deriving DecidableEq, Repr

/-- `&buf[a..b]`. -/
def slice (buf : Bytes) (a b : ℕ) : Bytes := (buf.take b).drop a

/-- `u16::from_be_bytes` of the two octets at `i`. -/
def be16 (b : Bytes) (i : ℕ) : UInt16 :=
  UInt16.ofNat ((b.getD i 0).toNat * 2 ^ 8 + (b.getD (i + 1) 0).toNat)

/-- `u32::from_be_bytes` of the four octets at `i`. -/
def be32 (b : Bytes) (i : ℕ) : UInt32 :=
  UInt32.ofNat ((be16 b i).toNat * 2 ^ 16 + (be16 b (i + 2)).toNat)

/-- `MAX_LAYERS`: bounds the walk on malformed input. -/
def MAX_LAYERS : ℕ := 32

/-! ## The layers by description -/

section Descriptions

variable (L : Layers)

/-- `ipv4::from_ipproto`. -/
def from_ipproto (v : UInt8) : Next :=
  match v with
  | 6 => .Proto .Tcp
  | 17 => .Proto .Udp
  | 1 => .Proto .Icmp
  | 58 => .Proto .Icmpv6
  | 4 => .Proto .Ipv4
  | 41 => .Proto .Ipv6
  | 47 => .Proto .Gre
  | n => match L.by_ipproto n with
    | some p => .Proto p
    | none => .Raw

/-- `ipv4::DESC`. -/
def ipv4_desc : ProtoDesc where
  min_len := 20
  header_len hdr := if hdr.isEmpty then 20 else max ((hdr.getD 0 0 &&& 0x0f).toNat * 4) 20
  content_len := some fun hdr => if hdr.length < 4 then 0 else (be16 hdr 2).toNat
  next hdr :=
    if hdr.length < 20 then .Raw
    -- a later fragment carries no transport header
    else if be16 hdr 6 &&& 0x1fff ≠ 0 then .Raw
    else from_ipproto L (hdr.getD 9 0)

/-- `ipv6::next_header`. -/
def next_header (v : UInt8) : Next :=
  match v with
  | 0 => .Proto .HopByHop
  | 43 => .Proto .Routing
  | 44 => .Proto .Fragment
  | 60 => .Proto .DestOpt
  | v => from_ipproto L v

/-- `ipv6::DESC`. -/
def ipv6_desc : ProtoDesc where
  min_len := 40
  header_len _ := 40
  content_len := some fun hdr => if hdr.length < 6 then 0 else 40 + (be16 hdr 4).toNat
  next hdr :=
    if hdr.length < 40 then .Raw
    else
      match (if hdr.getD 6 0 = 58 then hdr[40]?.bind L.by_icmpv6_type else none) with
      | some p => .Proto p
      | none => next_header L (hdr.getD 6 0)

/-- `ether::from_ethertype`. -/
def from_ethertype (t : UInt16) : Next :=
  match t with
  | 0x0800 => .Proto .Ipv4
  | 0x86DD => .Proto .Ipv6
  | 0x0806 => .Proto .Arp
  | 0x8100 => .Proto .Dot1Q
  | 0x6558 => .Proto .Ether
  | 0x8847 => .Proto .Mpls
  | 0x8848 => .Proto .Mpls
  | 0x8863 => .Proto .PppoeDisc
  | 0x8864 => .Proto .Pppoe
  | 0x880B => .Proto .Ppp
  | t => match L.by_ethertype t with
    | some p => .Proto p
    | none => .Raw

/-- `ether::DESC`. -/
def ether_desc : ProtoDesc where
  min_len := 14
  header_len _ := 14
  next hdr :=
    if hdr.length < 14 then .Raw
    else if be16 hdr 12 ≤ 1500 then .Proto .Llc
    else from_ethertype L (be16 hdr 12)

/-- `tcp::header_len`. -/
def tcp_header_len (hdr : Bytes) : ℕ :=
  if hdr.length < 13 then 20 else max (((hdr.getD 12 0 >>> 4) &&& 0x0f).toNat * 4) 20

/-- `tcp::DESC`. -/
def tcp_desc : ProtoDesc where
  min_len := 20
  header_len := tcp_header_len
  next hdr :=
    if hdr.length < 4 then .Raw
    else if be16 hdr 0 = 53 ∨ be16 hdr 2 = 53 then .Proto .Dns
    else if (hdr.drop (tcp_header_len hdr)).isEmpty then .Raw
    else
      match L.by_tcp_port (be16 hdr 0) (be16 hdr 2) (hdr.drop (tcp_header_len hdr)) with
      | some p => .Proto p
      | none => .Raw

/-- `raw::DESC` and `raw::PADDING_DESC`. -/
def raw_desc : ProtoDesc where
  min_len := 0
  header_len hdr := hdr.length
  next _ := .End

/-- `proto::desc`. -/
def desc (p : ProtoId) : ProtoDesc :=
  match p with
  | .Raw | .Padding => raw_desc
  | .Ether => ether_desc L
  | .Ipv4 => ipv4_desc L
  | .Ipv6 => ipv6_desc L
  | .Tcp => tcp_desc L
  | p => L.desc p

/-- `variants::resolve`. -/
def resolve (p : ProtoId) (b : Bytes) : ProtoId :=
  match p with
  | .other n => L.resolve n b
  | p => p

/-- `dispatch::by_layer`. -/
def by_layer (p : ProtoId) (hdr : Bytes) : Option ProtoId :=
  match p with
  | .Raw | .Padding | .Ether | .Ipv4 | .Ipv6 | .Tcp => none
  | p => L.by_layer p hdr

end Descriptions

/-- `proto::framing_octets`: the length ahead of a DNS message over TCP. -/
def framing_octets (parent child : ProtoId) : ℕ :=
  if parent = .Tcp ∧ child = .Dns then 2 else 0

/-- No layer, port or binding beside the ones described above. -/
def Layers.core : Layers where
  desc _ := raw_desc
  resolve n _ := .other n
  bound_next _ _ := none
  by_layer _ _ := none
  by_ethertype _ := none
  by_ipproto _ := none
  by_icmpv6_type _ := none
  by_tcp_port _ _ _ := none

/-! ## The walk -/

/-- All the walk is driven by: the descriptions, the framing a pair of layers carries, the class a
layer is read as, the declared bindings and the generated children. -/
structure Table where
  desc : ProtoId → ProtoDesc
  framing : ProtoId → ProtoId → ℕ
  resolve : ProtoId → Bytes → ProtoId
  bound_next : ProtoId → Bytes → Option ProtoId
  by_layer : ProtoId → Bytes → Option ProtoId

/-- The functions the source walks by. -/
def Layers.table (L : Layers) : Table where
  desc := Packet.desc L
  framing := framing_octets
  resolve := Packet.resolve L
  bound_next := L.bound_next
  by_layer := Packet.by_layer L

section Walk

variable (T : Table)

/-- What follows a layer: a declared binding outranks the layer's own guess, and a generated child
comes after it. -/
def next_of (proto : ProtoId) (hdr : Bytes) : Next :=
  match T.bound_next proto hdr with
  | some p => .Proto p
  | none =>
    match (T.desc proto).next hdr with
    | .Raw => match T.by_layer proto hdr with
      | some p => .Proto p
      | none => .Raw
    | n => n

/-- The class a layer is dissected as: only a fresh dissection reads it off the octets. -/
def class_of (bound : Bool) (proto : ProtoId) (b : Bytes) : ProtoId :=
  if bound then T.resolve proto b else proto

/-- The end of the innermost declared length once a layer's own claim is read: the bound only
ever tightens. -/
def tightened (bound : Bool) (d : ProtoDesc) (hdr : Bytes) (pre off hlen end_ : ℕ) : ℕ :=
  match d.content_len with
  | some f =>
    if bound ∧ pre + f hdr ≥ hlen ∧ off + (pre + f hdr) < end_ then off + (pre + f hdr) else end_
  | none => end_

/-- The `for` of `spans_of`, `n` turns of it: the spans pushed, and the end reached. -/
def walk (buf : Bytes) (bound : Bool) :
    ℕ → ℕ → ℕ → ProtoId → Option ProtoId → List LayerSpan × ℕ
  | 0, _, end_, _, _ => ([], end_)
  | n + 1, off, end_, proto, parent =>
    let proto := class_of T bound proto (slice buf (min off end_) end_)
    let d := T.desc proto
    let remaining := end_ - off
    let pre := parent.elim 0 fun p => T.framing p proto
    if remaining < d.min_len + pre then
      (if remaining > 0 then [⟨.Raw, off, remaining, remaining⟩] else [], end_)
    else
      let hdr := slice buf (off + pre) end_
      let hlen := min (pre + max (d.header_len hdr) d.min_len) remaining
      let end_ := tightened bound d hdr pre off hlen end_
      let rest :=
        if off + hlen < end_ then
          match next_of T proto hdr with
          | .Proto p => walk buf bound n (off + hlen) end_ p (some proto)
          | .Raw => walk buf bound n (off + hlen) end_ .Raw (some proto)
          | .End => ([], end_)
        else ([], end_)
      (⟨proto, off, hlen, remaining⟩ :: rest.1, rest.2)

/-- The layer a frame starts with: a raw-IP capture holds both versions under one link type, and
the version nibble says which. -/
def outermost (buf : Bytes) (link : ProtoId) : ProtoId :=
  if link = .Ipv4 ∧ buf.head?.any (fun b : UInt8 => b >>> 4 == 6) then .Ipv6 else link

/-- `spans_of`. -/
def spans_of (buf : Bytes) (link : ProtoId) (bound : Bool) : List LayerSpan :=
  let w := walk T buf bound MAX_LAYERS 0 buf.length (outermost buf link) none
  if w.2 < buf.length then
    w.1 ++ [⟨.Padding, w.2, buf.length - w.2, buf.length - w.2⟩]
  else w.1

end Walk

/-- `dissect_spans`. -/
def dissect_spans (L : Layers) (buf : Bytes) (link : ProtoId) : List LayerSpan :=
  spans_of L.table buf link true

/-! ## The spans lie in the frame -/

/-- A span inside `[lo, hi)` that is long enough for the layer it names. -/
structure LayerSpan.Fits (T : Table) (lo hi : ℕ) (s : LayerSpan) : Prop where
  le_off : lo ≤ s.off
  le_end : s.off + s.total ≤ hi
  hlen_le : s.hlen ≤ s.total
  min_le : (T.desc s.proto).min_len ≤ s.total

theorem LayerSpan.Fits.mono {T : Table} {lo lo' hi hi' : ℕ} {s : LayerSpan} (h : s.Fits T lo hi)
    (hlo : lo' ≤ lo) (hhi : hi ≤ hi') : s.Fits T lo' hi' :=
  ⟨Nat.le_trans hlo h.le_off, Nat.le_trans h.le_end hhi, h.hlen_le, h.min_le⟩

/-- A tightened end is no later. -/
theorem tightened_le (bound : Bool) (d : ProtoDesc) (hdr : Bytes) (pre off hlen end_ : ℕ) :
    tightened bound d hdr pre off hlen end_ ≤ end_ := by
  unfold tightened
  split
  · split <;> omega
  · exact le_rfl

/-- Nothing the walk pushes leaves the octets it was given. -/
theorem walk_fits (T : Table) (hraw : (T.desc .Raw).min_len = 0) (buf : Bytes) (bound : Bool)
    (n off end_ : ℕ) (proto : ProtoId) (parent : Option ProtoId) (hoff : off ≤ end_) :
    (∀ s ∈ (walk T buf bound n off end_ proto parent).1, s.Fits T off end_) ∧
      (walk T buf bound n off end_ proto parent).2 ≤ end_ := by
  induction n generalizing off end_ proto parent with
  | zero => simp [walk]
  | succ n ih =>
    rw [walk]
    dsimp only
    generalize class_of T bound proto (slice buf (min off end_) end_) = proto'
    generalize parent.elim 0 _ = pre
    split
    · -- too short for the layer: what is left is `Raw`, which needs nothing
      refine ⟨fun s hs => ?_, le_rfl⟩
      split at hs
      · rw [List.mem_singleton.1 hs]
        exact ⟨le_rfl, by dsimp only; omega, le_rfl, Nat.le_trans (Nat.le_of_eq hraw) (Nat.zero_le _)⟩
      · exact absurd hs (List.not_mem_nil (a := s))
    · rename_i hlong
      generalize hhdr : slice buf _ end_ = hdr
      generalize hlen' : min (pre + _) (end_ - off) = hlen
      have hend := tightened_le bound (T.desc proto') hdr pre off hlen end_
      generalize tightened bound (T.desc proto') hdr pre off hlen end_ = stop at hend ⊢
      -- what the turns after this one push starts no earlier and ends no later
      have hrest : off + hlen < stop → ∀ p,
          (∀ s ∈ (walk T buf bound n (off + hlen) stop p (some proto')).1, s.Fits T off end_) ∧
            (walk T buf bound n (off + hlen) stop p (some proto')).2 ≤ end_ := by
        intro hlt p
        obtain ⟨hs, hle⟩ := ih (off + hlen) stop p (some proto') (Nat.le_of_lt hlt)
        exact ⟨fun s hmem => (hs s hmem).mono (Nat.le_add_right _ _) hend, Nat.le_trans hle hend⟩
      refine ⟨?_, ?_⟩
      · intro s hs
        rcases List.mem_cons.1 hs with rfl | hs
        · exact ⟨le_rfl, by dsimp only; omega, by dsimp only; omega, by dsimp only; omega⟩
        · split at hs
          · rename_i hlt
            split at hs
            · exact (hrest hlt _).1 s hs
            · exact (hrest hlt _).1 s hs
            · exact absurd hs (List.not_mem_nil (a := s))
          · exact absurd hs (List.not_mem_nil (a := s))
      · split
        · rename_i hlt
          split
          · exact (hrest hlt _).2
          · exact (hrest hlt _).2
          · exact hend
        · exact hend

/-- **Every layer of a dissected frame lies in the frame, whole header included**: the reads
`enclosing_addrs` and `inspect` make of an IP layer never run past the buffer. -/
theorem dissect_spans_fit (L : Layers) (buf : Bytes) (link : ProtoId) :
    ∀ s ∈ dissect_spans L buf link, s.Fits L.table 0 buf.length := by
  intro s hs
  unfold dissect_spans spans_of at hs
  dsimp only at hs
  obtain ⟨hfits, hend⟩ :=
    walk_fits L.table rfl buf true MAX_LAYERS 0 buf.length (outermost buf link) none (Nat.zero_le _)
  split at hs
  · rcases List.mem_append.1 hs with hs | hs
    · exact hfits s hs
    · rw [List.mem_singleton.1 hs]
      exact ⟨Nat.zero_le _, by dsimp only; omega, le_rfl, Nat.zero_le _⟩
  · exact hfits s hs

/-! ## Frames by their headers -/

/-- The octets of a number, most significant first. -/
def octets_of : ℕ → ℕ → Bytes
  | 0, _ => []
  | n + 1, v => UInt8.ofNat (v / 2 ^ (8 * n)) :: octets_of n v

/-- An Ethernet header in front of an IPv4 datagram. -/
def ether_header : Bytes := List.replicate 12 0 ++ [0x08, 0x00]

/-- An IPv4 header without options in front of `len` octets of protocol `proto`. -/
def ipv4_header (proto : UInt8) (src dst : Bytes) (len : ℕ) : Bytes :=
  [0x45, 0] ++ octets_of 2 (20 + len) ++ [0, 1, 0, 0, 64, proto, 0, 0] ++ src ++ dst

/-- A TCP header without options. -/
def tcp_header (sport dport seq : ℕ) (flags : UInt8) : Bytes :=
  octets_of 2 sport ++ octets_of 2 dport ++ octets_of 4 seq ++
    [0, 0, 0, 0, 0x50, flags, 0x20, 0, 0, 0, 0, 0]

/-- A TCP segment in an IPv4 datagram in an Ethernet frame. -/
def tcp_frame (src dst : Bytes) (sport dport seq : ℕ) (flags : UInt8) (data : Bytes) : Bytes :=
  ether_header ++ ipv4_header 6 src dst (20 + data.length) ++
    tcp_header sport dport seq flags ++ data

/-! ## The IP header around a layer -/

/-- The addresses an IP layer at `off` names: source, destination and whether it is IPv6. -/
def ip_addrs (buf : Bytes) (s : LayerSpan) : Option (Bytes × Bytes × Bool) :=
  match s.proto with
  | .Ipv4 =>
    if s.off + 20 ≤ buf.length then
      some (slice buf (s.off + 12) (s.off + 16), slice buf (s.off + 16) (s.off + 20), false)
    else none
  | .Ipv6 =>
    if s.off + 40 ≤ buf.length then
      some (slice buf (s.off + 8) (s.off + 24), slice buf (s.off + 24) (s.off + 40), true)
    else none
  | _ => none

/-- `compute::enclosing_addrs`: the addresses of the nearest IP layer around layer `i`. -/
def enclosing_addrs (buf : Bytes) (spans : List LayerSpan) (i : ℕ) :
    Option (Bytes × Bytes × Bool) :=
  (spans.take i).reverse.findSome? (ip_addrs buf)

end Wiry.Packet
