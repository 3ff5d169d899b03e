/-
`crates/wiry-core/src/answers.rs`: the key distilled from a sent packet, and the test of a
received one against it.

A frame is its octets and the spans it was dissected into. Addresses are right-aligned in
sixteen octets.
-/
import Wiry.Packet.Dissect
import Wiry.Packet.Octets

set_option autoImplicit false

namespace Wiry.Answers

open Packet (Bytes LayerSpan ProtoId Layers Addr slice_checked dissect_spans)

structure Frame where
  buf : Bytes
  spans : List LayerSpan

/-! ## Octets -/

def be16 (b : Bytes) (off : ℕ) : Option UInt16 :=
  (slice_checked b off (off + 2)).map fun x => Packet.be16 x 0

def be32 (b : Bytes) (off : ℕ) : Option UInt32 :=
  (slice_checked b off (off + 4)).map fun x => Packet.be32 x 0

/-- `wide`: an IPv4 address is the low four octets. -/
def wide (b : Bytes) : Addr where
  octets := List.replicate (16 - min b.length 16) 0 ++ b.take 16
  length_eq := by
    rw [List.length_append, List.length_replicate, List.length_take]
    omega

def four (b : Bytes) (off : ℕ) : Option Bytes := slice_checked b off (off + 4)

/-! ## Layers -/

def find (spans : List LayerSpan) (p : ProtoId) : Option LayerSpan := spans.find? fun s => s.proto = p

def hdr (buf : Bytes) (s : LayerSpan) : Bytes := s.header buf

/-- From the layer's first octet to the end of the buffer. -/
def body (buf : Bytes) (s : LayerSpan) : Bytes := buf.drop (min s.off buf.length)

def payload (buf : Bytes) (s : LayerSpan) : Bytes := buf.drop (min (s.off + s.hlen) buf.length)

structure Pair where
  src : Addr
  dst : Addr
  v6 : Bool
deriving DecidableEq

def pair_v4 (h : Bytes) : Option Pair := do
  some ⟨wide (← slice_checked h 12 16), wide (← slice_checked h 16 20), false⟩

def pair_v6 (h : Bytes) : Option Pair := do
  some ⟨wide (← slice_checked h 8 24), wide (← slice_checked h 24 40), true⟩

def ip_pair (buf : Bytes) (spans : List LayerSpan) : Option Pair :=
  match find spans .Ipv4 with
  | some s => pair_v4 (hdr buf s)
  | none =>
    match find spans .Ipv6 with
    | some s => pair_v6 (hdr buf s)
    | none => none

/-! ## What is sent -/

structure DnsAsk where
  id : UInt16
  query : Bool
deriving DecidableEq

inductive ReplyKind where
  | IcmpEcho (id seq : UInt16)
  | Icmpv6Echo (id seq : UInt16)
  /-- `expect_ack` is what a reply's ack would be if it acknowledged everything sent. -/
  | Tcp (sport dport : UInt16) (expect_ack : UInt32)
  | Udp (sport dport : UInt16) (dns : Option DnsAsk)
  | Arp (pdst : Bytes)
  /-- An IP datagram only an ICMP error quoting it can answer. -/
  | Ip
deriving DecidableEq

/-- What an ICMP error echoes back. -/
structure Quote where
  src : Bytes
  dst : Bytes
  proto : UInt8
  ip_id : UInt16
  head : Bytes
  len : ℕ

structure ReplyKey where
  kind : ReplyKind
  src : Addr
  dst : Addr
  v6 : Bool
  quote : Option Quote

def ECHO_REQUEST : UInt8 := 8
def ECHO_REPLY : UInt8 := 0
def ECHO_REQUEST_V6 : UInt8 := 128
def ECHO_REPLY_V6 : UInt8 := 129
def OP_WHO_HAS : UInt16 := 1
def OP_IS_AT : UInt16 := 2

/-- Destination unreachable, source quench, redirect, time exceeded, parameter problem. -/
def ERROR_TYPES : List UInt8 := [3, 4, 5, 11, 12]

def ipv4_quote (buf : Bytes) (spans : List LayerSpan) : Option Quote := do
  let s ← find spans .Ipv4
  let h := hdr buf s
  let ip_id ← be16 h 4
  let after := payload buf s
  let len := min after.length 8
  some ⟨← four h 12, ← four h 16, ← h[9]?, ip_id, after.take len ++ List.replicate (8 - len) 0, len⟩

def dns_ask (h : Bytes) : Option DnsAsk := do
  some ⟨← be16 h 0, (← h[2]?) &&& 0x80 = 0⟩

/-- The id and seq of an echo message of type `t`. -/
def echo (h : Bytes) (t : UInt8) : Option (UInt16 × UInt16) :=
  if h.head? = some t then do some (← be16 h 4, ← be16 h 6) else none

def tcp_kind (buf : Bytes) (s : LayerSpan) : Option ReplyKind := do
  let h := hdr buf s
  let sport ← be16 h 0
  let dport ← be16 h 2
  let seq ← be32 h 4
  -- a SYN and a FIN each occupy one sequence number
  let ctl := h.getD 13 0
  let phantom : UInt32 := if ctl &&& 0b11 ≠ 0 then 1 else 0
  some (.Tcp sport dport (seq + UInt32.ofNat (s.total - s.hlen) + phantom))

def udp_kind (buf : Bytes) (spans : List LayerSpan) (s : LayerSpan) : Option ReplyKind := do
  let h := hdr buf s
  let sport ← be16 h 0
  let dport ← be16 h 2
  some (.Udp sport dport ((find spans .Dns).bind fun d => dns_ask (hdr buf d)))

def sent_kind (buf : Bytes) (spans : List LayerSpan) : ReplyKind :=
  match find spans .Icmp with
  | some s => ((echo (hdr buf s) ECHO_REQUEST).map fun e => .IcmpEcho e.1 e.2).getD .Ip
  | none =>
    match find spans .Icmpv6 with
    | some s => ((echo (body buf s) ECHO_REQUEST_V6).map fun e => .Icmpv6Echo e.1 e.2).getD .Ip
    | none =>
      match find spans .Tcp with
      | some s => (tcp_kind buf s).getD .Ip
      | none =>
        match find spans .Udp with
        | some s => (udp_kind buf spans s).getD .Ip
        | none => .Ip

/-- `reply_key` of an ARP request. -/
def arp_key (h : Bytes) : Option ReplyKey := do
  if (← be16 h 6) ≠ OP_WHO_HAS then none
  else some ⟨.Arp (← slice_checked h 24 28), wide [], wide [], false, none⟩

/-- `None` when nothing can ever answer this packet. -/
def reply_key (f : Frame) : Option ReplyKey :=
  match find f.spans .Arp with
  | some s => arp_key (hdr f.buf s)
  | none =>
    match ip_pair f.buf f.spans with
    | none => none
    | some pair =>
      let kind := sent_kind f.buf f.spans
      let quote := ipv4_quote f.buf f.spans
      if kind = .Ip ∧ quote.isNone then none else some ⟨kind, pair.src, pair.dst, pair.v6, quote⟩

/-! ## What is received -/

def swapped (sent : ReplyKey) (pair : Pair) (check_addr : Bool) : Bool :=
  pair.v6 == sent.v6 && (!check_addr || (pair.src == sent.dst && pair.dst == sent.src))

/-- The ports of a reply to `sport` and `dport`. -/
def ports_back (h : Bytes) (sport dport : UInt16) : Bool :=
  be16 h 0 == some dport && be16 h 2 == some sport

/-- A response answers a query only, by its id. -/
def dns_back (buf : Bytes) (spans : List LayerSpan) : Option DnsAsk → Bool
  | none => true
  | some ask =>
    ask.query && (find spans .Dns).any fun d => dns_ask (hdr buf d) == some ⟨ask.id, false⟩

def direct_answer (sent : ReplyKey) (f : Frame) (check_addr : Bool) : Bool :=
  match ip_pair f.buf f.spans with
  | none => false
  | some pair =>
    match sent.kind with
    | .IcmpEcho id seq =>
      (find f.spans .Icmp).any fun s =>
        echo (hdr f.buf s) ECHO_REPLY == some (id, seq) && !sent.v6 && swapped sent pair check_addr
    | .Icmpv6Echo id seq =>
      (find f.spans .Icmpv6).any fun s =>
        echo (body f.buf s) ECHO_REPLY_V6 == some (id, seq) && sent.v6 && swapped sent pair check_addr
    | .Tcp sport dport _ =>
      (find f.spans .Tcp).any fun s =>
        swapped sent pair check_addr && ports_back (hdr f.buf s) sport dport
    | .Udp sport dport dns =>
      (find f.spans .Udp).any fun s =>
        swapped sent pair check_addr && ports_back (hdr f.buf s) sport dport &&
          dns_back f.buf f.spans dns
    | .Arp _ | .Ip => false

/-- The quoted header of an error is the one that was sent. -/
def quotes (q : Quote) (inner : Bytes) (ip : LayerSpan) (check_addr : Bool) : Bool :=
  let h := hdr inner ip
  (!check_addr || (four h 12 == some q.src && four h 16 == some q.dst)) &&
    h[9]? == some q.proto && be16 h 4 == some q.ip_id &&
    slice_checked (payload inner ip) 0 q.len == some (q.head.take q.len)

def quoted_back (L : Layers) (sent : ReplyKey) (f : Frame) (check_addr : Bool) : Bool :=
  match sent.quote, find f.spans .Icmp with
  | some q, some s =>
    (hdr f.buf s).head?.any (ERROR_TYPES.contains ·) &&
      let inner := payload f.buf s
      ((dissect_spans L inner .Ipv4).head?.filter (·.proto = .Ipv4)).any fun ip =>
        quotes q inner ip check_addr
  | _, _ => false

def arp_answers (pdst : Bytes) (f : Frame) : Bool :=
  (find f.spans .Arp).any fun s =>
    be16 (hdr f.buf s) 6 == some OP_IS_AT && slice_checked (hdr f.buf s) 14 18 == some pdst

def answers_matching (L : Layers) (sent : ReplyKey) (f : Frame) (check_addr : Bool) : Bool :=
  match sent.kind with
  | .Arp pdst => arp_answers pdst f
  | _ => direct_answer sent f check_addr || quoted_back L sent f check_addr

def answers (L : Layers) (sent : ReplyKey) (f : Frame) : Bool := answers_matching L sent f true

end Wiry.Answers
