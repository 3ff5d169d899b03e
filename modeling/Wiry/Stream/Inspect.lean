/-
`inspect` of `crates/wiry-core/src/stream.rs`: the TCP segment a frame carries,
and the key both directions of its connection share.
-/
import Wiry.Packet.Octets
import Wiry.Stream.Half

set_option autoImplicit false

namespace Wiry.Stream

open Wiry.Packet

/-- The order `(src, sport) <= (dst, dport)` compares by. -/
def endpoint_le (src : Addr) (sport : UInt16) (dst : Addr) (dport : UInt16) : Prop :=
  src.octets < dst.octets ∨ src = dst ∧ sport ≤ dport

instance (src : Addr) (sport : UInt16) (dst : Addr) (dport : UInt16) :
    Decidable (endpoint_le src sport dst dport) := inferInstanceAs (Decidable (_ ∨ _))

/-- `Key`: direction-free, so both halves of a connection share one. -/
structure Key where
  a : Addr
  b : Addr
  pa : UInt16
  pb : UInt16
  v6 : Bool
deriving DecidableEq, Repr

/-- The key of a connection between two endpoints. -/
def key_of (src : Addr) (sport : UInt16) (dst : Addr) (dport : UInt16) (v6 : Bool) : Key :=
  if endpoint_le src sport dst dport then ⟨src, dst, sport, dport, v6⟩
  else ⟨dst, src, dport, sport, v6⟩

/-- `Segment`: what a frame says of the TCP segment it carries. -/
structure Segment where
  key : Key
  src : Addr
  dst : Addr
  sport : UInt16
  dport : UInt16
  v6 : Bool
  seq : UInt32
  flags : UInt8
  at_ : ℕ
  end_ : ℕ
deriving DecidableEq, Repr

/-- `buf.get(a..b)`. -/
def get_range (buf : Bytes) (a b : ℕ) : Option Bytes :=
  if a ≤ b ∧ b ≤ buf.length then some (slice buf a b) else none

/-- The first TCP layer of a frame. -/
def first_tcp (spans : List LayerSpan) : Option LayerSpan := spans.find? (·.proto = .Tcp)

/-- The first IP layer of a frame, of either version. -/
def first_ip (spans : List LayerSpan) : Option LayerSpan :=
  spans.find? fun s => s.proto = .Ipv4 ∨ s.proto = .Ipv6

/-- The addresses `inspect` reads at an IP layer. -/
def addr_pair (buf : Bytes) (ip : LayerSpan) : Option (Addr × Addr) :=
  let o := ip.off
  if ip.proto = .Ipv6 then do
    let src ← get_range buf (o + 8) (o + 24)
    let dst ← get_range buf (o + 24) (o + 40)
    pure (wide src, wide dst)
  else do
    let src ← get_range buf (o + 12) (o + 16)
    let dst ← get_range buf (o + 16) (o + 20)
    pure (wide src, wide dst)

/-- The segment a TCP layer at `tcp` carries between two addresses. -/
def segment_at (buf : Bytes) (tcp : LayerSpan) (src dst : Addr) (v6 : Bool) : Segment :=
  let t := tcp.off
  let hdr := buf.drop t
  let sport := be16 hdr 0
  let dport := be16 hdr 2
  -- the dissector's payload extent, not a second reading of Data Offset
  let at_ := min (t + tcp.hlen) buf.length
  { key := key_of src sport dst dport v6
    src, dst, sport, dport, v6
    seq := be32 hdr 4
    flags := hdr.getD 13 0
    at_
    end_ := max (min (t + tcp.total) buf.length) at_ }

/-- `inspect`: `none` when the frame carries no TCP segment this can key. -/
def inspect (L : Layers) (buf : Bytes) (link : ProtoId) : Option Segment :=
  let spans := dissect_spans L buf link
  match first_tcp spans, first_ip spans with
  | some tcp, some ip =>
    match addr_pair buf ip with
    | some (src, dst) =>
      if tcp.off ≤ buf.length ∧ 20 ≤ (buf.drop tcp.off).length then
        some (segment_at buf tcp src dst (ip.proto = .Ipv6))
      else none
    | none => none
  | _, _ => none

/-- What `inspect` reads a segment from. -/
theorem inspect_spec {L : Layers} {buf : Bytes} {link : ProtoId} {s : Segment}
    (h : inspect L buf link = some s) :
    ∃ tcp ip src dst, first_tcp (dissect_spans L buf link) = some tcp ∧
      first_ip (dissect_spans L buf link) = some ip ∧ addr_pair buf ip = some (src, dst) ∧
      s = segment_at buf tcp src dst (ip.proto = .Ipv6) := by
  unfold inspect at h
  dsimp only at h
  split at h
  · rename_i tcp ip htcp hip
    split at h
    · rename_i src dst haddr
      split at h
      · exact ⟨tcp, ip, src, dst, htcp, hip, haddr, (Option.some.inj h).symm⟩
      · exact absurd h nofun
    · exact absurd h nofun
  · exact absurd h nofun

/-- The endpoints a key was made of are its two, in one order or the other. -/
theorem key_of_eq_iff {src dst src' dst' : Addr} {sport dport sport' dport' : UInt16}
    {v6 v6' : Bool} (h : key_of src sport dst dport v6 = key_of src' sport' dst' dport' v6') :
    v6 = v6' ∧ (src = src' ∧ sport = sport' ∧ dst = dst' ∧ dport = dport' ∨
      src = dst' ∧ sport = dport' ∧ dst = src' ∧ dport = sport') := by
  unfold key_of at h
  split at h <;> split at h <;> simp only [Key.mk.injEq] at h <;> tauto

end Wiry.Stream
