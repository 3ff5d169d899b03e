/-
`splice`, `room` and `reframe` of `crates/wiry-core/src/stream.rs`: a frame's own
headers around other octets of its stream, their lengths and sequence number
rewritten.
-/
import Wiry.Packet.Checksum
import Wiry.Packet.Octets
import Wiry.Stream.Inspect

set_option autoImplicit false

namespace Wiry.Stream

open Wiry.Packet

/-! ## The frame around a message -/

/-- `Splice`: where a frame's own headers end and its TCP payload begins. -/
structure Splice where
  ip : ℕ
  tcp : ℕ
  payload : ℕ
  v6 : Bool

/-- `splice`. -/
def splice (L : Layers) (buf : Bytes) (link : ProtoId) : Option Splice :=
  let spans := dissect_spans L buf link
  match first_tcp spans, first_ip spans with
  | some tcp, some ip =>
    let payload := tcp.off + tcp.hlen
    if payload ≤ buf.length then some ⟨ip.off, tcp.off, payload, ip.proto = .Ipv6⟩ else none
  | _, _ => none

/-- `room`: octets of payload one frame's headers can describe. -/
def room (s : Splice) : ℕ :=
  let hdrs := s.payload - s.ip
  if s.v6 then 0xffff - (hdrs - 40) else 0xffff - hdrs

/-- The head of the frame `reframe_with` builds: the headers, renumbered and with no TCP checksum. -/
def renumbered (src : Bytes) (s : Splice) (skip : UInt32) : Bytes :=
  let f := src.take s.payload
  let seq := be32 f (s.tcp + 4) + skip
  put (put f (s.tcp + 4) (octets_of 4 seq.toNat)) (s.tcp + 16) [0, 0]

/-- The IPv4 header of the frame, its length and checksum recomputed. -/
def relength_v4 (f : Bytes) (ip : ℕ) : Bytes :=
  let f := put f (ip + 2) (octets_of 2 (f.length - ip))
  let ihl := (f.getD ip 0 &&& 0x0f).toNat * 4
  if ip + ihl ≤ f.length then
    let f := put f (ip + 10) [0, 0]
    put f (ip + 10) (octets_of 2 (ones_complement (slice f ip (ip + ihl))).toNat)
  else f

/-- `reframe_with`: `none` where the headers end early or cannot describe `data`. -/
def reframe_with (src : Bytes) (s : Splice) (skip : UInt32) (data : Bytes) : Option Bytes :=
  let ip_min := if s.v6 then 40 else 20
  if s.payload < s.tcp + 20 ∨ s.tcp < s.ip + ip_min ∨ data.length > room s then none
  else
    let f := renumbered src s skip ++ data
    if s.v6 then some (put f (s.ip + 4) (octets_of 2 (f.length - s.ip - 40)))
    else some (relength_v4 f s.ip)

/-- `reframe`. -/
def reframe (L : Layers) (src : Bytes) (link : ProtoId) (skip : UInt32) (data : Bytes) :
    Option Bytes := (splice L src link).bind fun s => reframe_with src s skip data

/-! ## The sequence number of the frame -/

theorem length_renumbered {src : Bytes} {s : Splice} {skip : UInt32} (hs : s.payload ≤ src.length)
    (htcp : s.tcp + 20 ≤ s.payload) : (renumbered src s skip).length = s.payload := by
  have hlen : (src.take s.payload).length = s.payload := by
    rw [List.length_take]
    omega
  have hseq : (put (src.take s.payload) (s.tcp + 4)
      (octets_of 4 (be32 (src.take s.payload) (s.tcp + 4) + skip).toNat)).length = s.payload := by
    rw [length_put (by rw [length_octets_of, hlen]; omega), hlen]
  unfold renumbered
  dsimp only
  rw [length_put (by rw [hseq, List.length_cons, List.length_singleton]; omega), hseq]

/-- And moves the sequence number by what was skipped. -/
theorem be32_renumbered {src : Bytes} {s : Splice} {skip : UInt32} (hs : s.payload ≤ src.length)
    (htcp : s.tcp + 20 ≤ s.payload) :
    be32 (renumbered src s skip) (s.tcp + 4) = be32 src (s.tcp + 4) + skip := by
  have hlen : (src.take s.payload).length = s.payload := by
    rw [List.length_take]
    omega
  have hread : be32 (src.take s.payload) (s.tcp + 4) = be32 src (s.tcp + 4) := by
    apply be32_congr
    intro n hn
    rw [List.getElem?_take_of_lt (by omega)]
  unfold renumbered
  dsimp only
  rw [be32_put_of_apart, be32_put_octets (by omega), hread]
  · rw [length_put (by rw [length_octets_of, hlen]; omega), hlen, List.length_cons,
      List.length_singleton]
    omega
  · exact Or.inr (by omega)

/-- The IPv4 header lies in front of what is read past it. -/
theorem be32_relength_v4 {f : Bytes} {ip i : ℕ} (hi : ip + 20 ≤ i) (hf : i ≤ f.length) :
    be32 (relength_v4 f ip) i = be32 f i := by
  have hlen : (octets_of 2 (f.length - ip)).length = 2 := length_octets_of _ _
  have htotal : (put f (ip + 2) (octets_of 2 (f.length - ip))).length = f.length :=
    length_put (by omega)
  have hkeep : be32 (put f (ip + 2) (octets_of 2 (f.length - ip))) i = be32 f i :=
    be32_put_of_apart (by omega) (by omega)
  unfold relength_v4
  dsimp only
  split
  · generalize put f (ip + 2) (octets_of 2 (f.length - ip)) = g at htotal hkeep ⊢
    have hzero : (put g (ip + 10) [0, 0]).length = g.length :=
      length_put (by rw [List.length_cons, List.length_singleton]; omega)
    rw [be32_put_of_apart (by rw [length_octets_of, hzero]; omega) (by rw [length_octets_of]; omega),
      be32_put_of_apart (by rw [List.length_cons, List.length_singleton]; omega)
        (by rw [List.length_cons, List.length_singleton]; omega), hkeep]
  · exact hkeep

/-- **The frame carries the sequence number of its source and what is skipped.** -/
theorem reframe_with_seq {src : Bytes} {s : Splice} {skip : UInt32} {data f : Bytes}
    (hs : s.payload ≤ src.length) (h : reframe_with src s skip data = some f) :
    be32 f (s.tcp + 4) = be32 src (s.tcp + 4) + skip := by
  unfold reframe_with at h
  dsimp only at h
  by_cases hbad : s.payload < s.tcp + 20 ∨ s.tcp < s.ip + (if s.v6 then 40 else 20) ∨
      data.length > room s
  · rw [if_pos hbad] at h
    exact absurd h nofun
  · rw [if_neg hbad] at h
    obtain ⟨htcp, hip, -⟩ : s.tcp + 20 ≤ s.payload ∧ s.ip + (if s.v6 then 40 else 20) ≤ s.tcp ∧
        data.length ≤ room s := by omega
    have hhead : (renumbered src s skip).length = s.payload := length_renumbered hs htcp
    have hlong : (renumbered src s skip ++ data).length = s.payload + data.length := by
      rw [List.length_append, hhead]
    -- The renumbered header reads its new number, wherever the data goes.
    have hread : be32 (renumbered src s skip ++ data) (s.tcp + 4) =
        be32 src (s.tcp + 4) + skip := by
      rw [← be32_renumbered hs htcp]
      apply be32_congr
      intro n hn
      rw [List.getElem?_append_left (by omega)]
    -- The lengths are stamped elsewhere in the header.
    by_cases hv6 : s.v6 = true
    · rw [if_pos hv6] at h hip
      rw [← Option.some.inj h, be32_put_of_apart (by rw [length_octets_of]; omega)
        (by rw [length_octets_of]; omega), hread]
    · rw [if_neg hv6] at h hip
      rw [← Option.some.inj h, be32_relength_v4 (by omega) (by omega), hread]

/-! ## The payload of the frame -/

/-- The header is rewritten in place, and what lies behind it stays. -/
theorem relength_v4_append {head : Bytes} (data : Bytes) {ip : ℕ} (hip : ip + 20 ≤ head.length) :
    ∃ head', head'.length = head.length ∧ relength_v4 (head ++ data) ip = head' ++ data := by
  have htwo : ∀ n, (octets_of 2 n).length = 2 := length_octets_of 2
  unfold relength_v4
  dsimp only
  rw [put_append_left data (by rw [htwo]; omega)]
  have hlen : (put head (ip + 2) (octets_of 2 ((head ++ data).length - ip))).length =
      head.length := length_put (by rw [htwo]; omega)
  generalize put head (ip + 2) (octets_of 2 ((head ++ data).length - ip)) = g at hlen ⊢
  split
  · have hzero : (put g (ip + 10) [0, 0]).length = g.length :=
      length_put (by rw [List.length_cons, List.length_singleton]; omega)
    rw [put_append_left data (by rw [List.length_cons, List.length_singleton]; omega),
      put_append_left data (by rw [htwo, hzero]; omega)]
    refine ⟨_, ?_, rfl⟩
    rw [length_put (by rw [htwo, hzero]; omega), hzero, hlen]
  · exact ⟨g, hlen, rfl⟩

/-- When `reframe_with` refuses: the headers end early, or cannot describe so much. -/
theorem reframe_with_isSome {src : Bytes} {s : Splice} {skip : UInt32} {data : Bytes} :
    (reframe_with src s skip data).isSome ↔ s.tcp + 20 ≤ s.payload ∧
      s.ip + (if s.v6 then 40 else 20) ≤ s.tcp ∧ data.length ≤ room s := by
  unfold reframe_with
  dsimp only
  by_cases hbad : s.payload < s.tcp + 20 ∨ s.tcp < s.ip + (if s.v6 then 40 else 20) ∨
      data.length > room s
  · rw [if_pos hbad]
    simp only [Option.isSome_none, Bool.false_eq_true, false_iff]
    omega
  · rw [if_neg hbad]
    have hfit : s.tcp + 20 ≤ s.payload ∧ s.ip + (if s.v6 then 40 else 20) ≤ s.tcp ∧
        data.length ≤ room s := by omega
    refine iff_of_true ?_ hfit
    split <;> rfl

/-- **Behind its headers the frame carries the octets it was given.** -/
theorem reframe_with_payload {src : Bytes} {s : Splice} {skip : UInt32} {data f : Bytes}
    (hs : s.payload ≤ src.length) (h : reframe_with src s skip data = some f) :
    f.drop s.payload = data := by
  have hfit := reframe_with_isSome.1 (Option.isSome_of_mem h)
  obtain ⟨htcp, hip, hroom⟩ := hfit
  have hhead : (renumbered src s skip).length = s.payload := length_renumbered hs htcp
  have hbehind : ∀ {head : Bytes}, head.length = s.payload → (head ++ data).drop s.payload = data :=
    fun hlen => by rw [← hlen, List.drop_left]
  unfold reframe_with at h
  dsimp only at h
  rw [if_neg (by omega)] at h
  -- Either family stamps its length inside the header, so the data stays behind it.
  by_cases hv6 : s.v6 = true
  · rw [if_pos hv6] at h hip
    have hsix : s.ip + 4 + (octets_of 2 ((renumbered src s skip ++ data).length - s.ip - 40)).length ≤
        (renumbered src s skip).length := by
      rw [length_octets_of]
      omega
    rw [← Option.some.inj h, put_append_left data hsix]
    exact hbehind ((length_put hsix).trans hhead)
  · rw [if_neg hv6] at h hip
    have hfits : s.ip + 20 ≤ (renumbered src s skip).length := by omega
    obtain ⟨head, hlen, hrelength⟩ := relength_v4_append data hfits
    rw [← Option.some.inj h, hrelength]
    exact hbehind (hlen.trans hhead)

/-- What `splice` finds is where `inspect` reads the segment. -/
theorem splice_segment {L : Layers} {buf : Bytes} {link : ProtoId} {s : Splice} {g : Segment}
    (hs : splice L buf link = some s) (hg : inspect L buf link = some g) :
    s.payload ≤ buf.length ∧ be32 buf (s.tcp + 4) = g.seq := by
  obtain ⟨tcp, ip, src, dst, htcp, hip, -, rfl⟩ := inspect_spec hg
  unfold splice at hs
  dsimp only at hs
  rw [htcp, hip] at hs
  dsimp only at hs
  split at hs
  · rename_i hle
    rw [← Option.some.inj hs]
    refine ⟨hle, ?_⟩
    apply be32_congr
    intro n _
    rw [List.getElem?_drop, Nat.add_assoc]
  · exact absurd hs nofun

/-- **A reframed frame's sequence number** is that of its source's segment and what is skipped. -/
theorem reframe_seq {L : Layers} {buf : Bytes} {link : ProtoId} {skip : UInt32} {data f : Bytes}
    {g : Segment} (hg : inspect L buf link = some g) (h : reframe L buf link skip data = some f) :
    ∃ s, splice L buf link = some s ∧ be32 f (s.tcp + 4) = g.seq + skip := by
  obtain ⟨s, hs, hwith⟩ := Option.bind_eq_some_iff.1 h
  obtain ⟨hle, hseq⟩ := splice_segment hs hg
  exact ⟨s, hs, by rw [reframe_with_seq hle hwith, hseq]⟩

end Wiry.Stream
