/-
`fragment` of `crates/wiry-core/src/frag.rs`: one datagram split per RFC 791 or
RFC 8200, with the extents, options and extension-header chain it reads.

The two `while` loops that lay the frames down visit the same pieces of their
payload, `cuts`; the loops over options and chain positions are given as many
turns as there are octets or positions. Offsets are `usize` in the source.
-/
import Wiry.Packet.Checksum
import Wiry.Packet.Octets
import Wiry.Frag.Group

set_option autoImplicit false

namespace Wiry.Frag

open Wiry.Packet

/-- `MAX_EXT`: extension headers walked before the chain is called hostile. -/
def MAX_EXT : ℕ := 8

def EXT_HOP_BY_HOP : UInt8 := 0
def EXT_ROUTING : UInt8 := 43
def EXT_FRAGMENT : UInt8 := 44
def EXT_DEST_OPTS : UInt8 := 60

/-! ## The IP layer and its extent -/

/-- `ip_layer`: the outermost IP layer. -/
def ip_layer (L : Layers) (buf : Bytes) (link : ProtoId) : Option (ProtoId × ℕ) :=
  ((dissect_spans L buf link).find? fun s => s.proto = .Ipv4 ∨ s.proto = .Ipv6).map fun s =>
    (s.proto, s.off)

/-- `v4_extent`: the header's length and the datagram's end. A Total Length shorter than the
header or past the capture describes nothing, so the frame's own end stands in. -/
def v4_extent (buf : Bytes) (off : ℕ) : Option (ℕ × ℕ) :=
  let hdr := buf.drop off
  if hdr.length < 20 then none
  else
    let ihl := max ((hdr.getD 0 0 &&& 0x0f).toNat * 4) 20
    if hdr.length < ihl then none
    else
      let total := (be16 hdr 2).toNat
      some (ihl, if total ≥ ihl ∧ off + total ≤ buf.length then off + total else buf.length)

/-- `v6_end`. -/
def v6_end (buf : Bytes) (off : ℕ) : Option ℕ :=
  let hdr := buf.drop off
  if hdr.length < 40 then none
  else
    let plen := (be16 hdr 4).toNat
    let end_ := off + 40 + plen
    some (if plen > 0 ∧ end_ ≤ buf.length then end_ else buf.length)

/-- What `v4_extent` reads, at the frame's own offsets. -/
theorem v4_extent_eq_some_iff {buf : Bytes} {off ihl end_ : ℕ} :
    v4_extent buf off = some (ihl, end_) ↔
      ihl = max ((buf.getD off 0 &&& 0x0f).toNat * 4) 20 ∧ off + ihl ≤ buf.length ∧
        end_ = if (be16 buf (off + 2)).toNat ≥ ihl ∧ off + (be16 buf (off + 2)).toNat ≤ buf.length
          then off + (be16 buf (off + 2)).toNat else buf.length := by
  -- The fields are read from the header cut off, which is the same octets.
  have hfirst : (buf.drop off).getD 0 0 = buf.getD off 0 := by
    rw [List.getD_eq_getElem?_getD, List.getD_eq_getElem?_getD, List.getElem?_drop, Nat.add_zero]
  have htotal : be16 (buf.drop off) 2 = be16 buf (off + 2) := by
    unfold be16
    simp only [List.getD_eq_getElem?_getD, List.getElem?_drop, Nat.add_assoc]
  unfold v4_extent
  dsimp only
  rw [hfirst, htotal, List.length_drop]
  generalize hihl : max ((buf.getD off 0 &&& 0x0f).toNat * 4) 20 = n
  have hmin : 20 ≤ n := hihl ▸ Nat.le_max_right _ _
  -- Both guards of the source are the two bounds.
  constructor
  · intro h
    split at h
    · exact absurd h nofun
    · split at h
      · exact absurd h nofun
      · obtain ⟨rfl, hend⟩ := Prod.mk.inj (Option.some.inj h)
        exact ⟨rfl, by omega, hend.symm⟩
  · rintro ⟨rfl, hle, rfl⟩
    rw [if_neg (by omega), if_neg (by omega)]

/-- A header ends inside the datagram, and the datagram inside the frame. -/
theorem v4_extent_bounds {buf : Bytes} {off ihl end_ : ℕ} (h : v4_extent buf off = some (ihl, end_)) :
    20 ≤ ihl ∧ off + ihl ≤ end_ ∧ end_ ≤ buf.length := by
  obtain ⟨hihl, hle, hend⟩ := v4_extent_eq_some_iff.1 h
  have hmin : 20 ≤ ihl := hihl ▸ Nat.le_max_right _ _
  split at hend
  · omega
  · omega

/-- Where the IPv6 payload ends: at its length field when that is in range, else at the end of the
frame. -/
theorem v6_end_eq_some_iff {buf : Bytes} {off end_ : ℕ} :
    v6_end buf off = some end_ ↔
      off + 40 ≤ buf.length ∧
        end_ = if (be16 buf (off + 4)).toNat > 0 ∧
            off + 40 + (be16 buf (off + 4)).toNat ≤ buf.length
          then off + 40 + (be16 buf (off + 4)).toNat else buf.length := by
  have hplen : be16 (buf.drop off) 4 = be16 buf (off + 4) := by
    unfold be16
    simp only [List.getD_eq_getElem?_getD, List.getElem?_drop, Nat.add_assoc]
  unfold v6_end
  dsimp only
  rw [hplen, List.length_drop]
  constructor
  · intro h
    split at h
    · exact absurd h nofun
    · exact ⟨by omega, (Option.some.inj h).symm⟩
  · rintro ⟨hle, rfl⟩
    rw [if_neg (by omega)]

theorem v6_end_bounds {buf : Bytes} {off end_ : ℕ} (h : v6_end buf off = some end_) :
    off + 40 ≤ end_ ∧ end_ ≤ buf.length := by
  obtain ⟨hle, hend⟩ := v6_end_eq_some_iff.1 h
  split at hend
  · omega
  · omega

/-! ## Options -/

/-- The loop of `copied_options` over what is left of the options. -/
def copied_loop : ℕ → Bytes → Bytes
  | 0, _ => []
  | _ + 1, [] => []
  | n + 1, t :: rest =>
    if t = 0 then []
    else if t = 1 then copied_loop n rest
    else
      match rest with
      | [] => []
      | len :: _ =>
        if len.toNat < 2 ∨ len.toNat > (t :: rest).length then []
        else
          (if t &&& 0x80 ≠ 0 then (t :: rest).take len.toNat else []) ++
            copied_loop n ((t :: rest).drop len.toNat)

/-- `copied_options`: the high bit of the type octet says whether the option is copied into every
fragment; the region pads out with End of Option List. -/
def copied_options (opts : Bytes) : Bytes :=
  let out := copied_loop opts.length opts
  out ++ List.replicate ((4 - out.length % 4) % 4) 0

/-! ## The extension-header chain -/

/-- `is_ext`. -/
def is_ext (nh : UInt8) : Bool := nh = EXT_HOP_BY_HOP ∨ nh = EXT_ROUTING ∨ nh = EXT_DEST_OPTS

/-- A position of the chain: the next-header value, the header's offset and the offset of the octet
naming it. -/
structure Link where
  nh : UInt8
  at_ : ℕ
  nh_at : ℕ
deriving DecidableEq, Repr

/-- The iterator of `ext_chain`, `left` positions of it. -/
def chain_from (buf : Bytes) (end_ : ℕ) : ℕ → ℕ → ℕ → List Link
  | 0, _, _ => []
  | left + 1, at_, nh_at =>
    match buf[nh_at]? with
    | none => []
    | some nh =>
      ⟨nh, at_, nh_at⟩ ::
        match buf[at_ + 1]? with
        | some l =>
          if is_ext nh ∧ at_ + (l.toNat + 1) * 8 ≤ end_ then
            chain_from buf end_ left (at_ + (l.toNat + 1) * 8) at_
          else []
        | none => []

/-- `ext_chain`. -/
def ext_chain (buf : Bytes) (off end_ : ℕ) : List Link :=
  chain_from buf end_ MAX_EXT (off + 40) (off + 6)

/-- The loop of `v6_unfragmentable`. -/
def unfragmentable_loop : List Link → ℕ × ℕ → Option UInt8 → ℕ → ℕ × ℕ × ℕ
  | [], fixed, _, depth => (fixed.1, fixed.2, depth)
  | l :: rest, fixed, prev, depth =>
    let fixed := if prev.any (· ≠ EXT_DEST_OPTS) then (l.at_, l.nh_at) else fixed
    if is_ext l.nh then unfragmentable_loop rest fixed (some l.nh) (depth + 1)
    else (fixed.1, fixed.2, depth)

/-- `v6_unfragmentable`: the end of the unfragmentable part, the offset of the Next Header octet
that points past it, and how many chain positions the walk spans. -/
def v6_unfragmentable (buf : Bytes) (off end_ : ℕ) : ℕ × ℕ × ℕ :=
  unfragmentable_loop (ext_chain buf off end_) (off + 40, off + 6) none 0

/-- `v6_frag_header`: the offset of the Fragment header and of the octet pointing at it. -/
def v6_frag_header (buf : Bytes) (off end_ : ℕ) : Option (ℕ × ℕ) :=
  (((ext_chain buf off end_).find? fun l => l.nh = EXT_FRAGMENT).filter
    fun l => l.at_ + 8 ≤ end_).map fun l => (l.at_, l.nh_at)

/-- A Fragment header is whole. -/
theorem v6_frag_header_bounds {buf : Bytes} {off end_ fh nh_at : ℕ}
    (h : v6_frag_header buf off end_ = some (fh, nh_at)) : fh + 8 ≤ end_ := by
  obtain ⟨l, hl, heq⟩ := Option.map_eq_some_iff.1 h
  obtain ⟨-, hle⟩ := Option.filter_eq_some_iff.1 hl
  rw [← (Prod.mk.inj heq).1]
  exact of_decide_eq_true hle

/-- `derived_id`. -/
def derived_id (unfrag payload : Bytes) : UInt32 :=
  (unfrag ++ payload).foldl (fun h b => (h ^^^ b.toUInt32) * 0x01000193) 0x811c9dc5

/-! ## The pieces of a payload -/

/-- `unit_of`. -/
def unit_of (fragsize : ℕ) : ℕ := max (fragsize / 8) 1 * 8

/-- The `while at < payload.len()` of both splits, `n` turns of it: each piece by its start and
its length. -/
def cuts_from (unit len : ℕ) : ℕ → ℕ → List (ℕ × ℕ)
  | 0, _ => []
  | n + 1, at_ =>
    if at_ < len then
      (at_, min unit (len - at_)) :: cuts_from unit len n (at_ + min unit (len - at_))
    else []

/-- The pieces of a payload of `len` octets. -/
def cuts (unit len : ℕ) : List (ℕ × ℕ) := cuts_from unit len len 0

/-! ## Splitting -/

/-- What `fragment_v4` reads before its loop. -/
structure Split4 where
  ihl : ℕ
  end_ : ℕ
  word : UInt16
  unit : ℕ

/-- What `fragment_v4` has read where it goes on to its loop; `none` where it hands the frame back
whole. -/
def split_v4 (buf : Bytes) (off fragsize : ℕ) : Option Split4 :=
  match v4_extent buf off with
  | none => none
  | some (ihl, end_) =>
    let word := be16 buf (off + 6)
    -- RFC 791 §2.3: Don't Fragment forbids the split outright.
    if word &&& 0x4000 ≠ 0 then none
    else
      let unit := min (unit_of fragsize) ((MAX_DATAGRAM - ihl) / 8 * 8)
      let payload := slice buf (off + ihl) end_
      if unit = 0 ∨ payload.length ≤ unit then none
      -- A fragment offset is 13 bits; a wider one cannot be described.
      else if (word &&& 0x1fff).toNat + (payload.length - 1) / 8 > 0x1fff then none
      else some ⟨ihl, end_, word, unit⟩

/-- The options of the fragment at `at_`: all of them in the first, the copied ones later. -/
def tail_v4 (buf : Bytes) (off : ℕ) (s : Split4) (at_ : ℕ) : Bytes :=
  let opts := slice buf (off + 20) (off + s.ihl)
  if at_ = 0 then opts else copied_options opts

/-- The payload `fragment_v4` cuts up. -/
def payload_v4 (buf : Bytes) (off : ℕ) (s : Split4) : Bytes := slice buf (off + s.ihl) s.end_

/-- The frame the loop of `fragment_v4` lays down for the `n` octets of payload at `at_`, up to its
payload. -/
def header_v4 (buf : Bytes) (off : ℕ) (s : Split4) (at_ n : ℕ) : Bytes :=
  let base := (s.word &&& 0x1fff).toNat
  let more : Bool := s.word &&& 0x2000 ≠ 0
  let tail := tail_v4 buf off s at_
  let hlen := 20 + tail.length
  let frame := buf.take (off + 20) ++ tail
  let frame := put frame off [(frame.getD off 0 &&& 0xf0) ||| UInt8.ofNat (hlen / 4)]
  let frame := put frame (off + 2) (octets_of 2 (hlen + n))
  let mf : Bool := at_ + n < (payload_v4 buf off s).length ∨ more
  let w : UInt16 := (s.word &&& 0xc000) ||| (if mf then 0x2000 else 0) |||
    (UInt16.ofNat (base + at_ / 8) &&& 0x1fff)
  let frame := put frame (off + 6) (octets_of 2 w.toNat)
  let frame := put frame (off + 10) [0, 0]
  let ck := ones_complement (slice frame off (off + hlen))
  put frame (off + 10) (octets_of 2 ck.toNat)

/-- The frame the loop of `fragment_v4` lays down for the `n` octets of payload at `at_`. -/
def frame_v4 (buf : Bytes) (off : ℕ) (s : Split4) (at_ n : ℕ) : Bytes :=
  header_v4 buf off s at_ n ++ slice (payload_v4 buf off s) at_ (at_ + n)

/-- `fragment_v4`. -/
def fragment_v4 (buf : Bytes) (off fragsize : ℕ) : List Bytes :=
  match split_v4 buf off fragsize with
  | none => [buf]
  | some s => (cuts s.unit (payload_v4 buf off s).length).map fun c => frame_v4 buf off s c.1 c.2

/-- What `fragment_v6` reads before its loop. -/
structure Split6 where
  fixed : ℕ
  nh_at : ℕ
  end_ : ℕ
  unit : ℕ

/-- What `fragment_v6` has read where it goes on to its loop. -/
def split_v6 (buf : Bytes) (off fragsize : ℕ) : Option Split6 :=
  match v6_end buf off with
  | none => none
  | some end_ =>
    if (v6_frag_header buf off end_).isSome then none
    else
      let (fixed, nh_at, depth) := v6_unfragmentable buf off end_
      -- The Fragment header would land past the positions reassembly walks.
      if fixed ≥ end_ ∨ nh_at ≥ buf.length ∨ depth ≥ MAX_EXT then none
      else
        let room := MAX_DATAGRAM - (fixed - (off + 40) + 8)
        let unit := min (unit_of fragsize) (room / 8 * 8)
        let payload := slice buf fixed end_
        if unit = 0 ∨ payload.length ≤ unit then none
        else if (payload.length - 1) / 8 > 0x1fff then none
        else some ⟨fixed, nh_at, end_, unit⟩

/-- The payload `fragment_v6` cuts up. -/
def payload_v6 (buf : Bytes) (s : Split6) : Bytes := slice buf s.fixed s.end_

/-- The frame the loop of `fragment_v6` lays down for the `n` octets of payload at `at_`, up to its
payload. -/
def header_v6 (buf : Bytes) (off : ℕ) (s : Split6) (at_ n : ℕ) : Bytes :=
  let payload := payload_v6 buf s
  let nh := buf.getD s.nh_at 0
  let id := derived_id (slice buf off s.fixed) payload
  let mf : Bool := at_ + n < payload.length
  let frame := put (buf.take s.fixed) s.nh_at [EXT_FRAGMENT]
  let w : UInt16 := (UInt16.ofNat (at_ / 8) <<< 3) ||| (if mf then 1 else 0)
  let frame := frame ++ ([nh, 0] ++ octets_of 2 w.toNat ++ octets_of 4 id.toNat)
  let plen := s.fixed - (off + 40) + 8 + n
  put frame (off + 4) (octets_of 2 plen)

/-- The frame the loop of `fragment_v6` lays down for the `n` octets of payload at `at_`. -/
def frame_v6 (buf : Bytes) (off : ℕ) (s : Split6) (at_ n : ℕ) : Bytes :=
  header_v6 buf off s at_ n ++ slice (payload_v6 buf s) at_ (at_ + n)

/-- `fragment_v6`. -/
def fragment_v6 (buf : Bytes) (off fragsize : ℕ) : List Bytes :=
  match split_v6 buf off fragsize with
  | none => [buf]
  | some s => (cuts s.unit (payload_v6 buf s).length).map fun c => frame_v6 buf off s c.1 c.2

/-- `fragment`: a packet that must not or need not be split comes back whole. -/
def fragment (L : Layers) (buf : Bytes) (link : ProtoId) (fragsize : ℕ) : List Bytes :=
  match ip_layer L buf link with
  | some (.Ipv4, off) => fragment_v4 buf off fragsize
  | some (.Ipv6, off) => fragment_v6 buf off fragsize
  | _ => [buf]

end Wiry.Frag
