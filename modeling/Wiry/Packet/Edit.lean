/-
What a caller does to a packet: construction, dissection, edits of a field, a
region or a payload, and serialisation, from `crates/wiry-core/src/packet.rs`.

An edit that is refused answers `none` and changes nothing.
-/
import Wiry.Packet.Compute

set_option autoImplicit false

namespace Wiry.Packet

variable (R : Registry)

/-- A function applied to `&mut buf[a..b]`. -/
def edit_slice (buf : Bytes) (a b : ℕ) (f : Bytes → Bytes) : Bytes := put buf a (f (slice buf a b))

/-- `refresh_totals`. -/
def refresh_totals (pkt : Packet) : Packet :=
  { pkt with spans := pkt.spans.map fun s => { s with total := pkt.buf.length - s.off } }

/-- `mark_dirty`: lengths and checksums propagate outward, so enclosing layers go too. -/
def mark_dirty (pkt : Packet) (layer : ℕ) : Packet :=
  { pkt with
    dirty := (List.range (min layer 31 + 1)).foldl (fun d i => d ||| (1 <<< UInt32.ofNat i)) pkt.dirty }

/-- `u32::MAX`: every layer is dirty. -/
def ALL_DIRTY : UInt32 := 0xffffffff

/-! ## Making a packet -/

/-- `Packet::dissect`. -/
def dissect (buf : Bytes) (link : ProtoId) : Packet where
  buf := buf
  spans := dissect_spans R.layers buf link
  dirty := 0
  resized := false
  pinned := []

/-- The defaults of a layer laid down in its header. -/
def put_defaults (fields : List FieldDesc) (hdr : Bytes) : Bytes :=
  fields.foldl (fun hdr f =>
    if !f.is_active hdr then hdr
    else
      match f.default_bytes with
      | some b => put hdr (f.bit_off / 8) (b.take (hdr.length - f.bit_off / 8))
      | none => if f.default ≠ 0 then write_uint hdr f f.default else hdr) hdr

/-- The header of a layer told what is stacked under it: a variant is bound as its base too. -/
def bind_child (hdr : Bytes) (parent child : ProtoId) : Bytes :=
  ((R.base_of child).toList ++ [child]).foldl (fun hdr q =>
    let hdr := match (R.desc parent).bind_next with
      | some bind => bind.run hdr q
      | none => hdr
    R.apply_bind ((R.bind_layer parent).run hdr q) parent q) hdr

/-- A layer's own header in construction: options and their padding, defaults, its length and its
group. -/
def build_header (pre : ℕ) (p : ProtoId) (opts : Bytes) : Bytes :=
  let d := R.desc p
  let pad := if opts.isEmpty ∨ !d.pads_options then 0 else (4 - opts.length % 4) % 4
  let hdr := put_defaults (R.fields_of p (0 < pre))
    (List.replicate (pre + d.build_len) 0 ++ opts ++ List.replicate pad 0)
  let hdr := match d.set_hlen with
    | some setter => setter.run hdr hdr.length
    | none => hdr
  match d.sync with
  | some sync => sync.run hdr ()
  | none => hdr

/-- One turn of `build_with`: the layer above is finished only now. -/
def build_layer (st : Bytes × List LayerSpan) (layer : ProtoId × Option Bytes) :
    Bytes × List LayerSpan :=
  let p := layer.1
  match st.2.getLast? with
  | none =>
    let hdr := build_header R 0 p (layer.2.getD [])
    (hdr, [⟨p, 0, hdr.length, hdr.length⟩])
  | some prev =>
    let extra := ((R.desc prev.proto).bind_next_bytes.map fun f => f p).getD []
    let buf := st.1 ++ extra
    let prev := { prev with hlen := prev.hlen + extra.length }
    let hdr := build_header R (framing_octets prev.proto p) p (layer.2.getD [])
    let bound := edit_slice buf prev.off (min (prev.off + prev.hlen) buf.length) fun hdr =>
      bind_child R hdr prev.proto p
    (bound ++ hdr, st.2.dropLast ++ [prev, ⟨p, buf.length, hdr.length, hdr.length⟩])

/-- `build_with`. -/
def build_with (stack : List (ProtoId × Option Bytes)) : Packet :=
  let st := stack.foldl (build_layer R) ([], [])
  refresh_totals
    { buf := st.1, spans := st.2, dirty := ALL_DIRTY, resized := false, pinned := [] }

/-! ## Editing one -/

/-- `pin`. -/
def pin (pkt : Packet) (layer : ℕ) (proto : ProtoId) (name : String) : Packet :=
  if pkt.is_pinned layer name then pkt
  else { pkt with pinned := pkt.pinned ++ [(layer, proto, name)] }

/-- `set_uint`: a value too wide is refused, and one that landed in a computed field pins it. -/
def set_uint (pkt : Packet) (layer : ℕ) (name : String) (val : ℕ) : Option Packet :=
  match pkt.spans[layer]? with
  | none => none
  | some s =>
    match pkt.active_field R layer name with
    | none => none
    | some f =>
      if !fits f val then none
      else
        let (a, b) := s.hdr_range pkt.buf.length
        let written := { pkt with buf := edit_slice pkt.buf a b fun hdr => write_uint hdr f val }
        some (mark_dirty
          (if f.computed ∧ f.bit_off + f.bit_len ≤ (b - a) * 8 then pin written layer s.proto f.name
            else written) layer)

/-- The octets a stacked layer contributed, where the header still ends in them. -/
def kept_tail (pkt : Packet) (layer : ℕ) (s : LayerSpan) (pos end_ : ℕ) : Bytes :=
  let tail :=
    match (R.desc s.proto).bind_next_bytes, pkt.spans[layer + 1]? with
    | some f, some n => f n.proto
    | _, _ => []
  if tail ≠ [] ∧ end_ - pos > tail.length ∧ slice pkt.buf (end_ - tail.length) end_ = tail then tail
  else []

/-- `replace_region`: a variable-length field owns the rest of its layer, so the frame resizes with
it, and the header length that governs it follows. -/
def replace_region (pkt : Packet) (layer : ℕ) (s : LayerSpan) (pos : ℕ) (val : Bytes) : Packet :=
  let d := R.desc s.proto
  let end_ := min (s.off + s.hlen) pkt.buf.length
  let pos := min pos end_
  let pad := if d.pads_options then (4 - val.length % 4) % 4 else 0
  let region := val ++ List.replicate pad 0 ++ kept_tail R pkt layer s pos end_
  let buf := pkt.buf.take pos ++ region ++ pkt.buf.drop end_
  let hlen := pos + region.length - s.off
  let s' := { s with hlen }
  let spans := pkt.spans.take layer ++ s' ::
    (pkt.spans.drop (layer + 1)).map fun t => { t with off := t.off + region.length - (end_ - pos) }
  let (a, b) := s'.hdr_range buf.length
  let buf := match d.set_hlen with
    | some setter => edit_slice buf a b fun hdr => setter.run hdr hlen
    | none => buf
  let buf := match d.sync with
    | some sync => edit_slice buf a b fun hdr => sync.run hdr ()
    | none => buf
  refresh_totals { pkt with buf, spans, dirty := ALL_DIRTY, resized := true }

/-- `set_bytes`: a fixed-width field is replaced, not partly overwritten. -/
def set_bytes (pkt : Packet) (layer : ℕ) (name : String) (val : Bytes) : Option Packet :=
  match pkt.spans[layer]? with
  | none => none
  | some s =>
    match pkt.active_field R layer name with
    | none => none
    | some f =>
      let a := min (s.off + f.bit_off / 8) pkt.buf.length
      if f.kind = .VarBytes then some (replace_region R pkt layer s a val)
      else
        let room := min (pkt.buf.length - a) (f.bit_len / 8)
        let val := (wire_octets f val).take room
        some (mark_dirty { pkt with
          buf := put pkt.buf a (val ++ List.replicate (room - val.length) 0) } layer)

/-- `set_payload`: the layers are read off the new octets, their lengths bounding nothing yet. -/
def set_payload (pkt : Packet) (layer : ℕ) (data : Bytes) : Option Packet :=
  match pkt.spans[layer]? with
  | none => none
  | some s =>
    let buf := pkt.buf.take (s.off + s.hlen) ++ data
    let link := (pkt.spans.head?.map LayerSpan.proto).getD .Raw
    some { pkt with
      buf, spans := spans_of R.layers.table buf link false, dirty := ALL_DIRTY, resized := true }

/-- One turn of `refit_headers`: a header that one of its own fields makes longer. -/
def refit_layer (pkt : Packet) (i : ℕ) : Packet :=
  match pkt.spans[i]? with
  | none => pkt
  | some s =>
    let d := R.desc s.proto
    let want := d.header_len (pkt.header i)
    if d.set_hlen.isSome ∨ want ≤ s.hlen then pkt
    else
      let pos := min (s.off + s.hlen) pkt.buf.length
      { pkt with
        buf := pkt.buf.take pos ++ List.replicate (want - s.hlen) 0 ++ pkt.buf.drop pos
        spans := pkt.spans.take i ++ { s with hlen := want } ::
          (pkt.spans.drop (i + 1)).map fun t => { t with off := t.off + (want - s.hlen) }
        dirty := ALL_DIRTY }

/-- `refit_headers`. -/
def refit_headers (pkt : Packet) : Packet :=
  refresh_totals ((List.range pkt.spans.length).foldl (refit_layer R) pkt)

/-- `sync_group`: the extent field of a layer's repeating group, from the region that is there. -/
def sync_group (pkt : Packet) (layer : ℕ) : Packet :=
  match pkt.spans[layer]? with
  | none => pkt
  | some s =>
    match (R.desc s.proto).sync with
    | none => pkt
    | some sync =>
      let (a, b) := s.hdr_range pkt.buf.length
      mark_dirty { pkt with buf := edit_slice pkt.buf a b fun hdr => sync.run hdr () } layer

/-- `oversize`: an untouched capture keeps the lengths the wire gave, so it is never rejected. -/
def oversize (pkt : Packet) : Option String := if pkt.dirty ≠ 0 then oversize_of R pkt else none

/-- `to_bytes`, for the packet it leaves; its buffer is what is returned. -/
def to_bytes (pkt : Packet) : Packet :=
  if pkt.dirty ≠ 0 then
    { recompute R (refresh_totals pkt) with dirty := 0, resized := false }
  else pkt

end Wiry.Packet
