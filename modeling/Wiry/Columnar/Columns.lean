/-
Bulk reads over a capture: `FieldRef`, `Query` and the columns and filters of `PyPktList` in
`crates/wiry-py/src/lib.rs`, beside the loop over dissected packets they stand for.

What an option region or a repeating group parses to is an argument, and so is how a value is
rendered. The columns of the pseudo-layer `Frame` read no octet and are left out.
-/
import Wiry.Packet.Edit
import Wiry.Repeat.Group

set_option autoImplicit false

namespace Wiry.Columnar

open Packet (Bytes LayerSpan ProtoId FieldDesc FieldKind Registry)
open Repeat (is_le fixed_bytes)

/-! ## Values -/

inductive FieldValue where
  | Uint (n : ℕ)
  | Ipv4 (b : Bytes)
  | Ipv6 (b : Bytes)
  | Mac (b : Bytes)
  | Flags (bits : ℕ)
  | Bytes (b : Bytes)
deriving DecidableEq

def FieldValue.as_uint : FieldValue → Option ℕ
  | .Uint v => some v
  | .Flags bits => some bits
  | .Ipv4 b => some (b.foldl (fun v x => v * 256 + x.toNat) 0)
  | .Mac b => some (b.foldl (fun v x => v * 256 + x.toNat) 0)
  | _ => none

def raw_bytes : FieldValue → Option Bytes
  | .Ipv4 b => some b
  | .Ipv6 b => some b
  | .Mac b => some b
  | .Bytes b => some b
  | _ => none

/-- `field::decode`. -/
def decode (hdr : Bytes) (f : FieldDesc) : FieldValue :=
  match f.kind with
  | .Uint | .LeUint => .Uint (Packet.read_uint hdr f)
  | .Flags => .Flags (Packet.read_uint hdr f)
  | .Ipv4Addr => .Ipv4 (fixed_bytes 4 hdr f)
  | .Ipv6Addr => .Ipv6 (fixed_bytes 16 hdr f)
  | .MacAddr => .Mac (fixed_bytes 6 hdr f)
  | .Bytes =>
    let b := f.bit_off / 8
    let n := f.bit_len / 8
    let v := if b + n ≤ hdr.length then (hdr.drop b).take n else []
    .Bytes (if is_le f then v.reverse else v)
  | .VarBytes => .Bytes (hdr.drop (f.bit_off / 8))

/-! ## One packet -/

section OnePacket

variable (R : Registry)

def find_layer (pkt : Packet) (proto : ProtoId) : Option ℕ :=
  pkt.spans.findIdx? fun s => s.proto = proto

/-- `Packet::get`. -/
def get (pkt : Packet) (layer : ℕ) (name : String) : Option FieldValue :=
  (pkt.active_field R layer name).map (decode (pkt.header layer))

/-- `proto::field_of`, which sees every field the protocol can ever carry. -/
def field_of (p : ProtoId) (name : String) : Option FieldDesc :=
  ((R.fields_of p false).find? (·.name == name)).or ((R.fields_of p true).find? (·.name == name))

end OnePacket

/-! ## A field name resolved once -/

/-- One field name resolved against both layouts a layer can take; one of them declares it. -/
structure FieldRef where
  plain : Option FieldDesc
  framed : Option FieldDesc
  kept : plain.isSome ∨ framed.isSome

section Resolving

variable (R : Registry)

def FieldRef.resolve (p : ProtoId) (name : String) : Option FieldRef :=
  let pick (framed : Bool) := (R.fields_of p framed).find? (·.name == name)
  if h : (pick false).isSome ∨ (pick true).isSome then some ⟨pick false, pick true, h⟩ else none

/-- `FieldRef::at`. -/
def FieldRef.at_span (r : FieldRef) (spans : List LayerSpan) (layer : ℕ) : Option FieldDesc :=
  if 0 < Packet.framing_at spans layer then r.framed else r.plain

def decode_span (buf : Bytes) (s : LayerSpan) (f : FieldDesc) : Option FieldValue :=
  let hdr := s.header buf
  if f.is_active hdr then some (decode hdr f) else none

def decode_at (buf : Bytes) (spans : List LayerSpan) (layer : ℕ) (r : FieldRef) :
    Option FieldValue :=
  spans[layer]?.bind fun s => (r.at_span spans layer).bind (decode_span buf s)

end Resolving

/-! ## Conditions -/

inductive CmpOp where
  | Eq | Ne | Lt | Le | Gt | Ge

/-- `test` of a total order; octets compare lexicographically. -/
def CmpOp.test {α : Type} [DecidableEq α] [LT α] [DecidableLT α] (op : CmpOp) (a b : α) : Bool :=
  match op with
  | .Eq => a = b
  | .Ne => a ≠ b
  | .Lt => a < b
  | .Le => !decide (b < a)
  | .Gt => b < a
  | .Ge => !decide (a < b)

inductive CondVal where
  | Uint (n : ℕ)
  | Bytes (b : Bytes)

/-- Whether a value satisfies a comparison. -/
def satisfies (v : FieldValue) (op : CmpOp) : CondVal → Bool
  | .Uint n => v.as_uint.any fun x => op.test x n
  | .Bytes b => (raw_bytes v).any fun x => op.test x b

structure Cond where
  proto : ProtoId
  field : FieldRef
  op : CmpOp
  val : CondVal

def Cond.holds (c : Cond) (buf : Bytes) (spans : List LayerSpan) : Bool :=
  match spans.findIdx? (fun s => s.proto = c.proto) with
  | none => false
  | some layer =>
    match decode_at buf spans layer c.field with
    | none => false
    | some v => satisfies v c.op c.val

/-- A test against a layer the packet does not have is false, never true. -/
structure Query where
  layer : Option ProtoId
  conds : List Cond

def Query.matches_spans (q : Query) (buf : Bytes) (spans : List LayerSpan) : Bool :=
  q.layer.all (fun l => spans.any fun s => s.proto = l) && q.conds.all fun c => c.holds buf spans

/-! ## Columns -/

/-- The parsers a layer may have: an option region's, or its repeating group's. -/
structure Parsers (Item : Type) where
  parsed_field_name : ProtoId → String
  parse : ProtoId → Option (Bytes → List LayerSpan → ℕ → List Item)

section Capture

variable (R : Registry) {Item : Type} (P : Parsers Item) (render : Bytes → FieldDesc → String)

def Parsers.has_parsed_items (p : ProtoId) : Bool := (P.parse p).isSome

def options_at (buf : Bytes) (spans : List LayerSpan) (layer : ℕ) : Option (List Item) :=
  spans[layer]?.bind fun s => (P.parse s.proto).map fun parse => parse buf spans layer

inductive ColSpec where
  | Field (p : ProtoId) (r : FieldRef)
  | Rendered (p : ProtoId) (r : FieldRef)
  | Options (p : ProtoId)
  | Present (p : ProtoId)

def resolve_spec (p : ProtoId) (name : String) : Option ColSpec :=
  match name.toList with
  | '%' :: bare => (FieldRef.resolve R p (String.ofList bare)).map (.Rendered p)
  | [] => some (.Present p)
  | _ =>
    if name = P.parsed_field_name p ∧ P.has_parsed_items p then some (.Options p)
    else (FieldRef.resolve R p name).map (.Field p)

inductive Cell (Item : Type) where
  | Null
  | Val (v : FieldValue)
  | Text (t : String)
  | Bool (b : Bool)
  | Opts (items : List Item)
deriving DecidableEq

def Cell.of_value (v : Option FieldValue) : Cell Item := v.elim .Null .Val

def rendered_at (buf : Bytes) (spans : List LayerSpan) (layer : ℕ) (r : FieldRef) :
    Option String :=
  spans[layer]?.bind fun s => (r.at_span spans layer).bind fun f =>
    if f.is_active (s.header buf) then some (render (s.header buf) f) else none

/-- What one row of a column holds. -/
def cell (spec : ColSpec) (buf : Bytes) (spans : List LayerSpan) : Cell Item :=
  let position (p : ProtoId) := spans.findIdx? fun s => s.proto = p
  match spec with
  | .Present p => .Bool (spans.any fun s => s.proto = p)
  | .Field p r => .of_value ((position p).bind fun layer => decode_at buf spans layer r)
  | .Rendered p r =>
    ((position p).bind fun layer => rendered_at render buf spans layer r).elim .Null .Text
  | .Options p => ((position p).bind (options_at P buf spans)).elim .Null .Opts

variable (link : ProtoId)

/-- `columns`: one list per spec, over the frames the query keeps. -/
def columns (specs : List ColSpec) (q : Query) (frames : List Bytes) : List (List (Cell Item)) :=
  let spans (buf : Bytes) := Packet.dissect_spans R.layers buf link
  let kept := frames.filter fun buf => q.matches_spans buf (spans buf)
  specs.map fun spec => kept.map fun buf => cell P render spec buf (spans buf)

/-- `field_column`. -/
def field_column (p : ProtoId) (name : String) (frames : List Bytes) : Option (List (Cell Item)) :=
  if (field_of R p name).isNone then none
  else
    let parses_options := name = P.parsed_field_name p ∧ P.has_parsed_items p
    some (frames.map fun buf =>
      let pkt := Packet.dissect R buf link
      match find_layer pkt p with
      | none => .Null
      | some l =>
        match if parses_options then options_at P pkt.buf pkt.spans l else none with
        | some items => .Opts items
        | none => .of_value (get R pkt l name))

/-- `matching`, which `filter_indices` answers. Positions are `u32`, so that this stands for it over
captures of at most `2 ^ 32` frames. -/
def filter_indices (q : Query) (frames : List Bytes) : List ℕ :=
  (frames.zipIdx.filter fun x =>
    q.matches_spans x.1 (Packet.dissect_spans R.layers x.1 link)).map Prod.snd

end Capture

/-! ## A loop over packets -/

/-- A field name a filter takes, beside what it resolves to. -/
structure Accepted (R : Registry) where
  proto : ProtoId
  name : String
  field : FieldRef
  resolves : FieldRef.resolve R proto name = some field

section Loop

variable (R : Registry) (link : ProtoId)

/-- The value of the first layer of that protocol in the dissected packet. -/
def packet_value (p : ProtoId) (name : String) (buf : Bytes) : Option FieldValue :=
  let pkt := Packet.dissect R buf link
  (find_layer pkt p).bind fun l => get R pkt l name

/-- A condition on a named field. -/
structure NamedCond where
  field : Accepted R
  op : CmpOp
  val : CondVal

def NamedCond.cond (c : NamedCond R) : Cond := ⟨c.field.proto, c.field.field, c.op, c.val⟩

def NamedCond.holds (c : NamedCond R) (buf : Bytes) : Bool :=
  (packet_value R link c.field.proto c.field.name buf).any fun v => satisfies v c.op c.val

/-- Whether a loop keeps the packet. -/
def keeps (layer : Option ProtoId) (conds : List (NamedCond R)) (buf : Bytes) : Bool :=
  layer.all (fun l => (find_layer (Packet.dissect R buf link) l).isSome) &&
    conds.all fun c => c.holds R link buf

end Loop

end Wiry.Columnar
