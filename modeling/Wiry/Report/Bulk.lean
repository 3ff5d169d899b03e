/-
`sprintf_list` of `python/wiry/report.py`: the columns a format needs, and a row of them beside a packet
as sources of values.

What a descriptor holds beside its layout is an argument, as are `str`, `%` and the clock of Python. Of
an exception only that it is raised is kept. The capture is one read from a file: its packets are
dissected as they are drawn.

A packet's value comes from one of two places. A layer the engine alone models is read by its
descriptors, as a column is. SNMP, LDAP, DHCPv6 and DNS have a class in Python besides (`_PY_MODELLED`):
the packet decodes the first layer that has one (`_py_top`), and that layer's fields are the object's,
shown through the field's own `i2repr`. What such an object answers is an argument as well; a column
never asks it.
-/
import Wiry.Columnar.Agree
import Wiry.Report.Spelling
import Wiry.Show.FlagValue

set_option autoImplicit false

namespace Wiry.Report

open Columnar
open Packet (Bytes LayerSpan ProtoId FieldDesc Registry)
open Repeat (hex2 render_ipv6)
open Show (render_flags bits_from Named)

local instance text_lawful : LawfulBEq Text := inferInstance

/-! ## Names -/

/-- The pseudo-layer of what is not in the octets. -/
def FRAME : Text := "Frame".toList

/-- The property of a layer's view that is also a field's name. -/
def NAME : Text := "name".toList

/-- The sections of `dns_records`. -/
def sections : List Text := ["qd".toList, "an".toList, "ns".toList, "ar".toList]

/-! ## Values -/

/-- What a read gives Python: `quotient` is a number over its scale, `values` the bare values of a
group's items, `own` an attribute of the view, `object` what a class in Python made of a field, by a
number of its own. -/
inductive PyValue (Item : Type) where
  | int (n : ℕ)
  | str (t : Text)
  | bytes (b : Bytes)
  | flags (bits : ℕ) (names : List Text)
  | quotient (n scale : ℕ)
  | items (l : List Item)
  | values (l : List Item)
  | own (name : Text)
  | object (id : ℕ)

/-- `bool` of a value; only a column's is asked for, and that is no object. -/
def PyValue.truthy {Item : Type} : PyValue Item → Bool
  | .int n => n ≠ 0
  | .str t => t ≠ []
  | .bytes b => b ≠ []
  | .flags bits _ => bits ≠ 0
  | .quotient n _ => n ≠ 0
  | .items l => l ≠ []
  | .values l => l ≠ []
  | .own _ => true
  | .object _ => true

/-- An exception was raised. -/
inductive Raised where
  | raised
deriving DecidableEq

/-! ## Tables -/

/-- What the engine's tables say of layers and descriptors beside where their bits are: `parsers` has
the regions that are parsed, `scalar_list` the groups of bare values, `bcd` the fields of `Repr::Bcd`;
`own` is of a view in Python: its slots, its methods and properties beside `name`, and those of every
object. `py_modelled` is `_PY_MODELLED`, and `py_top` the `_py_top` of a packet that was dissected: the
place of the layer that was decoded, and `_py_value` of its object. -/
structure Tables (Item : Type) where
  by_name : Text → Option ProtoId
  name : ProtoId → Text
  by_name_iff : ∀ t p, by_name t = some p ↔ name p = t
  frame_free : by_name FRAME = none
  parsers : Parsers Item
  scalar_list : ProtoId → Bool
  flags : FieldDesc → List Text
  named : FieldDesc → Bool
  name_of : Bytes → FieldDesc → ℕ → Option Text
  bcd : ProtoId → Text → Bool
  own : Text → Bool
  dns_records : Bytes → List LayerSpan → ℕ → Option (Text → List Item)
  dns_only : ∀ buf spans l, (dns_records buf spans l).isSome →
    ∃ s, spans[l]? = some s ∧ s.proto = .Dns
  py_modelled : ProtoId → Bool
  py_top : Bytes → ProtoId → Option (ℕ × (Text → Bool → Except Raised (Option (PyValue Item))))

/-! ## Texts of values -/

/-- The methods of Python that render a value; `%` may raise. -/
structure Python (Item τ : Type) where
  str : PyValue Item → Text
  percent : Text → PyValue Item → Option Text
  clock : τ → Text

/-- `show::render_value`; `names` are a flags field's. -/
def render_value (names : List Text) : FieldValue → Text
  | .Uint n => Nat.toDigits 10 n
  | .Ipv4 b => Ipaddress.quad_text b
  | .Ipv6 b => render_ipv6 b
  | .Mac b => [':'].intercalate (b.map fun x => hex2 x.toNat)
  | .Flags bits => render_flags (BitVec.ofNat 64 bits) names
  | .Bytes b => '[' :: [',', ' '].intercalate (b.map fun x => Nat.toDigits 10 x.toNat) ++ [']']

/-- `value_to_py`. -/
def value_to_py {Item : Type} (names : List Text) : FieldValue → PyValue Item
  | .Uint n => .int n
  | .Bytes b => .bytes b
  | v => .str (render_value names v)

section

variable (R : Registry) {Item τ : Type} (T : Tables Item) (py : Python Item τ)

/-! ## What a layer declares -/

/-- `rendered`: an enumerated field by its name where it has one. -/
def rendered (hdr : Bytes) (f : FieldDesc) : Text :=
  let v := decode hdr f
  let name :=
    if f.kind = .Uint ∨ f.kind = .LeUint then v.as_uint.bind (T.name_of hdr f) else none
  name.getD (render_value (T.flags f) v)

/-- `all_field_names`. -/
def all_field_names (p : ProtoId) : List Text :=
  let plain := (R.fields_of p false).map fun f => f.name.toList
  plain ++ ((R.fields_of p true).map fun f => f.name.toList).filter (· ∉ plain)

/-- `_column_fields`, none where the name is no layer's. -/
def column_fields (layer : Text) : Option (List Text) := (T.by_name layer).map (all_field_names R)

/-- `_fields_of`. -/
def fields_of (layer : Text) : List Text :=
  (T.by_name layer).elim [] fun p => all_field_names R p ++ if p = .Dns then sections else []

/-- `field in _enum_table(layer)`. -/
def enumerated (p : ProtoId) (field : Text) : Bool :=
  (R.fields_of p false).any fun f => T.named f ∧ f.name.toList = field

/-- `_flag_names`: by the descriptor declared first. -/
def flag_names (p : ProtoId) (field : Text) : Option (List Text) :=
  (((field_of R p (String.ofList field)).filter fun f => f.kind = .Flags).map T.flags).filter (· ≠ [])

/-- `_scale`. -/
def scale (p : ProtoId) (field : Text) : ℕ :=
  if (R.fields_of p false).any fun f => f.name.toList = field ∧ T.bcd p field then 256 else 0

/-- The name under which the layer's parsed items are read. -/
def parsed (p : ProtoId) (field : Text) : Prop :=
  field = (T.parsers.parsed_field_name p).toList ∧ T.parsers.has_parsed_items p

instance (p : ProtoId) (field : Text) : Decidable (parsed T p field) :=
  inferInstanceAs (Decidable (_ ∧ _))

/-! ## A packet as a source -/

/-- The place of the `nb`-th layer of a name. -/
def occurrence_at (layer : Text) : List Text → ℕ → Option ℕ
  | [], _ => none
  | name :: names, nb =>
    if name = layer then
      if nb = 1 then some 0 else (occurrence_at layer names (nb - 1)).map (· + 1)
    else (occurrence_at layer names nb).map (· + 1)

/-- The layer a directive means. -/
def layer_at (names : List Text) (layer : Option Text) (nb : ℕ) (field : Text) : Option ℕ :=
  match layer with
  | none => names.findIdx? fun name => field ∈ fields_of R T name
  | some layer => occurrence_at layer names nb

variable (link : ProtoId)

/-- `getattr(_LayerView(pkt, i, name), field, _MISS)`. The names of a layer's flags are asked for
outright: `_FLAG_FIELDS` has every field of every layer that has some. -/
def layer_view (buf : Bytes) (i : ℕ) (field : Text) : Except Raised (Option (PyValue Item)) :=
  let pkt := Packet.dissect R buf link
  match pkt.spans[i]? with
  | none => .ok none
  | some s =>
    -- what the view has itself is found before `__getattr__` is asked
    if field = NAME then .ok (some (.str (T.name s.proto)))
    else if T.own field then .ok (some (.own field))
    else if field.head? = some '_' then .ok none
    else
      let items := if field = (T.parsers.parsed_field_name s.proto).toList then
        options_at T.parsers pkt.buf pkt.spans i else none
      let records := if field ∈ sections then T.dns_records pkt.buf pkt.spans i else none
      match items, records, pkt.active_field R i (String.ofList field) with
      | some items, _, _ =>
        .ok (some (if T.scalar_list s.proto ∧ items ≠ [] then .values items else .items items))
      | none, some records, _ => .ok (some (.items (records field)))
      | none, none, none => .ok none
      | none, none, some f =>
        let v := decode (pkt.header i) f
        match flag_names R T s.proto field with
        | some names =>
          match v.as_uint with
          | some n => .ok (some (.flags n names))
          | none => .error .raised
        | none =>
          if scale R T s.proto field = 0 then .ok (some (value_to_py (T.flags f) v))
          else
            match v with
            | .Uint n => .ok (some (.quotient n (scale R T s.proto field)))
            | _ => .error .raised

/-- `top is not None and top[0] == i`, where the layer's name is in `_PY_MODELLED`: what then answers for
the layer. -/
def modelled_at (buf : Bytes) (i : ℕ) : Option (Text → Bool → Except Raised (Option (PyValue Item))) :=
  ((Packet.dissect R buf link).spans[i]?.filter fun s => T.py_modelled s.proto).bind fun _ =>
    ((T.py_top buf link).filter fun top => top.1 = i).map Prod.snd

/-- `_PktSource.value`. -/
def pkt_value (buf : Bytes) (layer : Option Text) (nb : ℕ) (field : Text) (raw : Bool) :
    Except Raised (Option (PyValue Item)) :=
  let pkt := Packet.dissect R buf link
  match layer_at R T (pkt.spans.map fun s => T.name s.proto) layer nb field with
  | none => .ok none
  | some i =>
    match modelled_at R T link buf i with
    | some py_value => py_value field raw
    | none =>
      if !raw ∧ (pkt.spans[i]?.any fun s => enumerated R T s.proto field) then
        match pkt.active_field R i (String.ofList field) with
        | some f => .ok (some (.str (rendered T (pkt.header i) f)))
        | none => layer_view R T link buf i field
      else layer_view R T link buf i field

/-- `_apply`: a modifier over a value the packet does not carry is dropped. -/
def apply (value : Option (PyValue Item)) (spec : Text) : Except Raised Text :=
  match value with
  | none => .ok "??".toList
  | some v => if spec = [] then .ok (py.str v) else (py.percent spec v).elim (.error .raised) .ok

/-- `_PktSource`, of a frame and its time. -/
def PktSource (frame : Bytes × τ) : Source Raised where
  present layer field :=
    match field with
    | none => .ok ((Packet.dissect R frame.1 link).spans.any fun s => T.name s.proto = layer)
    | some field => (pkt_value R T link frame.1 (some layer) 1 field true).map Option.isSome
  shown
    | .time spec => apply py (some (.str (py.clock frame.2))) spec
    | .fld layer nb field spec raw => (pkt_value R T link frame.1 layer nb field raw).bind (apply py · spec)
    | _ => .ok []

/-! ## A row of columns as a source -/

/-- A column's layer and what it holds of it. -/
abbrev Key : Type := Text × Text

/-- `_column_key`. -/
def column_key (layer field : Text) (raw : Bool) : Text :=
  if raw ∨ !(T.by_name layer).any (enumerated R T · field) then field else '%' :: field

/-- `need[k] = None`. -/
def put (need : List Key) (k : Key) : List Key := if k ∈ need then need else need ++ [k]

mutual

def Part.plan : Part → List Key → Option (List Key)
  | .lit _, need => some need
  | .time _, need => some (put need (FRAME, "time".toList))
  | .cond layer field parts, need =>
    match column_fields R T layer with
    | none => none
    | some known =>
      if field.any (· ∉ known) then none else plan parts (put need (layer, field.getD []))
  | .fld layer nb field _ raw, need =>
    match layer with
    | none => none
    | some layer =>
      match column_fields R T layer with
      | none => none
      | some known =>
        if nb ≠ 1 ∨ field ∉ known then none else some (put need (layer, column_key R T layer field raw))

/-- `_plan`, none where a packet is needed. -/
def plan : List Part → List Key → Option (List Key)
  | [], need => some need
  | p :: ps, need => (p.plan need).bind (plan ps)

end

/-- A resolved column. -/
inductive Col where
  | time
  | of (spec : ColSpec)

/-- `resolve_spec`. -/
def resolve_key (k : Key) : Option Col :=
  if k.1 = FRAME then if k.2 = "time".toList then some .time else none
  else (T.by_name k.1).bind fun p => (resolve_spec R T.parsers p (String.ofList k.2)).map .of

/-- `dict(zip(specs, ..))`: the columns by their keys. -/
abbrev Cols : Type := List (Key × Col)

def resolve (need : List Key) : Option Cols := need.mapM fun k => (resolve_key R T k).map fun c => (k, c)

/-- `self.cols[key]`, which may raise. -/
def lookup (cols : Cols) (k : Key) : Except Raised Col :=
  match cols.find? fun c => c.1 = k with
  | some c => .ok c.2
  | none => .error .raised

/-- A column's row for a frame. -/
def col_cell (c : Col) (buf : Bytes) : Cell Item :=
  match c with
  | .time => .Null
  | .of spec =>
    cell T.parsers (fun hdr f => String.ofList (rendered T hdr f)) spec buf (Packet.dissect_spans R.layers buf link)

/-- The names of the flags a cell holds. -/
def names_at (c : Col) (buf : Bytes) : List Text :=
  match c with
  | .of (.Field p r) =>
    let spans := Packet.dissect_spans R.layers buf link
    ((spans.findIdx? fun s => s.proto = p).bind (r.at_span spans)).elim [] T.flags
  | _ => []

/-- `into_py_value`, where `None` is none. A `Bool` is asked for by `present` alone. -/
def cell_to_py (names : List Text) : Cell Item → Option (PyValue Item)
  | .Null => none
  | .Val v => some (value_to_py names v)
  | .Text t => some (.str t.toList)
  | .Bool b => some (.int b.toNat)
  | .Opts items => some (.items items)

/-- `FlagValue.from_str`. What is no text is read as one where it is not empty, and raises. -/
def from_str (v : PyValue Item) (names : List Text) : Except Raised (PyValue Item) :=
  match v with
  | .str t => (bits_from t names).elim (.error .raised) fun bits => .ok (.flags bits names)
  | v => if v.truthy then .error .raised else .ok (.flags 0 names)

/-- `self.flags.get((layer, field))`: the names of the flags columns that were asked for as they are. -/
def flags_of (cols : Cols) (layer field : Text) : Option (List Text) :=
  if cols.any fun c => c.1 = (layer, field) then (T.by_name layer).bind (flag_names R T · field) else none

/-- `_ColSource.value`. -/
def col_value (cols : Cols) (buf : Bytes) (layer field : Text) (raw : Bool) :
    Except Raised (Option (PyValue Item)) :=
  (lookup cols (layer, column_key R T layer field raw)).bind fun c =>
    match cell_to_py (names_at R T link c buf) (col_cell R T link c buf) with
    | none => .ok none
    | some v =>
      match flags_of R T cols layer field with
      | none => .ok (some v)
      | some names => (from_str v names).map some

/-- `_ColSource`, at the row of a frame. -/
def ColSource (cols : Cols) (frame : Bytes × τ) : Source Raised where
  present layer field :=
    (lookup cols (layer, field.getD [])).map fun c =>
      (cell_to_py [] (col_cell R T link c frame.1)).any fun v => field.isSome || v.truthy
  shown
    | .time spec =>
      (lookup cols (FRAME, "time".toList)).bind fun _ => apply py (some (.str (py.clock frame.2))) spec
    | .fld layer _ field spec raw =>
      match layer with
      | none => .error .raised
      | some layer => (col_value R T link cols frame.1 layer field raw).bind (apply py · spec)
    | _ => .ok []

/-! ## Both entry points -/

variable (str : Str)

/-- `sprintf`. -/
def sprintf (frame : Bytes × τ) (fmt : Text) : Except Raised Text :=
  match parse str fmt with
  | .error _ => .error .raised
  | .ok parts => render (PktSource R T py link frame) parts

/-- The rendering of `sprintf_list`, of a format that was read. -/
def render_list (frames : List (Bytes × τ)) (parts : List Part) : Except Raised (List Text) :=
  match plan R T parts [] with
  | none => frames.mapM fun frame => render (PktSource R T py link frame) parts
  | some need =>
    match resolve R T need with
    | none => .error .raised
    | some cols => frames.mapM fun frame => render (ColSource R T py link cols frame) parts

/-- `sprintf_list`. -/
def sprintf_list (frames : List (Bytes × τ)) (fmt : Text) : Except Raised (List Text) :=
  match parse str fmt with
  | .error _ => .error .raised
  | .ok parts => render_list R T py link frames parts

end

end Wiry.Report
